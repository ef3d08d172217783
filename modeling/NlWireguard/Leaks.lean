import NlWireguard.Validation

/-!
# What the error for a malformed secret reveals

The error names the property and what is wrong with its text, which is never
quoted. The base64 decoder however renders the one byte it stumbled over, so
that two texts with the same fault are told apart by this byte.
-/

namespace NlWireguard

variable [Base64.Engine]

-- ---------------------------------------------------------------------------
-- Secrets
-- ---------------------------------------------------------------------------

inductive Secret
  | privateKey
  | presharedKey (index : Nat)
  deriving DecidableEq, Repr

namespace Secret

def propName : Secret → String
  | privateKey => "private_key"
  | presharedKey _ => "peer.preshared_key"

def text? (c : WireguardParsed) : Secret → Option String
  | privateKey => c.privateKey
  | presharedKey index => (c.peers.getD [])[index]?.bind (·.presharedKey)

end Secret

structure WireguardPeerParsed.SameButSecret (p q : WireguardPeerParsed) : Prop where
  others : { p with presharedKey := none } = { q with presharedKey := none }
  presharedKey : p.presharedKey.isSome = q.presharedKey.isSome

/-- Equal, except for the texts of secret keys. -/
structure WireguardParsed.SameButSecrets (c c' : WireguardParsed) : Prop where
  others : { c with privateKey := none, peers := none } = { c' with privateKey := none, peers := none }
  privateKey : c.privateKey.isSome = c'.privateKey.isSome
  peers : Option.Rel (List.Forall₂ WireguardPeerParsed.SameButSecret) c.peers c'.peers

-- ---------------------------------------------------------------------------
-- Malformed texts
-- ---------------------------------------------------------------------------

/-- Why a text is no key: how and where decoding it fails, or how many bytes it
holds. -/
inductive Reason
  | undecodable (failure : Base64.DecodeError)
  | wrongLength (length : Nat)
  deriving DecidableEq, Repr

def reason? (text : String) : Option Reason :=
  match Base64.Engine.decode text with
  | .error e => some (.undecodable e.withoutByte)
  | .ok key => if key.length = wgKeyLen then none else some (.wrongLength key.length)

def rejectedByte? (text : String) : Option UInt8 :=
  match Base64.Engine.decode text with
  | .error e => e.byte?
  | .ok _ => none

/-- The decoder's rendering is quoted behind the name of the property. -/
def undecodableError (propName : String) (failure : Base64.DecodeError) : WireguardError :=
  .new .invalidKey ("Invalid " ++ propName ++ ": not a valid base64 encoded string: " ++
    failure.display) none

def wrongLengthError (propName : String) (length : Nat) : WireguardError :=
  .new .invalidKey
    s!"Invalid {propName}: {wgKeyLen} bytes expected, but the base64 encoded string holds {length} bytes"
    none

omit [Base64.Engine] in
theorem undecodableError_inj (propName : String) {a b : Base64.DecodeError}
    (h : a.withoutByte = b.withoutByte) :
    undecodableError propName a = undecodableError propName b ↔ a.byte? = b.byte? := by
  rw [← Base64.DecodeError.display_inj h]
  refine ⟨fun herror => ?_, fun hdisplay => by rw [undecodableError, hdisplay, undecodableError]⟩
  have hmsg := congrArg WireguardError.msg herror
  exact (String.append_right_inj _).mp hmsg

theorem decodeKey_error_cases (h : decodeKey propName text = .error e) :
    (∃ failure, Base64.Engine.decode text = .error failure ∧
      e = undecodableError propName failure) ∨
    ∃ key, Base64.Engine.decode text = .ok key ∧ key.length ≠ wgKeyLen ∧
      e = wrongLengthError propName key.length := by
  cases hdecode : Base64.Engine.decode text with
  | error failure =>
    simp only [decodeKey, hdecode] at h
    exact .inl ⟨failure, rfl, (Except.error.inj h).symm⟩
  | ok key =>
    simp only [decodeKey, hdecode] at h
    split at h
    · exact absurd h ExceptLaws.ok_ne_error
    · rename_i hlen
      exact .inr ⟨key, rfl, hlen, (Except.error.inj h).symm⟩

/-- Texts with the same fault are reported alike exactly when they have it with
the same byte. -/
theorem decodeKey_error_inj (hreason : reason? text = reason? text')
    (h : decodeKey propName text = .error e) (h' : decodeKey propName text' = .error e') :
    e = e' ↔ rejectedByte? text = rejectedByte? text' := by
  unfold reason? at hreason
  unfold rejectedByte?
  rcases decodeKey_error_cases h with ⟨failure, hdecode, rfl⟩ | ⟨key, hdecode, hlen, rfl⟩
  · rcases decodeKey_error_cases h' with ⟨failure', hdecode', rfl⟩ | ⟨key', hdecode', hlen', rfl⟩
    · simp only [hdecode, hdecode', Option.some.injEq, Reason.undecodable.injEq] at hreason ⊢
      exact undecodableError_inj propName hreason
    · simp [hdecode, hdecode', hlen'] at hreason
  · rcases decodeKey_error_cases h' with ⟨failure', hdecode', rfl⟩ | ⟨key', hdecode', hlen', rfl⟩
    · simp [hdecode, hdecode', hlen] at hreason
    · have hlength : key.length = key'.length := by
        simpa [hdecode, hdecode', hlen, hlen'] using hreason
      rw [hdecode, hdecode', hlength]
      exact iff_of_true rfl rfl

-- ---------------------------------------------------------------------------
-- Rejected configurations
-- ---------------------------------------------------------------------------

namespace WireguardParsed

/-- `c` is rejected because its secret `s`, which is `text`, is no key. -/
structure RejectedFor (c : WireguardParsed) (cmd : WireguardCmd) (s : Secret) (text : String) :
    Prop where
  held : s.text? c = some text
  rejected : ∃ e, decodeKey s.propName text = .error e ∧ c.buildMessages cmd = .error e

/-- Every rejection of a key is one of a secret or one of a public key. -/
theorem rejectedFor_or_publicKey {c : WireguardParsed} (h : c.buildMessages cmd = .error e)
    (hkind : e.kind = .invalidKey) :
    (∃ s text, c.RejectedFor cmd s text) ∨
      (∃ text, c.publicKey = some text ∧ ¬KeyText text) ∨
      ∃ p ∈ c.peers.getD [], ∃ text, p.publicKey = some text ∧ ¬KeyText text := by
  cases buildMessages_fault h with
  | iface he => exact nomatch hkind.symm.trans (ifaceAttribute_error he).1
  | publicKey htext he => exact .inr (.inl ⟨_, htext, (decodeKey_error he).2⟩)
  | privateKey htext he => exact .inl ⟨.privateKey, _, htext, _, he, h⟩
  | peer hp he =>
    cases he with
    | missing _ hinput => exact nomatch hkind.symm.trans hinput
    | publicKey htext he => exact .inr (.inr ⟨_, hp, _, htext, (decodeKey_error he).2⟩)
    | presharedKey htext he =>
      obtain ⟨index, hindex⟩ := List.mem_iff_getElem?.mp hp
      refine .inl ⟨.presharedKey index, _, ?_, _, he, h⟩
      rw [Secret.text?, hindex, Option.bind_some, htext]
    | allowedIp _ he => exact nomatch hkind.symm.trans (WireguardIpAddress.validate_error he).1

/-- Two configurations rejected for the same fault of the same secret are
rejected alike. -/
def HidesSecrets (c c' : WireguardParsed) (cmd : WireguardCmd) : Prop :=
  c.SameButSecrets c' → ∀ s text text', c.RejectedFor cmd s text → c'.RejectedFor cmd s text' →
    reason? text = reason? text' → c.buildMessages cmd = c'.buildMessages cmd

/-- The rejection tells the texts of a secret apart by the byte the decoder
stumbled over, and by nothing else. -/
theorem rejection_eq_iff {c c' : WireguardParsed} (h : c.RejectedFor cmd s text)
    (h' : c'.RejectedFor cmd s text') (hreason : reason? text = reason? text') :
    c.buildMessages cmd = c'.buildMessages cmd ↔ rejectedByte? text = rejectedByte? text' := by
  obtain ⟨-, e, he, hbuild⟩ := h
  obtain ⟨-, e', he', hbuild'⟩ := h'
  rw [hbuild, hbuild', Except.error.injEq]
  exact decodeKey_error_inj hreason he he'

def mistypedKey (first others : Char) : String :=
  String.ofList (first :: List.replicate 42 others ++ ['='])

def mistyped (first others : Char) : WireguardParsed where
  ifaceName := some "wg0"
  privateKey := some (mistypedKey first others)

omit [Base64.Engine] in
theorem rejectedFor_mistyped (first others : Char) (error : WireguardError)
    (h : @buildMessages Base64.standard (mistyped first others) .setDevice = .error error)
    (hkey : @decodeKey Base64.standard "private_key" (mistypedKey first others) = .error error) :
    @RejectedFor Base64.standard (mistyped first others) .setDevice .privateKey
      (mistypedKey first others) :=
  @RejectedFor.mk Base64.standard _ _ _ _ rfl ⟨error, hkey, h⟩

omit [Base64.Engine] in
theorem rejection_eq_iff_sample :
    @buildMessages Base64.standard (mistyped '!' 'A') .setDevice =
        @buildMessages Base64.standard (mistyped '!' 'B') .setDevice ↔
      @rejectedByte? Base64.standard (mistypedKey '!' 'A') =
        @rejectedByte? Base64.standard (mistypedKey '!' 'B') :=
  let error := undecodableError "private_key" (.invalidByte 0 33)
  @rejection_eq_iff Base64.standard .setDevice .privateKey _ _ _ _
    (rejectedFor_mistyped '!' 'A' error (by decide +kernel) (by decide +kernel))
    (rejectedFor_mistyped '!' 'B' error (by decide +kernel) (by decide +kernel))
    (by decide +kernel)

omit [Base64.Engine] in
theorem not_hidesSecrets :
    ¬@HidesSecrets Base64.standard (mistyped '!' 'A') (mistyped '?' 'A') .setDevice := by
  intro h
  have hsame : (mistyped '!' 'A').SameButSecrets (mistyped '?' 'A') := ⟨rfl, rfl, .none⟩
  have halike := h hsame .privateKey _ _
    (rejectedFor_mistyped '!' 'A' (undecodableError "private_key" (.invalidByte 0 33))
      (by decide +kernel) (by decide +kernel))
    (rejectedFor_mistyped '?' 'A' (undecodableError "private_key" (.invalidByte 0 63))
      (by decide +kernel) (by decide +kernel))
    (by decide +kernel)
  exact absurd halike (by decide +kernel)

end WireguardParsed

end NlWireguard
