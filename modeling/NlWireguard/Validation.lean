import NlWireguard.Handle
import NlWireguard.ParsedLaws

/-!
# Which configurations are rejected, and as what

All checks are made before anything is sent, wherever in the configuration the
fault is. A rejection is about a key or about another input: `Fault` lists what
`buildMessages` can find, and its kind tells which of the two it is.
-/

namespace NlWireguard

open ExceptLaws

variable [Base64.Engine]

-- ---------------------------------------------------------------------------
-- Valid configurations
-- ---------------------------------------------------------------------------

/-- The canonical base64 text of a key. -/
def KeyText (text : String) : Prop := ∃ key : Key, text = encodeKey key

namespace WireguardPeerParsed

/-- What a peer needs besides well-formed keys. -/
structure InputsValid (p : WireguardPeerParsed) : Prop where
  publicKey : p.publicKey.isSome
  allowedIps : ∀ ip ∈ p.allowedIps.getD [], ip.Valid

/-- The keys a peer has are well-formed. -/
structure KeysValid (p : WireguardPeerParsed) : Prop where
  publicKey : ∀ text, p.publicKey = some text → KeyText text
  presharedKey : ∀ text, p.presharedKey = some text → KeyText text

end WireguardPeerParsed

namespace WireguardParsed

/-- A name the kernel takes, or an index if there is no name. -/
def IfaceValid (c : WireguardParsed) : Prop :=
  (∃ name, c.ifaceName = some name ∧ name.utf8ByteSize < ifnamsiz ∧ Char.ofNat 0 ∉ name.toList) ∨
    (c.ifaceName = none ∧ c.ifaceIndex.isSome)

structure InputsValid (c : WireguardParsed) : Prop where
  iface : c.IfaceValid
  peers : ∀ p ∈ c.peers.getD [], p.InputsValid

structure KeysValid (c : WireguardParsed) : Prop where
  publicKey : ∀ text, c.publicKey = some text → KeyText text
  privateKey : ∀ text, c.privateKey = some text → KeyText text
  peers : ∀ p ∈ c.peers.getD [], p.KeysValid

end WireguardParsed

-- ---------------------------------------------------------------------------
-- Accepted is valid
-- ---------------------------------------------------------------------------

theorem exists_keys {property : Option String} :
    (∃ key : Option Key, property = key.map encodeKey) ↔
      ∀ text, property = some text → KeyText text := by
  cases property with
  | none => exact ⟨fun _ _ h => (nomatch h), fun _ => ⟨none, rfl⟩⟩
  | some text =>
    constructor
    · rintro ⟨key, hkey⟩ other hother
      obtain ⟨key, -, rfl⟩ := Option.map_eq_some_iff.mp hkey.symm
      exact ⟨key, (Option.some.inj hother).symm⟩
    · intro h
      obtain ⟨key, rfl⟩ := h text rfl
      exact ⟨some key, rfl⟩

theorem WireguardPeerParsed.exists_accepted {p : WireguardPeerParsed} :
    (∃ keys, p.Accepted keys) ↔ p.InputsValid ∧ p.KeysValid := by
  constructor
  · rintro ⟨keys, h⟩
    refine ⟨⟨by simp [h.publicKey], h.allowedIps⟩, ?_, exists_keys.mp ⟨_, h.presharedKey⟩⟩
    exact exists_keys.mp ⟨some keys.publicKey, h.publicKey⟩
  · rintro ⟨hinputs, hkeys⟩
    obtain ⟨text, htext⟩ := Option.isSome_iff_exists.mp hinputs.publicKey
    obtain ⟨publicKey, rfl⟩ := hkeys.publicKey text htext
    obtain ⟨presharedKey, hpsk⟩ := exists_keys.mpr hkeys.presharedKey
    exact ⟨⟨publicKey, presharedKey⟩, htext, hpsk, hinputs.allowedIps⟩

namespace WireguardParsed

variable {c : WireguardParsed}

omit [Base64.Engine] in
theorem exists_iface : (∃ iface, c.ifaceAttribute = .ok iface) ↔ c.IfaceValid := by
  constructor
  · rintro ⟨iface, h⟩
    rcases ifaceAttribute_cases h with ⟨name, hname, -, hlen, hnul⟩ | ⟨index, hname, hindex, -⟩
    · exact .inl ⟨name, hname, hlen, hnul⟩
    · exact .inr ⟨hname, by simp [hindex]⟩
  · rintro (⟨name, hname, hlen, hnul⟩ | ⟨hname, hindex⟩)
    · exact ⟨_, ifaceAttribute_name hname hlen hnul⟩
    · obtain ⟨index, hindex⟩ := Option.isSome_iff_exists.mp hindex
      exact ⟨.ifIndex index, by simp [ifaceAttribute, hname, hindex]⟩

theorem exists_entries {peers : List WireguardPeerParsed}
    (h : ∀ p ∈ peers, ∃ keys, p.Accepted keys) :
    ∃ entries : List WireguardPeerParsed.Checked, peers = entries.map (·.peer) := by
  induction peers with
  | nil => exact ⟨[], rfl⟩
  | cons p peers ih =>
    obtain ⟨keys, hkeys⟩ := h p (by simp)
    obtain ⟨entries, rfl⟩ := ih fun q hq => h q (List.mem_cons_of_mem _ hq)
    exact ⟨⟨p, keys, hkeys⟩ :: entries, rfl⟩

theorem nonempty_plan : Nonempty c.Plan ↔ c.InputsValid ∧ c.KeysValid := by
  constructor
  · rintro ⟨plan⟩
    have hpeers : ∀ p ∈ c.peers.getD [], p.InputsValid ∧ p.KeysValid := by
      intro p hp
      rw [plan.peers_eq] at hp
      obtain ⟨e, -, rfl⟩ := List.mem_map.mp hp
      exact WireguardPeerParsed.exists_accepted.mp ⟨e.keys, e.accepted⟩
    exact
      ⟨⟨exists_iface.mp ⟨_, plan.accepted.iface⟩, fun p hp => (hpeers p hp).1⟩,
        ⟨exists_keys.mp ⟨_, plan.accepted.publicKey⟩, exists_keys.mp ⟨_, plan.accepted.privateKey⟩,
          fun p hp => (hpeers p hp).2⟩⟩
  · rintro ⟨hinputs, hkeys⟩
    obtain ⟨iface, hiface⟩ := exists_iface.mpr hinputs.iface
    obtain ⟨publicKey, hpublicKey⟩ := exists_keys.mpr hkeys.publicKey
    obtain ⟨privateKey, hprivateKey⟩ := exists_keys.mpr hkeys.privateKey
    obtain ⟨entries, hentries⟩ := exists_entries fun p hp =>
      WireguardPeerParsed.exists_accepted.mpr ⟨hinputs.peers p hp, hkeys.peers p hp⟩
    exact ⟨⟨iface, ⟨publicKey, privateKey⟩, ⟨hiface, hpublicKey, hprivateKey⟩, entries, hentries⟩⟩

/-- What is accepted is exactly what is valid. -/
theorem buildMessages_isOk :
    (∃ ms, c.buildMessages cmd = .ok ms) ↔ c.InputsValid ∧ c.KeysValid := by
  rw [← nonempty_plan]
  constructor
  · rintro ⟨ms, h⟩
    obtain ⟨plan, -⟩ := buildMessages_plan.mp h
    exact ⟨plan⟩
  · rintro ⟨plan⟩
    exact ⟨_, buildMessages_plan.mpr ⟨plan, rfl⟩⟩

end WireguardParsed

-- ---------------------------------------------------------------------------
-- Rejections
-- ---------------------------------------------------------------------------

/-- What `build` finds wrong with a peer. -/
inductive WireguardPeerParsed.Fault (p : WireguardPeerParsed) : WireguardError → Prop
  | missing (h : p.publicKey = none) (hkind : e.kind = .invalidInput) : Fault p e
  | publicKey (h : p.publicKey = some text) (he : decodeKey "peer.public_key" text = .error e) :
      Fault p e
  | presharedKey (h : p.presharedKey = some text)
      (he : decodeKey "peer.preshared_key" text = .error e) : Fault p e
  | allowedIp (h : ip ∈ p.allowedIps.getD []) (he : ip.validate = .error e) : Fault p e

inductive WireguardParsed.Fault (c : WireguardParsed) : WireguardError → Prop
  | iface (he : c.ifaceAttribute = .error e) : Fault c e
  | publicKey (h : c.publicKey = some text) (he : decodeKey "public_key" text = .error e) : Fault c e
  | privateKey (h : c.privateKey = some text) (he : decodeKey "private_key" text = .error e) :
      Fault c e
  | peer (h : p ∈ c.peers.getD []) (he : p.Fault e) : Fault c e

omit [Base64.Engine] in
theorem emitM_error {attr : α → Except ε β} (h : emitM property attr = .error e) :
    ∃ v, property = some v ∧ attr v = .error e := by
  cases property with
  | none => exact absurd h ok_ne_error
  | some v =>
    refine ⟨v, rfl, ?_⟩
    simp only [emitM, Option.toList_some, List.mapM_cons, List.mapM_nil, bind_error] at h
    rcases h with h | ⟨_, -, h | ⟨_, -, h⟩⟩
    · exact h
    · exact absurd h ok_ne_error
    · exact absurd h ok_ne_error

theorem emitM_decodeKey_error {attr : Key → β}
    (h : emitM property (fun v => attr <$> decodeKey propName v) = .error e) :
    ∃ text, property = some text ∧ decodeKey propName text = .error e := by
  obtain ⟨text, htext, h⟩ := emitM_error h
  exact ⟨text, htext, map_error.mp h⟩

namespace WireguardPeerParsed

theorem build_fault {p : WireguardPeerParsed} (h : p.build = .error e) : p.Fault e := by
  simp only [build, guard_error, bind_error] at h
  rcases h with ⟨hnone, rfl⟩ | ⟨-, h | ⟨_, -, h | ⟨_, -, h | ⟨_, -, h⟩⟩⟩⟩
  · exact .missing (Option.isNone_iff_eq_none.mp hnone) rfl
  · obtain ⟨text, htext, he⟩ := emitM_decodeKey_error h
    exact .publicKey htext he
  · obtain ⟨text, htext, he⟩ := emitM_decodeKey_error h
    exact .presharedKey htext he
  · obtain ⟨ips, hips, he⟩ := emitM_error h
    rcases bind_error.mp he with he | ⟨_, -, he⟩
    · obtain ⟨ip, hip, he⟩ := forM_error he
      exact .allowedIp (by rw [hips]; exact hip) he
    · exact absurd he ok_ne_error
  · exact absurd h ok_ne_error

theorem peerChunks_fault {p : WireguardPeerParsed} (h : peerChunks p = .error e) : p.Fault e := by
  rcases bind_error.mp h with h | ⟨built, hbuilt, -⟩
  · exact build_fault h
  · obtain ⟨keys, hkeys, -⟩ := build_ok.mp hbuilt
    exact absurd ((peerChunks_eq hkeys).symm.trans h) ok_ne_error

end WireguardPeerParsed

namespace WireguardParsed

variable {c : WireguardParsed}

theorem deviceAttributes_fault (h : c.deviceAttributes = .error e) : c.Fault e := by
  simp only [deviceAttributes, bind_error] at h
  rcases h with h | ⟨_, -, h | ⟨_, -, h | ⟨_, -, h⟩⟩⟩
  · exact .iface h
  · obtain ⟨text, htext, he⟩ := emitM_decodeKey_error h
    exact .publicKey htext he
  · obtain ⟨text, htext, he⟩ := emitM_decodeKey_error h
    exact .privateKey htext he
  · exact absurd h ok_ne_error

theorem buildMessage_fault (h : c.buildMessage cmd first bin = .error e) : c.Fault e := by
  unfold buildMessage at h
  cases first with
  | true =>
    rcases bind_error.mp h with h | ⟨_, -, h⟩
    · exact deviceAttributes_fault h
    · exact absurd h ok_ne_error
  | false =>
    rcases bind_error.mp h with h | ⟨_, -, h⟩
    · exact .iface (map_error.mp h)
    · exact absurd h ok_ne_error

theorem flush_fault {s : Splitter} (h : c.flush cmd s = .error e) : c.Fault e := by
  rcases bind_error.mp h with h | ⟨_, -, h⟩
  · exact buildMessage_fault h
  · exact absurd h ok_ne_error

theorem pushChunk_fault {s : Splitter} (h : c.pushChunk cmd s chunk = .error e) : c.Fault e := by
  unfold pushChunk at h
  by_cases hfull : s.peers ≠ [] ∧ maxNlaValueLen < s.peersLen + bufferLen chunk
  · simp only [if_pos hfull, bind_error] at h
    rcases h with h | ⟨_, -, h⟩
    · exact flush_fault h
    · exact absurd h ok_ne_error
  · simp only [if_neg hfull] at h
    exact absurd h ok_ne_error

theorem pushPeerChunks_fault {s : Splitter} (hp : p ∈ c.peers.getD [])
    (h : c.pushPeerChunks cmd s p = .error e) : c.Fault e := by
  rcases bind_error.mp h with h | ⟨_, -, h⟩
  · exact .peer hp (WireguardPeerParsed.peerChunks_fault h)
  · obtain ⟨_, _, -, h⟩ := foldlM_error h
    exact pushChunk_fault h

theorem buildMessages_fault (h : c.buildMessages cmd = .error e) : c.Fault e := by
  rcases bind_error.mp h with h | ⟨_, -, h⟩
  · obtain ⟨_, p, hp, h⟩ := foldlM_error h
    exact pushPeerChunks_fault hp h
  · split at h
    · rcases bind_error.mp h with h | ⟨_, -, h⟩
      · exact flush_fault h
      · exact absurd h ok_ne_error
    · exact absurd h ok_ne_error

end WireguardParsed

-- ---------------------------------------------------------------------------
-- The kind of a rejection
-- ---------------------------------------------------------------------------

theorem decodeKey_error (h : decodeKey propName text = .error e) :
    e.kind = .invalidKey ∧ ¬KeyText text := by
  refine ⟨?_, fun ⟨key, hkey⟩ => ok_ne_error ((decodeKey_ok.mpr hkey).symm.trans h)⟩
  unfold decodeKey at h
  split at h
  · exact (Except.error.inj h) ▸ rfl
  · split at h
    · exact absurd h ok_ne_error
    · exact (Except.error.inj h) ▸ rfl

omit [Base64.Engine] in
theorem WireguardIpAddress.validate_error {ip : WireguardIpAddress} (h : ip.validate = .error e) :
    e.kind = .invalidInput ∧ ¬ip.Valid := by
  refine ⟨?_, fun hvalid => ok_ne_error ((validate_ok (u := ()).mpr hvalid).symm.trans h)⟩
  unfold validate at h
  split at h
  · exact (Except.error.inj h) ▸ rfl
  · exact absurd h ok_ne_error

namespace WireguardParsed

variable {c : WireguardParsed}

omit [Base64.Engine] in
theorem ifaceAttribute_error (h : c.ifaceAttribute = .error e) :
    e.kind = .invalidInput ∧ ¬c.IfaceValid := by
  refine ⟨?_, fun hvalid => ?_⟩
  · unfold ifaceAttribute at h
    split at h
    · split at h
      · exact (Except.error.inj h) ▸ rfl
      · split at h
        · exact (Except.error.inj h) ▸ rfl
        · exact absurd h ok_ne_error
    · exact absurd h ok_ne_error
    · exact (Except.error.inj h) ▸ rfl
  · obtain ⟨iface, hiface⟩ := exists_iface.mpr hvalid
    exact absurd (hiface.symm.trans h) ok_ne_error

end WireguardParsed

theorem WireguardPeerParsed.Fault.kind {p : WireguardPeerParsed} (h : p.Fault e) :
    (e.kind = .invalidKey ∧ ¬p.KeysValid) ∨ (e.kind = .invalidInput ∧ ¬p.InputsValid) := by
  cases h with
  | missing h hkind =>
    exact .inr ⟨hkind, fun hvalid => by simpa [h] using hvalid.publicKey⟩
  | publicKey h he =>
    obtain ⟨hkind, hnot⟩ := decodeKey_error he
    exact .inl ⟨hkind, fun hvalid => hnot (hvalid.publicKey _ h)⟩
  | presharedKey h he =>
    obtain ⟨hkind, hnot⟩ := decodeKey_error he
    exact .inl ⟨hkind, fun hvalid => hnot (hvalid.presharedKey _ h)⟩
  | allowedIp h he =>
    obtain ⟨hkind, hnot⟩ := WireguardIpAddress.validate_error he
    exact .inr ⟨hkind, fun hvalid => hnot (hvalid.allowedIps _ h)⟩

namespace WireguardParsed

variable {c : WireguardParsed}

theorem Fault.kind (h : c.Fault e) :
    (e.kind = .invalidKey ∧ ¬c.KeysValid) ∨ (e.kind = .invalidInput ∧ ¬c.InputsValid) := by
  cases h with
  | iface he =>
    obtain ⟨hkind, hnot⟩ := ifaceAttribute_error he
    exact .inr ⟨hkind, fun hvalid => hnot hvalid.iface⟩
  | publicKey h he =>
    obtain ⟨hkind, hnot⟩ := decodeKey_error he
    exact .inl ⟨hkind, fun hvalid => hnot (hvalid.publicKey _ h)⟩
  | privateKey h he =>
    obtain ⟨hkind, hnot⟩ := decodeKey_error he
    exact .inl ⟨hkind, fun hvalid => hnot (hvalid.privateKey _ h)⟩
  | peer hp he =>
    rcases he.kind with ⟨hkind, hnot⟩ | ⟨hkind, hnot⟩
    · exact .inl ⟨hkind, fun hvalid => hnot (hvalid.peers _ hp)⟩
    · exact .inr ⟨hkind, fun hvalid => hnot (hvalid.peers _ hp)⟩

variable [OsError]

/-- `buildMessages` accepts what is valid, tells a malformed key from any other
fault, and nothing is sent of what it rejects. -/
structure Validates (c : WireguardParsed) (cmd : WireguardCmd) : Prop where
  ok : (∃ ms, c.buildMessages cmd = .ok ms) ↔ c.InputsValid ∧ c.KeysValid
  invalidKey : ∀ e, c.buildMessages cmd = .error e → c.InputsValid → e.kind = .invalidKey
  invalidInput : ∀ e, c.buildMessages cmd = .error e → c.KeysValid → e.kind = .invalidInput
  unsent : ¬(c.InputsValid ∧ c.KeysValid) → ∀ link : Link,
    ∃ e, c.buildMessages .setDevice = .error e ∧ set link c = ⟨[], .error e⟩

/-- The checks are exact, and made before anything is sent. -/
theorem buildMessages_validates (c : WireguardParsed) (cmd : WireguardCmd) : c.Validates cmd where
  ok := buildMessages_isOk
  invalidKey e h hinputs :=
    (buildMessages_fault h).kind.elim And.left fun hnot => absurd hinputs hnot.2
  invalidInput e h hkeys :=
    (buildMessages_fault h).kind.elim (fun hnot => absurd hkeys hnot.2) And.left
  unsent hnot link := by
    cases h : c.buildMessages .setDevice with
    | ok ms => exact absurd (buildMessages_isOk.mp ⟨ms, h⟩) hnot
    | error e => exact ⟨e, rfl, by simp [set, setWith, h]⟩

end WireguardParsed

end NlWireguard
