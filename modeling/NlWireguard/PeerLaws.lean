import NlWireguard.Lib.ExceptLaws
import NlWireguard.Parsed

/-!
# What building a peer yields

`build_ok` says when a peer is accepted and which attributes it becomes,
`peerChunks_ok` the same for the chunks it is split into: one packing of its
allowed IPs instead of the loops.
-/

namespace NlWireguard

open ExceptLaws

variable [Base64.Engine]

-- ---------------------------------------------------------------------------
-- Keys and optional properties
-- ---------------------------------------------------------------------------

theorem encodeKey_injective (h : encodeKey a = encodeKey b) : a = b :=
  Key.ext (Base64.Engine.encode_injective h)

theorem decodeKey_ok : decodeKey propName text = .ok key ↔ text = encodeKey key := by
  unfold decodeKey encodeKey
  constructor
  · intro h
    split at h
    · simp at h
    · rename_i bytes hdec
      split at h
      · cases h
        exact (Base64.Engine.encode_of_decode _ _ hdec).symm
      · simp at h
  · rintro rfl
    simp [Base64.Engine.decode_encode, key.length_bytes]

omit [Base64.Engine] in
@[simp] theorem emit_none (attr : α → β) : emit none attr = [] := rfl

omit [Base64.Engine] in
@[simp] theorem emit_some (v : α) (attr : α → β) : emit (some v) attr = [attr v] := rfl

omit [Base64.Engine] in
theorem mem_emit {attr : α → β} : b ∈ emit property attr ↔ ∃ v, property = some v ∧ b = attr v := by
  cases property <;> simp

omit [Base64.Engine] in
theorem filter_emit (property : Option α) (attr : α → β) (keep : β → Bool)
    (h : ∀ v, keep (attr v) = true) : (emit property attr).filter keep = emit property attr := by
  cases property <;> simp [h]

omit [Base64.Engine] in
theorem filter_emit_nil (property : Option α) (attr : α → β) (keep : β → Bool)
    (h : ∀ v, keep (attr v) = false) : (emit property attr).filter keep = [] := by
  cases property <;> simp [h]

omit [Base64.Engine] in
theorem filterMap_emit (property : Option α) (attr : α → β) (value? : β → Option γ) :
    (emit property attr).filterMap value? = property.toList.filterMap (value? ∘ attr) := by
  cases property <;> simp [List.filterMap_cons]

omit [Base64.Engine] in
@[simp] theorem emitM_none (attr : α → Except ε β) : emitM none attr = .ok [] := rfl

omit [Base64.Engine] in
theorem emitM_some {attr : α → Except ε β} :
    emitM (some v) attr = .ok bs ↔ ∃ b, attr v = .ok b ∧ bs = [b] := by
  simp only [emitM, Option.toList_some, List.mapM_cons, List.mapM_nil, pure_bind, bind_ok, pure_ok]
  simp [eq_comm]

theorem emitM_decodeKey {attr : Key → β} :
    emitM property (fun v => attr <$> decodeKey propName v) = .ok bs ↔
      ∃ key : Option Key, property = key.map encodeKey ∧ bs = emit key attr := by
  cases property with
  | none => simp [eq_comm]
  | some text =>
    simp only [emitM_some, map_ok, decodeKey_ok]
    constructor
    · rintro ⟨_, ⟨key, rfl, rfl⟩, rfl⟩
      exact ⟨some key, rfl, rfl⟩
    · rintro ⟨key, hkey, rfl⟩
      obtain ⟨key, rfl, rfl⟩ := Option.map_eq_some_iff.mp hkey.symm
      exact ⟨attr key, ⟨key, rfl, rfl⟩, rfl⟩

-- ---------------------------------------------------------------------------
-- The attributes of a peer
-- ---------------------------------------------------------------------------

def WireguardIpAddress.Valid (ip : WireguardIpAddress) : Prop := ip.prefixLength ≤ ip.maxPrefixLength

omit [Base64.Engine] in
theorem WireguardIpAddress.validate_ok {ip : WireguardIpAddress} :
    ip.validate = .ok u ↔ ip.Valid := by
  unfold validate Valid
  split <;> simp_all

namespace WireguardPeerParsed

structure Keys where
  publicKey : Key
  presharedKey : Option Key

/-- The peer passes all checks, and these are its keys. -/
structure Accepted (p : WireguardPeerParsed) (keys : Keys) : Prop where
  publicKey : p.publicKey = some (encodeKey keys.publicKey)
  presharedKey : p.presharedKey = keys.presharedKey.map encodeKey
  allowedIps : ∀ ip ∈ p.allowedIps.getD [], ip.Valid

def attributesBefore (p : WireguardPeerParsed) (keys : Keys) : List WireguardPeerAttribute :=
  emit p.endpoint .endpoint ++ [.publicKey keys.publicKey] ++ emit keys.presharedKey .presharedKey ++
    emit p.persistentKeepalive .persistentKeepalive ++
    emit p.lastHandshake (fun v => .lastHandshake ⟨v.asSecs.toInt64, v.subsecNanos.toUInt64.toInt64⟩) ++
    emit p.rxBytes .rxBytes ++ emit p.txBytes .txBytes

def attributesAfter (p : WireguardPeerParsed) : List WireguardPeerAttribute :=
  emit p.protocolVersion .protocolVersion ++
    emit p.flags fun flags => .flags (WireguardParsedPeerFlags.bitsOf flags)

def stateAttributes (p : WireguardPeerParsed) (keys : Keys) : List WireguardPeerAttribute :=
  p.attributesBefore keys ++ p.attributesAfter

def ipAttributes (p : WireguardPeerParsed) : List WireguardPeerAttribute :=
  emit p.allowedIps fun ips => .allowedIps (ips.map WireguardIpAddress.toAllowedIp)

def attributes (p : WireguardPeerParsed) (keys : Keys) : List WireguardPeerAttribute :=
  p.attributesBefore keys ++ p.ipAttributes ++ p.attributesAfter

omit [Base64.Engine] in
theorem emitM_allowedIps :
    emitM property (fun ips => do
      ips.forM fun ip : WireguardIpAddress => ip.validate
      return WireguardPeerAttribute.allowedIps (ips.map WireguardIpAddress.toAllowedIp)) = .ok bs ↔
      (∀ ip ∈ property.getD [], ip.Valid) ∧
        bs = emit property fun ips => .allowedIps (ips.map WireguardIpAddress.toAllowedIp) := by
  cases property with
  | none => simp
  | some ips =>
    simp only [emitM_some, bind_ok, List.forM_eq_forM, forM_ok, pure_ok,
      WireguardIpAddress.validate_ok, emit_some, Option.getD_some]
    constructor
    · rintro ⟨_, ⟨_, hvalid, rfl⟩, rfl⟩
      exact ⟨hvalid, rfl⟩
    · rintro ⟨hvalid, rfl⟩
      exact ⟨_, ⟨⟨⟩, hvalid, rfl⟩, rfl⟩

theorem build_ok : build p = .ok peer ↔ ∃ keys, p.Accepted keys ∧ peer = ⟨p.attributes keys⟩ := by
  unfold build
  cases hpub : p.publicKey with
  | none =>
    refine ⟨fun h => ?_, fun ⟨keys, h, _⟩ => ?_⟩
    · simp [throw, throwThe, MonadExceptOf.throw] at h
    · rw [h.publicKey] at hpub
      simp at hpub
  | some text =>
    simp only [Option.isNone_some, Bool.false_eq_true, ↓reduceIte, bind_ok,
      emitM_decodeKey, emitM_allowedIps, pure_ok]
    constructor
    · rintro ⟨_, ⟨pub, hpub', rfl⟩, _, ⟨psk, hpsk, rfl⟩, _, ⟨hips, rfl⟩, rfl⟩
      obtain ⟨pub, rfl, rfl⟩ := Option.map_eq_some_iff.mp hpub'.symm
      refine ⟨⟨pub, psk⟩, ⟨hpub, hpsk, hips⟩, ?_⟩
      simp [attributes, attributesBefore, attributesAfter, ipAttributes]
    · rintro ⟨⟨pub, psk⟩, h, rfl⟩
      refine ⟨_, ⟨some pub, hpub.symm.trans h.publicKey, rfl⟩, _, ⟨psk, h.presharedKey, rfl⟩, _,
        ⟨h.allowedIps, rfl⟩, ?_⟩
      simp [attributes, attributesBefore, attributesAfter, ipAttributes]

-- ---------------------------------------------------------------------------
-- The chunks of a peer
-- ---------------------------------------------------------------------------

/-- The peer is to be removed: one of its flags holds the bit. -/
def Removes (p : WireguardPeerParsed) : Prop :=
  Bitflags.Contains (WireguardParsedPeerFlags.bitsOf (p.flags.getD [])) WireguardPeerFlags.removeMe

/-- The peer must not be created: one of its flags holds the bit. -/
def UpdatesOnly (p : WireguardPeerParsed) : Prop :=
  Bitflags.Contains (WireguardParsedPeerFlags.bitsOf (p.flags.getD [])) WireguardPeerFlags.updateOnly

instance (p : WireguardPeerParsed) : Decidable p.Removes := inferInstanceAs (Decidable (_ = _))

instance (p : WireguardPeerParsed) : Decidable p.UpdatesOnly := inferInstanceAs (Decidable (_ = _))

/-- The bytes of a first chunk with no allowed IPs in its list of them. -/
def firstLen (p : WireguardPeerParsed) (keys : Keys) : Nat :=
  stateLen (p.stateAttributes keys) + nlaHeaderSize

def continuationLen (keys : Keys) : Nat :=
  NlWireguard.continuationLen (.publicKey keys.publicKey) + nlaHeaderSize

/-- The allowed IPs, cut into the batches of the chunks. -/
def batches (p : WireguardPeerParsed) (keys : Keys) (ips : List WireguardIpAddress) :
    List (List WireguardAllowedIp) :=
  NextFit.pack bufferLen maxNlaValueLen (continuationLen keys) (p.firstLen keys) []
    (ips.map WireguardIpAddress.toAllowedIp)

def continuationChunk (keys : Keys) (batch : List WireguardAllowedIp) : WireguardPeer :=
  ⟨[.publicKey keys.publicKey, .allowedIps batch]⟩

def firstChunk (p : WireguardPeerParsed) (keys : Keys) (batch : List WireguardAllowedIp) :
    WireguardPeer :=
  ⟨p.stateAttributes keys ++ [.allowedIps batch]⟩

/-- What a peer is split into. -/
def chunks (p : WireguardPeerParsed) (keys : Keys) : List WireguardPeer :=
  match p.allowedIps with
  | none => [⟨p.stateAttributes keys⟩]
  | some ips =>
    if p.Removes then [⟨p.stateAttributes keys⟩]
    else
      match p.batches keys ips with
      | [] => [p.firstChunk keys []]
      | batch :: more => p.firstChunk keys batch :: more.map (continuationChunk keys)

/-- Attributes which `PeerSplit` only collects. -/
def Plain : WireguardPeerAttribute → Prop
  | .allowedIps _ | .flags _ => False
  | _ => True

omit [Base64.Engine] in
theorem foldl_add_plain (split : PeerSplit) (h : ∀ a ∈ attrs, Plain a) :
    attrs.foldl PeerSplit.add split =
      { split with stateAttributes := split.stateAttributes ++ attrs } := by
  induction attrs generalizing split with
  | nil => simp
  | cons a attrs ih =>
    have ha : Plain a := h a (by simp)
    have hadd : split.add a = { split with stateAttributes := split.stateAttributes ++ [a] } := by
      cases a <;> first | rfl | exact ha.elim
    rw [List.foldl_cons, hadd, ih _ fun b hb => h b (List.mem_cons_of_mem _ hb)]
    simp

omit [Base64.Engine] in
theorem plain_attributesBefore (p : WireguardPeerParsed) (keys : Keys) :
    ∀ a ∈ p.attributesBefore keys, Plain a := by
  intro a ha
  simp only [attributesBefore, List.mem_append, mem_emit, List.mem_singleton] at ha
  rcases ha with (((((⟨_, -, rfl⟩ | rfl) | ⟨_, -, rfl⟩) | ⟨_, -, rfl⟩) | ⟨_, -, rfl⟩) | ⟨_, -, rfl⟩) |
    ⟨_, -, rfl⟩ <;> trivial

omit [Base64.Engine] in
theorem foldl_add_attributes (p : WireguardPeerParsed) (keys : Keys) :
    (p.attributes keys).foldl PeerSplit.add {} =
      { stateAttributes := p.stateAttributes keys
        allowedIps := p.allowedIps.map (·.map WireguardIpAddress.toAllowedIp)
        removeMe := p.Removes } := by
  rw [attributes, List.append_assoc, List.foldl_append,
    foldl_add_plain _ (p.plain_attributesBefore keys)]
  have hzero : ¬Bitflags.Contains 0#32 WireguardPeerFlags.removeMe := by decide
  cases hips : p.allowedIps <;> cases hversion : p.protocolVersion <;> cases hflags : p.flags <;>
    simp [ipAttributes, attributesAfter, stateAttributes, PeerSplit.add, Removes, hips, hversion,
      hflags, WireguardParsedPeerFlags.bitsOf, hzero]

omit [Base64.Engine] in
theorem find_publicKey (p : WireguardPeerParsed) (keys : Keys) :
    (p.stateAttributes keys).find? isPublicKey = some (.publicKey keys.publicKey) := by
  cases hendpoint : p.endpoint <;>
    simp [stateAttributes, attributesBefore, hendpoint, isPublicKey]

omit [Base64.Engine] in
theorem continuationChunks_eq (publicKey : WireguardPeerAttribute) (len : Nat)
    (ips : List WireguardAllowedIp) :
    continuationChunks publicKey len ips =
      (NextFit.pack bufferLen maxNlaValueLen (len + nlaHeaderSize) (len + nlaHeaderSize) [] ips).map
        fun batch => ⟨[publicKey, .allowedIps batch]⟩ := by
  fun_induction continuationChunks publicKey len ips with
  | case1 => simp [NextFit.pack]
  | case2 ips hips ih =>
    rw [ih, NextFit.pack_unfold hips]
    simp [takeAllowedIpsBatch, fillBatch]

theorem peerChunks_eq (h : p.Accepted keys) : peerChunks p = .ok (p.chunks keys) := by
  have hbuild : p.build = .ok ⟨p.attributes keys⟩ := build_ok.mpr ⟨keys, h, rfl⟩
  simp only [peerChunks, hbuild, ok_bind, p.foldl_add_attributes keys]
  unfold chunks batches
  cases hips : p.allowedIps with
  | none => rfl
  | some ips =>
    by_cases hr : p.Removes
    · simp [hr, pure, Except.pure]
    · cases hnil : ips with
      | nil => simp [hr, NextFit.pack, firstChunk, pure, Except.pure]
      | cons ip more =>
        have hne : (ip :: more).map WireguardIpAddress.toAllowedIp ≠ [] := by simp
        simp only [Option.map_some, hr, decide_false, Bool.false_eq_true, ↓reduceIte, hne,
          p.find_publicKey keys]
        rw [NextFit.pack_unfold hne]
        simp [takeAllowedIpsBatch, fillBatch, continuationChunks_eq, firstLen, continuationLen,
          firstChunk, pure, Except.pure, continuationChunk]

/-- A peer is split whenever it is accepted, into these chunks. -/
theorem peerChunks_ok :
    peerChunks p = .ok cs ↔ ∃ keys, p.Accepted keys ∧ cs = p.chunks keys := by
  constructor
  · intro h
    obtain ⟨peer, hbuild, -⟩ := bind_ok.mp h
    obtain ⟨keys, hkeys, -⟩ := build_ok.mp hbuild
    rw [peerChunks_eq hkeys] at h
    exact ⟨keys, hkeys, (Except.ok.inj h).symm⟩
  · rintro ⟨keys, hkeys, rfl⟩
    exact peerChunks_eq hkeys

/-- A peer which passes all checks. -/
structure Checked where
  peer : WireguardPeerParsed
  keys : Keys
  accepted : peer.Accepted keys

namespace Checked

def whole (e : Checked) : WireguardPeer := ⟨e.peer.attributes e.keys⟩

def chunks (e : Checked) : List WireguardPeer := e.peer.chunks e.keys

theorem build (e : Checked) : e.peer.build = .ok e.whole := build_ok.mpr ⟨e.keys, e.accepted, rfl⟩

theorem peerChunks (e : Checked) : NlWireguard.peerChunks e.peer = .ok e.chunks :=
  peerChunks_eq e.accepted

end Checked

def largeIps (count : Nat) : List WireguardIpAddress :=
  (List.range count).map fun i => ⟨32, .v4 (BitVec.ofNat 32 i), none⟩

/-- A peer with `count` networks, which is split when they are many. -/
def largePeer (flags : List WireguardParsedPeerFlags) (count : Nat) : WireguardPeerParsed where
  publicKey := some (encodeKey .zero)
  allowedIps := some (largeIps count)
  flags := some flags

def Checked.large (flags : List WireguardParsedPeerFlags) (count : Nat) : Checked where
  peer := largePeer flags count
  keys := ⟨.zero, none⟩
  accepted :=
    { publicKey := rfl
      presharedKey := rfl
      allowedIps := fun ip hip => by
        obtain ⟨i, -, rfl⟩ := List.mem_map.mp hip
        exact UInt8.le_refl 32 }

theorem not_removes_large (count : Nat) : ¬(largePeer [] count).Removes :=
  (by decide : ¬Bitflags.Contains (WireguardParsedPeerFlags.bitsOf []) WireguardPeerFlags.removeMe)

theorem not_updatesOnly_large (count : Nat) : ¬(largePeer [] count).UpdatesOnly :=
  (by decide : ¬Bitflags.Contains (WireguardParsedPeerFlags.bitsOf []) WireguardPeerFlags.updateOnly)

theorem mapM_peerChunks_ok : peers.mapM peerChunks = .ok groups ↔
    ∃ entries : List Checked, peers = entries.map Checked.peer ∧
      groups = entries.map Checked.chunks := by
  rw [mapM_ok]
  constructor
  · intro h
    induction h with
    | nil => exact ⟨[], rfl, rfl⟩
    | cons hpeer _ ih =>
      obtain ⟨keys, haccepted, rfl⟩ := peerChunks_ok.mp hpeer
      obtain ⟨entries, rfl, rfl⟩ := ih
      exact ⟨⟨_, keys, haccepted⟩ :: entries, rfl, rfl⟩
  · rintro ⟨entries, rfl, rfl⟩
    simpa [List.forall₂_map_left_iff, List.forall₂_map_right_iff, List.forall₂_same] using
      fun e _ => e.peerChunks

end WireguardPeerParsed

end NlWireguard
