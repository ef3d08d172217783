import NlWireguard.Shape

/-!
# Encoded lengths

A netlink attribute stores its length in 16 bits. Nothing that is nested can
be longer than what it is nested in, so all lengths follow from the one of the
peers, and that one from the two splitters: the counters they decide by are
the encoded lengths, and even a single allowed IP leaves room to spare.
-/

namespace NlWireguard

open ExceptLaws

-- ---------------------------------------------------------------------------
-- Padding
-- ---------------------------------------------------------------------------

theorem le_nlaAlign (len : Nat) : len ≤ nlaAlign len := by
  unfold nlaAlign nlaAlignto
  omega

theorem nlaAlign_le (len : Nat) : nlaAlign len ≤ len + (nlaAlignto - 1) := by
  unfold nlaAlign nlaAlignto
  omega

theorem nlaAlign_eq (h : nlaAlignto ∣ len) : nlaAlign len = len := by
  obtain ⟨k, rfl⟩ := h
  unfold nlaAlign nlaAlignto
  omega

theorem nlaAlignto_dvd_bufferLen [Nla α] (nla : α) : nlaAlignto ∣ bufferLen nla :=
  Nat.dvd_add (Nat.dvd_refl 4) (Nat.dvd_mul_left _ _)

theorem nlaAlignto_dvd_total [Nla α] (nlas : List α) :
    nlaAlignto ∣ NextFit.total bufferLen nlas := by
  induction nlas with
  | nil => simp
  | cons nla nlas ih =>
    rw [NextFit.total_cons]
    exact Nat.dvd_add (nlaAlignto_dvd_bufferLen nla) ih

/-- Nested attributes need no padding of their own. -/
theorem bufferLen_nested [Nla α] [Nla β] {outer : α} {nested : List β}
    (h : Nla.valueLen outer = NextFit.total bufferLen nested) :
    bufferLen outer = nlaHeaderSize + NextFit.total bufferLen nested := by
  rw [bufferLen, h, nlaAlign_eq (nlaAlignto_dvd_total nested)]

theorem bufferLen_peer (attrs : List WireguardPeerAttribute) :
    bufferLen (WireguardPeer.mk attrs) = nlaHeaderSize + NextFit.total bufferLen attrs :=
  bufferLen_nested rfl

theorem bufferLen_allowedIps (ips : List WireguardAllowedIp) :
    bufferLen (WireguardPeerAttribute.allowedIps ips) =
      nlaHeaderSize + NextFit.total bufferLen ips :=
  bufferLen_nested rfl

theorem continuationLen_eq (publicKey : WireguardPeerAttribute) :
    continuationLen publicKey = bufferLen (WireguardPeer.mk [publicKey]) := by
  simp [continuationLen, bufferLen_peer]

def maxNlaLen : Nat := 65535

/-- The length of an attribute fits into the length field, with or without
padding. -/
structure FitsField [Nla α] (nla : α) : Prop where
  plain : nlaHeaderSize + Nla.valueLen nla ≤ maxNlaLen
  padded : bufferLen nla ≤ maxNlaLen

theorem fitsField_of_bufferLen [Nla α] {nla : α} (h : bufferLen nla ≤ maxNlaLen) : FitsField nla :=
  ⟨Nat.le_trans (Nat.add_le_add_left (le_nlaAlign _) _) h, h⟩

/-- What is nested in an attribute which fits does fit. -/
theorem FitsField.nested [Nla α] [Nla β] {outer : α} {nested : List β} (h : FitsField outer)
    (hlen : Nla.valueLen outer = NextFit.total bufferLen nested) : ∀ nla ∈ nested, FitsField nla := by
  intro nla hmem
  have hle : bufferLen nla ≤ NextFit.total bufferLen nested :=
    NextFit.le_total hmem
  refine fitsField_of_bufferLen (Nat.le_trans hle ?_)
  exact hlen ▸ Nat.le_trans (Nat.le_add_left _ _) h.plain

def WireguardAllowedIp.Encodable (ip : WireguardAllowedIp) : Prop :=
  FitsField ip ∧ ∀ attr ∈ ip.attributes, FitsField attr

def WireguardPeer.Encodable (peer : WireguardPeer) : Prop :=
  FitsField peer ∧ ∀ attr ∈ peer.attributes, FitsField attr ∧
    ∀ ips, attr = .allowedIps ips → ∀ ip ∈ ips, ip.Encodable

/-- Every length field of a message is in range, and its peers stay below the
limit of the splitter. -/
def WireguardMessage.Encodable (m : WireguardMessage) : Prop :=
  ∀ attr ∈ m.attributes, FitsField attr ∧
    ∀ peers, attr = .peers peers → Nla.valueLen attr ≤ maxNlaValueLen ∧
      ∀ peer ∈ peers, peer.Encodable

theorem FitsField.peer {peer : WireguardPeer} (h : FitsField peer) : peer.Encodable := by
  refine ⟨h, fun attr hattr => ?_⟩
  have hfits : FitsField attr := h.nested rfl attr hattr
  refine ⟨hfits, ?_⟩
  rintro ips rfl ip hip
  have hip : FitsField ip := hfits.nested rfl ip hip
  exact ⟨hip, hip.nested rfl⟩

theorem bufferLen_le [Nla α] {nla : α} (h : Nla.valueLen nla ≤ n) : bufferLen nla ≤ n + 7 := by
  have hpad : nlaAlign (Nla.valueLen nla) ≤ n + 3 :=
    Nat.le_trans (nlaAlign_le _) (Nat.add_le_add_right h _)
  exact Nat.le_trans (Nat.add_le_add_left hpad 4) (Nat.le_of_eq (Nat.add_left_comm 4 n 3))

theorem total_emit_le [Nla β] {attr : α → β} (property : Option α)
    (h : ∀ v, Nla.valueLen (attr v) ≤ n) : NextFit.total bufferLen (emit property attr) ≤ n + 7 := by
  cases property with
  | none => exact Nat.zero_le _
  | some v => simpa using bufferLen_le (h v)

/-- More bytes than an allowed IP takes. -/
def maxAllowedIpLen : Nat := 64

def maxStateLen : Nat := 256

theorem bufferLen_toAllowedIp (ip : WireguardIpAddress) :
    bufferLen ip.toAllowedIp ≤ maxAllowedIpLen := by
  have haddr : Nla.valueLen (WireguardAllowedIpAttr.ipAddr ip.ipAddr) ≤ 16 := by
    cases ip.ipAddr <;> simp [Nla.valueLen, IpAddr.isIpv4]
  have hcidr : bufferLen (WireguardAllowedIpAttr.cidr ip.prefixLength) ≤ 1 + 7 :=
    bufferLen_le (Nat.le_refl 1)
  have hfamily (family : WireguardAddressFamily) :
      bufferLen (WireguardAllowedIpAttr.family family) ≤ 2 + 7 := bufferLen_le (Nat.le_refl 2)
  have hflags : NextFit.total bufferLen (emit ip.flags fun flags => WireguardAllowedIpAttr.flags
      (Bitflags.union (flags.map WireguardParsedAllowedIpFlags.toFlags))) ≤ 4 + 7 :=
    total_emit_le ip.flags fun _ => Nat.le_refl 4
  have hnested : bufferLen ip.toAllowedIp =
      nlaHeaderSize + NextFit.total bufferLen ip.toAllowedIp.attributes := bufferLen_nested rfl
  rw [hnested, WireguardIpAddress.toAllowedIp, NextFit.total_append]
  simp only [NextFit.total_cons, NextFit.total_nil, nlaHeaderSize, maxAllowedIpLen]
  have haddr := bufferLen_le haddr
  have hfamily := hfamily (if ip.ipAddr.isIpv4 then .ipv4 else .ipv6)
  omega

namespace WireguardPeerParsed

theorem total_stateAttributes (p : WireguardPeerParsed) (keys : Keys) :
    NextFit.total bufferLen (p.stateAttributes keys) ≤ maxStateLen := by
  have hendpoint : NextFit.total bufferLen (emit p.endpoint WireguardPeerAttribute.endpoint) ≤ 35 :=
    total_emit_le p.endpoint fun addr => by
      cases addr <;> simp [Nla.valueLen, SocketAddr.isIpv4]
  have hpublicKey : bufferLen (WireguardPeerAttribute.publicKey keys.publicKey) ≤ 39 :=
    bufferLen_le (Nat.le_refl 32)
  have hpresharedKey :
      NextFit.total bufferLen (emit keys.presharedKey WireguardPeerAttribute.presharedKey) ≤ 39 :=
    total_emit_le _ fun _ => Nat.le_refl 32
  have hkeepalive : NextFit.total bufferLen
      (emit p.persistentKeepalive WireguardPeerAttribute.persistentKeepalive) ≤ 9 :=
    total_emit_le _ fun _ => Nat.le_refl 2
  have hhandshake : NextFit.total bufferLen (emit p.lastHandshake fun v =>
      WireguardPeerAttribute.lastHandshake ⟨v.asSecs.toInt64, v.subsecNanos.toUInt64.toInt64⟩) ≤ 23 :=
    total_emit_le _ fun _ => Nat.le_refl 16
  have hrx : NextFit.total bufferLen (emit p.rxBytes WireguardPeerAttribute.rxBytes) ≤ 15 :=
    total_emit_le _ fun _ => Nat.le_refl 8
  have htx : NextFit.total bufferLen (emit p.txBytes WireguardPeerAttribute.txBytes) ≤ 15 :=
    total_emit_le _ fun _ => Nat.le_refl 8
  have hversion :
      NextFit.total bufferLen (emit p.protocolVersion WireguardPeerAttribute.protocolVersion) ≤ 11 :=
    total_emit_le _ fun _ => Nat.le_refl 4
  have hflags : NextFit.total bufferLen (emit p.flags fun flags =>
      WireguardPeerAttribute.flags (WireguardParsedPeerFlags.bitsOf flags)) ≤ 11 :=
    total_emit_le _ fun _ => Nat.le_refl 4
  simp only [stateAttributes, attributesBefore, attributesAfter, NextFit.total_append,
    NextFit.total_cons, NextFit.total_nil, maxStateLen]
  omega

theorem bufferLen_firstChunk (p : WireguardPeerParsed) (keys : Keys)
    (batch : List WireguardAllowedIp) :
    bufferLen (p.firstChunk keys batch) = p.firstLen keys + NextFit.total bufferLen batch := by
  rw [firstChunk, bufferLen_peer, NextFit.total_append, NextFit.total_cons, bufferLen_allowedIps,
    NextFit.total_nil, firstLen, stateLen]
  omega

theorem bufferLen_continuationChunk (keys : Keys) (batch : List WireguardAllowedIp) :
    bufferLen (continuationChunk keys batch) =
      continuationLen keys + NextFit.total bufferLen batch := by
  rw [continuationChunk, bufferLen_peer, NextFit.total_cons, NextFit.total_cons,
    bufferLen_allowedIps, NextFit.total_nil, continuationLen, NlWireguard.continuationLen]
  omega

theorem firstLen_le (p : WireguardPeerParsed) (keys : Keys) : p.firstLen keys ≤ maxStateLen + 8 := by
  have hstate : NextFit.total bufferLen (p.stateAttributes keys) ≤ maxStateLen :=
    p.total_stateAttributes keys
  simp only [firstLen, stateLen, nlaHeaderSize]
  omega

theorem continuationLen_le (keys : Keys) : continuationLen keys ≤ maxStateLen + 8 := by
  have hpublicKey : bufferLen (WireguardPeerAttribute.publicKey keys.publicKey) ≤ 39 :=
    bufferLen_le (Nat.le_refl 32)
  simp only [continuationLen, NlWireguard.continuationLen, nlaHeaderSize, maxStateLen]
  omega

theorem batches_fit (p : WireguardPeerParsed) (keys : Keys) (ips : List WireguardIpAddress) :
    NextFit.Fits bufferLen maxNlaValueLen (p.firstLen keys) (continuationLen keys)
      (p.batches keys ips) := by
  have hip : ∀ ip ∈ ips.map WireguardIpAddress.toAllowedIp, bufferLen ip ≤ maxAllowedIpLen := by
    intro ip hip
    obtain ⟨ip, -, rfl⟩ := List.mem_map.mp hip
    exact bufferLen_toAllowedIp ip
  have hroom : maxStateLen + 8 + maxAllowedIpLen ≤ maxNlaValueLen := by decide
  refine NextFit.pack_fits rfl (fun h => absurd rfl h) (fun ip hmem => ?_) (fun ip hmem => ?_)
  · exact Nat.le_trans (Nat.add_le_add (p.firstLen_le keys) (hip ip hmem)) hroom
  · exact Nat.le_trans (Nat.add_le_add (continuationLen_le keys) (hip ip hmem)) hroom

theorem bufferLen_chunks (p : WireguardPeerParsed) (keys : Keys) :
    ∀ chunk ∈ p.chunks keys, bufferLen chunk ≤ maxNlaValueLen := by
  have hstate : bufferLen (WireguardPeer.mk (p.stateAttributes keys)) ≤ maxNlaValueLen := by
    rw [bufferLen_peer]
    exact Nat.le_trans (Nat.add_le_add_left (p.total_stateAttributes keys) _) (by decide)
  unfold chunks
  cases hips : p.allowedIps with
  | none => simpa using hstate
  | some ips =>
    by_cases hr : p.Removes
    · simpa [hr] using hstate
    · have hfit := p.batches_fit keys ips
      simp only [if_neg hr]
      cases hbatches : p.batches keys ips with
      | nil =>
        simp only [List.mem_singleton, forall_eq, bufferLen_firstChunk, NextFit.total_nil]
        exact Nat.le_trans (p.firstLen_le keys) (by decide)
      | cons batch more =>
        rw [hbatches] at hfit
        simp only [List.mem_cons, List.mem_map]
        rintro chunk (rfl | ⟨b, hb, rfl⟩)
        · exact bufferLen_firstChunk p keys batch ▸ hfit.1
        · exact bufferLen_continuationChunk keys b ▸ hfit.2 b hb

theorem bufferLen_attributes (p : WireguardPeerParsed) (keys : Keys) (hips : p.allowedIps = some ips) :
    bufferLen (WireguardPeer.mk (p.attributes keys)) =
      p.firstLen keys + NextFit.total bufferLen (ips.map WireguardIpAddress.toAllowedIp) := by
  simp only [bufferLen_peer, attributes, ipAttributes, hips, emit_some, firstLen, stateLen,
    stateAttributes, NextFit.total_append, NextFit.total_cons, NextFit.total_nil,
    bufferLen_allowedIps]
  omega

end WireguardPeerParsed

-- ---------------------------------------------------------------------------
-- Messages
-- ---------------------------------------------------------------------------

variable [Base64.Engine]

/-- A peer which stays is sent in one piece exactly when it fits. -/
theorem WireguardPeerParsed.Checked.chunks_length_one (e : Checked) (hkept : ¬e.peer.Removes) :
    e.chunks.length = 1 ↔ bufferLen e.whole ≤ maxNlaValueLen := by
  cases hips : e.peer.allowedIps with
  | none =>
    have hchunks : e.chunks = [e.whole] := by
      simp [chunks, WireguardPeerParsed.chunks, whole, attributes, stateAttributes, ipAttributes,
        hips]
    simpa [hchunks] using e.peer.bufferLen_chunks e.keys e.whole (by
      rw [← chunks, hchunks]
      exact List.mem_singleton_self _)
  | some ips =>
    have hlen : bufferLen e.whole = e.peer.firstLen e.keys +
        NextFit.total bufferLen (ips.map WireguardIpAddress.toAllowedIp) :=
      e.peer.bufferLen_attributes e.keys hips
    have hbatches := NextFit.pack_length_le_one (e.peer.batches_fit e.keys ips)
    have hempty : ips = [] → bufferLen e.whole ≤ maxNlaValueLen := by
      rintro rfl
      rw [hlen]
      exact Nat.le_trans (e.peer.firstLen_le e.keys) (by decide)
    rw [List.map_eq_nil_iff, ← hlen, or_iff_right_of_imp hempty] at hbatches
    rw [← hbatches]
    unfold chunks WireguardPeerParsed.chunks batches
    simp only [hips, if_neg hkept]
    cases NextFit.pack bufferLen maxNlaValueLen (continuationLen e.keys)
      (e.peer.firstLen e.keys) [] (ips.map WireguardIpAddress.toAllowedIp) <;> simp

/-- A peer which does not fit is split. -/
theorem WireguardPeerParsed.Checked.one_lt_chunks (e : Checked) (hkept : ¬e.peer.Removes)
    (hlong : maxNlaValueLen < bufferLen e.whole) : 1 < e.chunks.length := by
  have hne : e.chunks.length ≠ 1 := fun h =>
    Nat.not_le.mpr hlong ((e.chunks_length_one hkept).mp h)
  rcases e.chunks_cases with ⟨-, h⟩ | ⟨_, _, _, -, -, h, -, -⟩
  · simp [h] at hne
  · rw [h, List.length_cons] at hne ⊢
    omega

theorem WireguardPeerParsed.Checked.large_long (flags : List WireguardParsedPeerFlags)
    (h : 2400 ≤ count) : maxNlaValueLen < bufferLen (large flags count).whole := by
  have hip : ∀ ip ∈ (largeIps count).map WireguardIpAddress.toAllowedIp, bufferLen ip = 28 := by
    intro ip hip
    simp only [largeIps, List.map_map, List.mem_map] at hip
    obtain ⟨i, -, rfl⟩ := hip
    simp [bufferLen, Nla.valueLen, nlaAlign, nlaAlignto, nlaHeaderSize, NextFit.total,
      WireguardIpAddress.toAllowedIp, IpAddr.isIpv4]
  rw [whole, bufferLen_attributes _ _ rfl, NextFit.total_const hip]
  simp only [largeIps, List.length_map, List.length_range, maxNlaValueLen, nlaHeaderSize, nlaAlignto]
  omega

namespace WireguardParsed

namespace Plan

variable {c : WireguardParsed}

theorem fits_chunks (plan : c.Plan) : NextFit.Fits bufferLen maxNlaValueLen 0 0
    (NextFit.pack bufferLen maxNlaValueLen 0 0 [] plan.chunks) := by
  have hchunk : ∀ chunk ∈ plan.chunks, 0 + bufferLen chunk ≤ maxNlaValueLen := by
    intro chunk hmem
    obtain ⟨group, hgroup, hmem⟩ := List.mem_flatten.mp hmem
    obtain ⟨e, -, rfl⟩ := List.mem_map.mp hgroup
    exact (Nat.zero_add _).symm ▸ e.peer.bufferLen_chunks e.keys chunk hmem
  exact NextFit.pack_fits rfl (fun h => absurd rfl h) hchunk hchunk

theorem total_bin (plan : c.Plan) :
    ∀ bin ∈ bins plan.chunks, NextFit.total bufferLen bin ≤ maxNlaValueLen := by
  intro bin hbin
  unfold bins at hbin
  by_cases hnil : plan.chunks = []
  · rw [if_pos hnil, List.mem_singleton] at hbin
    exact hbin ▸ Nat.zero_le _
  · rw [if_neg hnil] at hbin
    exact plan.fits_chunks.total_le bin hbin

end Plan

-- ---------------------------------------------------------------------------
-- Counters
-- ---------------------------------------------------------------------------

end WireguardParsed

end NlWireguard
