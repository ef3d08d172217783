import NlWireguard.Cut
import NlWireguard.Runs

/-!
# Attributes in another order

The attributes of a message, of a peer and of an allowed IP may be listed in
any order: `ofMessages_shuffled` says that nothing which is read depends on
it, as long as no kind of attribute is repeated within its list. The allowed
IPs which are kept are the ones with an address and a prefix length.
-/

namespace NlWireguard

open Folds

-- ---------------------------------------------------------------------------
-- Shuffled attributes
-- ---------------------------------------------------------------------------

def WireguardAllowedIpAttr.kind : WireguardAllowedIpAttr → UInt16
  | family _ => 1
  | ipAddr _ => 2
  | cidr _ => 3
  | flags _ => 4
  | other kind _ => kind

namespace WireguardAllowedIp

def KindsOnce (ip : WireguardAllowedIp) : Prop :=
  (ip.attributes.map WireguardAllowedIpAttr.kind).Nodup

instance (ip : WireguardAllowedIp) : Decidable ip.KindsOnce :=
  inferInstanceAs (Decidable (List.Nodup _))

/-- The same attributes in any order. -/
def Shuffled (ip other : WireguardAllowedIp) : Prop := ip.attributes.Perm other.attributes

end WireguardAllowedIp

inductive WireguardPeerAttribute.Shuffled : WireguardPeerAttribute → WireguardPeerAttribute → Prop
  | allowedIps (h : List.Forall₂ WireguardAllowedIp.Shuffled ips others) :
      Shuffled (.allowedIps ips) (.allowedIps others)
  | same (attr : WireguardPeerAttribute) : Shuffled attr attr

theorem WireguardPeerAttribute.kind_of_allowedIps (a b : WireguardPeerAttribute)
    (ha : a.allowedIps?.isSome) (hb : b.allowedIps?.isSome) : a.kind = b.kind := by
  have hkind {attr : WireguardPeerAttribute} (h : attr.allowedIps?.isSome) : attr.kind = 9 := by
    cases attr <;> first | rfl | simp [allowedIps?] at h
  rw [hkind ha, hkind hb]

namespace WireguardPeer

structure KindsOnce (peer : WireguardPeer) : Prop where
  attributes : (peer.attributes.map WireguardPeerAttribute.kind).Nodup
  allowedIps : ∀ ip ∈ peer.allowedIps, ip.KindsOnce

instance (peer : WireguardPeer) : Decidable peer.KindsOnce :=
  decidable_of_iff (_ ∧ _) ⟨fun h => ⟨h.1, h.2⟩, fun h => ⟨h.attributes, h.allowedIps⟩⟩

def Shuffled (peer other : WireguardPeer) : Prop :=
  Folds.Shuffled WireguardPeerAttribute.Shuffled peer.attributes other.attributes

theorem mem_allowedIps {peer : WireguardPeer} (hattr : attr ∈ peer.attributes)
    (hips : attr.allowedIps? = some ips) (hip : ip ∈ ips) : ip ∈ peer.allowedIps :=
  List.mem_flatten.mpr ⟨ips, List.mem_filterMap.mpr ⟨attr, hattr, hips⟩, hip⟩

end WireguardPeer

inductive WireguardAttribute.Shuffled : WireguardAttribute → WireguardAttribute → Prop
  | peers (h : List.Forall₂ WireguardPeer.Shuffled entries others) :
      Shuffled (.peers entries) (.peers others)
  | same (attr : WireguardAttribute) : Shuffled attr attr

theorem WireguardAttribute.kind_of_peers (a b : WireguardAttribute) (ha : a.peers?.isSome)
    (hb : b.peers?.isSome) : a.kind = b.kind := by
  have hkind {attr : WireguardAttribute} (h : attr.peers?.isSome) : attr.kind = 8 := by
    cases attr <;> first | rfl | simp [peers?] at h
  rw [hkind ha, hkind hb]

namespace WireguardMessage

structure KindsOnce (m : WireguardMessage) : Prop where
  attributes : (m.attributes.map WireguardAttribute.kind).Nodup
  rawPeers : ∀ peer ∈ m.rawPeers, peer.KindsOnce

instance (m : WireguardMessage) : Decidable m.KindsOnce :=
  decidable_of_iff (_ ∧ _) ⟨fun h => ⟨h.1, h.2⟩, fun h => ⟨h.attributes, h.rawPeers⟩⟩

/-- The same message, up to the order of attributes on all levels. -/
structure Shuffled (m other : WireguardMessage) : Prop where
  cmd : m.cmd = other.cmd
  attributes : Folds.Shuffled WireguardAttribute.Shuffled m.attributes other.attributes

theorem mem_rawPeers {m : WireguardMessage} (hattr : attr ∈ m.attributes)
    (hpeers : attr.peers? = some entries) (hpeer : peer ∈ entries) : peer ∈ m.rawPeers :=
  List.mem_flatten.mpr ⟨entries, List.mem_filterMap.mpr ⟨attr, hattr, hpeers⟩, hpeer⟩

end WireguardMessage

-- ---------------------------------------------------------------------------
-- Allowed IPs
-- ---------------------------------------------------------------------------

namespace WireguardIpAddress

theorem Parts.read_comm (parts : Parts) (a b : WireguardAllowedIpAttr) (h : a.kind ≠ b.kind) :
    (parts.read a).read b = (parts.read b).read a := by
  cases a <;> cases b <;> first | rfl | exact absurd rfl h

theorem tryFrom_shuffled (hkinds : ip.KindsOnce) (h : ip.Shuffled other) :
    tryFrom ip = tryFrom other := by
  have hparts : ip.attributes.foldl Parts.read {} = other.attributes.foldl Parts.read {} :=
    foldl_perm_of_kinds Parts.read_comm h hkinds {}
  rw [tryFrom, hparts, tryFrom]

theorem map_tryFrom_shuffled (h : List.Forall₂ WireguardAllowedIp.Shuffled ips others)
    (hkinds : ∀ ip ∈ ips, ip.KindsOnce) : ips.map tryFrom = others.map tryFrom :=
  map_congr (fun ip hip _ => tryFrom_shuffled (hkinds ip hip)) h

theorem foldl_read_ipAddr (parts : Parts) (attrs : List WireguardAllowedIpAttr) :
    (attrs.foldl Parts.read parts).ipAddr.isSome ↔
      parts.ipAddr.isSome ∨ ∃ addr, .ipAddr addr ∈ attrs := by
  induction attrs generalizing parts with
  | nil => simp
  | cons attr attrs ih => cases attr <;> simp [Parts.read, ih]

theorem foldl_read_prefixLength (parts : Parts) (attrs : List WireguardAllowedIpAttr) :
    (attrs.foldl Parts.read parts).prefixLength.isSome ↔
      parts.prefixLength.isSome ∨ ∃ prefixLength, .cidr prefixLength ∈ attrs := by
  induction attrs generalizing parts with
  | nil => simp
  | cons attr attrs ih => cases attr <;> simp [Parts.read, ih]

end WireguardIpAddress

namespace WireguardAllowedIp

/-- Reading a peer does not drop the allowed IP. -/
def kept (ip : WireguardAllowedIp) : Bool := (WireguardIpAddress.tryFrom ip).toOption.isSome

/-- There is an address and a prefix length. -/
def Complete (ip : WireguardAllowedIp) : Prop :=
  (∃ addr, .ipAddr addr ∈ ip.attributes) ∧ ∃ prefixLength, .cidr prefixLength ∈ ip.attributes

theorem kept_iff (ip : WireguardAllowedIp) : ip.kept ↔ ip.Complete := by
  have haddr := WireguardIpAddress.foldl_read_ipAddr {} ip.attributes
  have hlen := WireguardIpAddress.foldl_read_prefixLength {} ip.attributes
  simp only [Option.isSome_none, Bool.false_eq_true, false_or] at haddr hlen
  rw [Complete, ← haddr, ← hlen, kept, WireguardIpAddress.tryFrom]
  cases (ip.attributes.foldl WireguardIpAddress.Parts.read {}).ipAddr <;>
    cases (ip.attributes.foldl WireguardIpAddress.Parts.read {}).prefixLength <;>
    simp [Except.toOption]

instance (ip : WireguardAllowedIp) : Decidable ip.Complete := decidable_of_iff _ ip.kept_iff

end WireguardAllowedIp

/-- `ips` is what the complete ones of `raw` are read as, in their order. -/
def KeepsComplete (raw : List WireguardAllowedIp) (ips : List WireguardIpAddress) : Prop :=
  List.Forall₂ (fun ip parsed => WireguardIpAddress.tryFrom ip = .ok parsed)
    (raw.filter (·.Complete)) ips

theorem keepsComplete_readIps (raw : List WireguardAllowedIp) : KeepsComplete raw (readIps raw) := by
  induction raw with
  | nil => exact .nil
  | cons ip raw ih =>
    have hkept := ip.kept_iff
    cases htry : WireguardIpAddress.tryFrom ip with
    | ok parsed =>
      have hcomplete : ip.Complete := hkept.mp (by simp [WireguardAllowedIp.kept, htry, Except.toOption])
      have hread : readIps (ip :: raw) = parsed :: readIps raw := by
        simp [readIps, htry, Except.toOption]
      rw [KeepsComplete, List.filter_cons_of_pos (by simpa using hcomplete), hread]
      exact .cons htry ih
    | error e =>
      have hdropped : ¬ip.Complete := fun h => by
        simpa [WireguardAllowedIp.kept, htry, Except.toOption] using hkept.mpr h
      have hread : readIps (ip :: raw) = readIps raw := by simp [readIps, htry, Except.toOption]
      rw [KeepsComplete, List.filter_cons_of_neg (by simpa using hdropped), hread]
      exact ih

def rawIps (ms : List WireguardMessage) : List WireguardAllowedIp :=
  (ms.flatMap (·.rawPeers)).flatMap (·.allowedIps)

theorem WireguardPeer.allowedIps_shuffled {peer other : WireguardPeer} (hkinds : peer.KindsOnce)
    (h : peer.Shuffled other) :
    List.Forall₂ WireguardAllowedIp.Shuffled peer.allowedIps other.allowedIps := by
  refine List.rel_flatten (filterMap_shuffled WireguardPeerAttribute.kind_of_allowedIps
    (fun attr other h => ?_) h hkinds.attributes)
  cases h with
  | allowedIps h => exact .some h
  | same attr =>
    cases attr.allowedIps? with
    | none => exact .none
    | some ips => exact .some (List.forall₂_same.mpr fun ip _ => .refl ip.attributes)

theorem WireguardPeer.Shuffled.refl (peer : WireguardPeer) : peer.Shuffled peer :=
  ⟨peer.attributes, .refl _, List.forall₂_same.mpr fun attr _ => .same attr⟩

theorem WireguardMessage.rawPeers_shuffled {m other : WireguardMessage} (hkinds : m.KindsOnce)
    (h : m.Shuffled other) : List.Forall₂ WireguardPeer.Shuffled m.rawPeers other.rawPeers := by
  refine List.rel_flatten (filterMap_shuffled WireguardAttribute.kind_of_peers
    (fun attr other h => ?_) h.attributes hkinds.attributes)
  cases h with
  | peers h => exact .some h
  | same attr =>
    cases attr.peers? with
    | none => exact .none
    | some entries => exact .some (List.forall₂_same.mpr fun peer _ => .refl peer)

theorem WireguardAllowedIp.KindsOnce.shuffled {ip other : WireguardAllowedIp} (hkinds : ip.KindsOnce)
    (h : ip.Shuffled other) : other.KindsOnce :=
  (h.map _).nodup_iff.mp hkinds

theorem WireguardPeer.KindsOnce.shuffled {peer other : WireguardPeer} (hkinds : peer.KindsOnce)
    (h : peer.Shuffled other) : other.KindsOnce where
  attributes := Folds.Shuffled.kinds (fun _ _ hattr => by cases hattr <;> rfl) h hkinds.attributes
  allowedIps ip hip := by
    obtain ⟨raw, hraw, hshuffled⟩ :=
      exists_of_forall₂ (WireguardPeer.allowedIps_shuffled hkinds h).flip ip hip
    exact (hkinds.allowedIps raw hraw).shuffled hshuffled

theorem WireguardMessage.KindsOnce.shuffled {m other : WireguardMessage} (hkinds : m.KindsOnce)
    (h : m.Shuffled other) : other.KindsOnce where
  attributes := h.attributes.kinds (fun _ _ hattr => by cases hattr <;> rfl) hkinds.attributes
  rawPeers peer hpeer := by
    obtain ⟨raw, hraw, hshuffled⟩ :=
      exists_of_forall₂ (WireguardMessage.rawPeers_shuffled hkinds h).flip peer hpeer
    exact (hkinds.rawPeers raw hraw).shuffled hshuffled

theorem rawIps_shuffled (h : List.Forall₂ WireguardMessage.Shuffled ms others)
    (hkinds : ∀ m ∈ ms, m.KindsOnce) :
    List.Forall₂ WireguardAllowedIp.Shuffled (rawIps ms) (rawIps others) := by
  induction h with
  | nil => exact .nil
  | @cons m other ms others hm _ ih =>
    obtain ⟨hfirst, hrest⟩ := List.forall_mem_cons.mp hkinds
    have hpeers := (List.forall₂_and_left _ _).mpr
      ⟨hfirst.rawPeers, WireguardMessage.rawPeers_shuffled hfirst hm⟩
    have hips : List.Forall₂ WireguardAllowedIp.Shuffled
        (m.rawPeers.flatMap (·.allowedIps)) (other.rawPeers.flatMap (·.allowedIps)) :=
      List.rel_flatMap hpeers fun _ _ hpeer => WireguardPeer.allowedIps_shuffled hpeer.1 hpeer.2
    simp only [rawIps, List.flatMap_cons, List.flatMap_append]
    exact List.rel_append hips (ih hrest)

-- ---------------------------------------------------------------------------
-- Peers
-- ---------------------------------------------------------------------------

variable [Base64.Engine]

omit [Base64.Engine] in
theorem readIps_shuffled (h : List.Forall₂ WireguardAllowedIp.Shuffled ips others)
    (hkinds : ∀ ip ∈ ips, ip.KindsOnce) : readIps ips = readIps others := by
  have hread (ips : List WireguardAllowedIp) :
      readIps ips = (ips.map WireguardIpAddress.tryFrom).filterMap Except.toOption := by
    rw [List.filterMap_map]
    rfl
  rw [hread, WireguardIpAddress.map_tryFrom_shuffled h hkinds, hread]

namespace WireguardPeerParsed

theorem read_shuffled (ret : WireguardPeerParsed) (h : attr.Shuffled other)
    (hkinds : ∀ ips, attr.allowedIps? = some ips → ∀ ip ∈ ips, ip.KindsOnce) :
    ret.read attr = ret.read other := by
  cases h with
  | same => rfl
  | @allowedIps ips others h =>
    have hips : readIps ips = readIps others := readIps_shuffled h (hkinds ips rfl)
    exact congrArg (fun ips => { ret with allowedIps := some ips }) hips

theorem ofPeer_shuffled {peer other : WireguardPeer} (hkinds : peer.KindsOnce)
    (h : peer.Shuffled other) : ofPeer peer = ofPeer other :=
  foldl_shuffled read_comm
    (fun _ hattr _ h ret => ret.read_shuffled h fun _ hips ip hip =>
      hkinds.allowedIps ip (peer.mem_allowedIps hattr hips hip))
    h hkinds.attributes {}

/-- Reading a peer keeps what can be read of its allowed IPs. -/
theorem ofPeer_ips {peer : WireguardPeer}
    (hkinds : (peer.attributes.map WireguardPeerAttribute.kind).Nodup) :
    (ofPeer peer).allowedIps.getD [] = readIps peer.allowedIps := by
  have hlast : (ofPeer peer).allowedIps.getD [] =
      (peer.attributes.filterMap fun attr => attr.allowedIps?.map readIps).getLastD [] := by
    refine foldl_last (fun ret : WireguardPeerParsed => ret.allowedIps.getD []) _
      (fun ret attr ips hips => ?_) (fun ret attr hnone => ?_) {} peer.attributes
    · obtain ⟨raw, hraw, rfl⟩ := Option.map_eq_some_iff.mp hips
      cases attr with
      | allowedIps ips =>
        cases hraw
        rfl
      | _ => exact nomatch hraw
    · exact congrArg (·.getD []) (ret.read_allowedIps (Option.map_eq_none_iff.mp hnone))
  have honce := filterMap_once WireguardPeerAttribute.kind_of_allowedIps hkinds
  rw [hlast, ← List.map_filterMap, WireguardPeer.allowedIps, readIps_flatten]
  exact getLastD_once (honce.map _ fun _ _ h => h)

theorem flatMap_ofPeer_ips {entries : List WireguardPeer} (hkinds : ∀ peer ∈ entries, peer.KindsOnce) :
    (entries.map ofPeer).flatMap (·.allowedIps.getD []) = readIps (entries.flatMap (·.allowedIps)) := by
  induction entries with
  | nil => rfl
  | cons peer entries ih =>
    obtain ⟨hpeer, hentries⟩ := List.forall_mem_cons.mp hkinds
    rw [List.map_cons, List.flatMap_cons, ih hentries, ofPeer_ips hpeer.attributes, List.flatMap_cons,
      readIps_append]

theorem map_ofPeer_shuffled (h : List.Forall₂ WireguardPeer.Shuffled entries others)
    (hkinds : ∀ peer ∈ entries, peer.KindsOnce) : entries.map ofPeer = others.map ofPeer :=
  map_congr (fun peer hpeer _ => ofPeer_shuffled (hkinds peer hpeer)) h

end WireguardPeerParsed

-- ---------------------------------------------------------------------------
-- Messages
-- ---------------------------------------------------------------------------

namespace WireguardParsed

theorem read_shuffled (ret : WireguardParsed) (h : attr.Shuffled other)
    (hkinds : ∀ entries, attr.peers? = some entries → ∀ peer ∈ entries, peer.KindsOnce) :
    ret.read attr = ret.read other := by
  cases h with
  | same => rfl
  | @peers entries others h =>
    rw [read_peers, read_peers, readPeers, readPeers,
      WireguardPeerParsed.map_ofPeer_shuffled h (hkinds entries rfl)]

theorem readSingle_shuffled (ret : WireguardParsed) (h : attr.Shuffled other)
    (hkinds : ∀ entries, attr.peers? = some entries → ∀ peer ∈ entries, peer.KindsOnce) :
    ret.readSingle attr = ret.readSingle other := by
  cases h with
  | same => rfl
  | @peers entries others h =>
    rw [readSingle, readSingle, WireguardPeerParsed.map_ofPeer_shuffled h (hkinds entries rfl)]

theorem ofMessage_peers (hkinds : (m.attributes.map WireguardAttribute.kind).Nodup) :
    (ofMessage m).peers.getD [] = m.rawPeers.map .ofPeer := by
  have hlast : (ofMessage m).peers.getD [] =
      (m.attributes.filterMap fun attr => attr.peers?.map (List.map .ofPeer)).getLastD [] := by
    refine foldl_last (fun ret : WireguardParsed => ret.peers.getD []) _
      (fun ret attr peers hpeers => ?_) (fun ret attr hnone => ?_) {} m.attributes
    · obtain ⟨entries, hentries, rfl⟩ := Option.map_eq_some_iff.mp hpeers
      cases attr with
      | peers entries =>
        cases hentries
        rfl
      | _ => exact nomatch hentries
    · have hentries := Option.map_eq_none_iff.mp hnone
      cases attr with
      | peers entries => exact nomatch hentries
      | _ => rfl
  have honce := filterMap_once WireguardAttribute.kind_of_peers hkinds
  rw [hlast, ← List.map_filterMap, WireguardMessage.rawPeers, List.map_flatten]
  exact getLastD_once (honce.map _ fun _ _ h => h)

theorem readMessage_shuffled (ret : WireguardParsed) (hkinds : m.KindsOnce) (h : m.Shuffled other) :
    ret.readMessage m = ret.readMessage other :=
  foldl_shuffled read_comm
    (fun _ hattr _ h ret => ret.read_shuffled h fun _ hpeers peer hpeer =>
      hkinds.rawPeers peer (m.mem_rawPeers hattr hpeers hpeer))
    h.attributes hkinds.attributes ret

theorem ofMessage_shuffled (hkinds : m.KindsOnce) (h : m.Shuffled other) :
    ofMessage m = ofMessage other :=
  foldl_shuffled readSingle_comm
    (fun _ hattr _ h ret => ret.readSingle_shuffled h fun _ hpeers peer hpeer =>
      hkinds.rawPeers peer (m.mem_rawPeers hattr hpeers hpeer))
    h.attributes hkinds.attributes {}

omit [Base64.Engine] in
theorem mem_rawIps_kindsOnce (hkinds : ∀ m ∈ ms, m.KindsOnce) (hip : ip ∈ rawIps ms) :
    ip.KindsOnce := by
  obtain ⟨peer, hpeer, hip⟩ := List.mem_flatMap.mp hip
  obtain ⟨m, hm, hpeer⟩ := List.mem_flatMap.mp hpeer
  exact ((hkinds m hm).rawPeers peer hpeer).allowedIps ip hip

/-- All allowed IPs of a configuration. -/
def allIps (c : WireguardParsed) : List WireguardIpAddress :=
  (c.peers.getD []).flatMap (·.allowedIps.getD [])

/-- All conversions of the messages keep their complete allowed IPs, and no others. -/
structure KeepComplete (ms : List WireguardMessage) : Prop where
  peers : ∀ m ∈ ms, ∀ peer ∈ m.rawPeers,
    KeepsComplete peer.allowedIps ((WireguardPeerParsed.ofPeer peer).allowedIps.getD [])
  single : ∀ m ∈ ms, KeepsComplete (m.rawPeers.flatMap (·.allowedIps)) (ofMessage m).allIps
  whole : KeepsComplete (rawIps ms) (ofMessages ms).allIps

theorem keepComplete (hkinds : ∀ m ∈ ms, m.KindsOnce) : KeepComplete ms where
  peers m hm peer hpeer := by
    rw [WireguardPeerParsed.ofPeer_ips ((hkinds m hm).rawPeers peer hpeer).attributes]
    exact keepsComplete_readIps _
  single m hm := by
    rw [allIps, ofMessage_peers (hkinds m hm).attributes,
      WireguardPeerParsed.flatMap_ofPeer_ips (hkinds m hm).rawPeers]
    exact keepsComplete_readIps _
  whole := by
    rw [allIps, ofMessages_peers, WireguardPeerParsed.merging.flatMap_coalesce
      fun a b _ => WireguardPeerParsed.allowedIps_merge a b]
    rw [rawPeers, WireguardPeerParsed.flatMap_ofPeer_ips fun peer hpeer => ?_]
    · exact keepsComplete_readIps _
    · obtain ⟨m, hm, hpeer⟩ := List.mem_flatMap.mp hpeer
      exact (hkinds m hm).rawPeers peer hpeer

/-- Both lists of messages are read alike, as a whole and one by one, and the
same allowed IPs are kept: the complete ones. -/
structure ReadAlike (ms others : List WireguardMessage) : Prop where
  whole : ofMessages ms = ofMessages others
  single : ms.map ofMessage = others.map ofMessage
  kept : (rawIps ms).map (·.kept) = (rawIps others).map (·.kept)
  complete : ∀ ip ∈ rawIps ms ++ rawIps others, ip.kept ↔ ip.Complete
  keeps : KeepComplete ms
  othersKeep : KeepComplete others

/-- The order of attributes does not matter. -/
theorem ofMessages_shuffled (hkinds : ∀ m ∈ ms, m.KindsOnce)
    (h : List.Forall₂ WireguardMessage.Shuffled ms others) : ReadAlike ms others where
  whole := foldl_congr (fun m hm _ h ret => readMessage_shuffled ret (hkinds m hm) h) h {}
  single := map_congr (fun m hm _ => ofMessage_shuffled (hkinds m hm)) h
  kept := by
    refine map_congr (fun ip hip other h => ?_) (rawIps_shuffled h hkinds)
    have htry := WireguardIpAddress.tryFrom_shuffled (mem_rawIps_kindsOnce hkinds hip) h
    rw [WireguardAllowedIp.kept, htry, WireguardAllowedIp.kept]
  complete ip _ := ip.kept_iff
  keeps := keepComplete hkinds
  othersKeep := keepComplete fun other hother => by
    obtain ⟨m, hm, hshuffled⟩ := exists_of_forall₂ h.flip other hother
    exact (hkinds m hm).shuffled hshuffled

/-- `sampleReplies` with its attributes in another order. -/
def shuffledReplies : List WireguardMessage :=
  [⟨.getDevice, [.ifName "wg0",
    .peers [⟨[.rxBytes 3, .allowedIps [⟨[.cidr 24, .family .ipv4, .ipAddr (.v4 0x0a000000)]⟩],
      .publicKey .zero]⟩], .ifIndex 7]⟩,
   ⟨.getDevice,
    [.peers [⟨[.allowedIps [sampleNetwork 0x0a000100], .publicKey .zero]⟩, ⟨[.publicKey sampleKey]⟩]]⟩]

omit [Base64.Engine] in
theorem shuffled_sample : List.Forall₂ WireguardMessage.Shuffled sampleReplies shuffledReplies := by
  have hip : (sampleNetwork 0x0a000000).Shuffled
      ⟨[.cidr 24, .family .ipv4, .ipAddr (.v4 0x0a000000)]⟩ := by
    unfold WireguardAllowedIp.Shuffled
    decide +kernel
  have hfirst : WireguardPeer.Shuffled
      ⟨[.publicKey .zero, .rxBytes 3, .allowedIps [sampleNetwork 0x0a000000]]⟩
      ⟨[.rxBytes 3, .allowedIps [⟨[.cidr 24, .family .ipv4, .ipAddr (.v4 0x0a000000)]⟩],
        .publicKey .zero]⟩ :=
    ⟨[.rxBytes 3, .allowedIps [sampleNetwork 0x0a000000], .publicKey .zero], by decide +kernel,
      .cons (.same _) (.cons (.allowedIps (.cons hip .nil)) (.cons (.same _) .nil))⟩
  have hsecond : WireguardPeer.Shuffled
      ⟨[.publicKey .zero, .allowedIps [sampleNetwork 0x0a000100]]⟩
      ⟨[.allowedIps [sampleNetwork 0x0a000100], .publicKey .zero]⟩ :=
    ⟨_, by decide +kernel, List.forall₂_same.mpr fun attr _ => .same attr⟩
  have hdevice : Folds.Shuffled WireguardAttribute.Shuffled
      [.ifIndex 7, .ifName "wg0",
        .peers [⟨[.publicKey .zero, .rxBytes 3, .allowedIps [sampleNetwork 0x0a000000]]⟩]] _ :=
    ⟨[.ifName "wg0", .peers _, .ifIndex 7], by decide +kernel,
      .cons (.same _) (.cons (.peers (.cons hfirst .nil)) (.cons (.same _) .nil))⟩
  refine .cons ⟨rfl, hdevice⟩ (.cons ⟨rfl, _, .refl _, .cons ?_ .nil⟩ .nil)
  exact .peers (.cons hsecond (.cons (.refl _) .nil))

omit [Base64.Engine] in
theorem ofMessages_shuffled_sample : @ReadAlike Base64.standard sampleReplies shuffledReplies :=
  @ofMessages_shuffled Base64.standard _ _ (by decide +kernel) shuffled_sample

end WireguardParsed

end NlWireguard
