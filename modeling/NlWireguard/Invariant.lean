import Mathlib.Logic.Relation
import NlWireguard.Changes
import NlWireguard.Lib.Prefixes
import NlWireguard.Reapply

/-!
# What holds of a device at all times

Every network of a device belongs to one of its peers and is one the kernel
would report, whatever was configured before, in which order the messages of
several configurations arrived, and however many of them were given up in the
middle.
-/

namespace NlWireguard

open Prefixes

variable {K : Kernel} {D E : Device} {peer : WireguardPeer}

-- ---------------------------------------------------------------------------
-- Networks belong to peers
-- ---------------------------------------------------------------------------

/-- The peer which gets the allowed IP is there. -/
def Change.Grounded (D : Device) : Change → Prop
  | allowedIp key _ => (D.peers key).isSome
  | _ => True

theorem change_owned (h : D.Owned) (c : Change) (hground : c.Grounded D) : (K.change D c).Owned := by
  intro net key howner
  rw [owner_change] at howner
  rw [peers_change]
  cases c with
  | removePeers => exact nomatch howner
  | removePeer k =>
    obtain ⟨hne, hkey⟩ : D.owner net ≠ some k ∧ D.owner net = some key := by
      simpa [Change.onNetwork] using howner
    have hk : k ≠ key := fun heq => hne (heq ▸ hkey)
    rw [Change.onPeer, if_neg hk]
    exact h net key hkey
  | peerAttribute k attr =>
    by_cases hk : k = key
    · simp [Change.onPeer, hk]
    · rw [Change.onPeer, if_neg hk]
      exact h net key howner
  | releaseIps k =>
    obtain ⟨-, hkey⟩ : D.owner net ≠ some k ∧ D.owner net = some key := by
      simpa [Change.onNetwork] using howner
    exact h net key hkey
  | allowedIp k ip =>
    have hcases : D.owner net = some key ∨ k = key := by
      grind [Change.onNetwork]
    rcases hcases with hkey | rfl
    · exact h net key hkey
    · exact hground
  | deviceAttribute attr => exact h net key howner

/-- The changes of an entry create the peer before they give it networks. -/
theorem changes_owned (h : D.Owned) (hattrs : peer.attributes ≠ []) (key : Key) :
    Throughout Device.Owned K.change D (peer.changes key) := by
  unfold WireguardPeer.changes
  split
  · refine throughout_of_step h fun E c hc hE => change_owned hE c ?_
    obtain rfl := List.mem_singleton.mp hc
    trivial
  · have hcreate : Throughout Device.Owned K.change D
        (peer.attributes.map (Change.peerAttribute key)) := by
      refine throughout_of_step h fun E c hc hE => change_owned hE c ?_
      obtain ⟨attr, -, rfl⟩ := List.mem_map.mp hc
      trivial
    have hpresent : (((peer.attributes.map (Change.peerAttribute key)).foldl K.change D).peers
        key).isSome := by
      rw [foldl_peerAttribute K D key _ rfl hattrs]
      simp
    rw [List.append_assoc, throughout_append]
    refine ⟨hcreate, Throughout.imp (P := fun E => E.Owned ∧ (E.peers key).isSome)
      (throughout_of_step ⟨hcreate.last, hpresent⟩ fun E c hc hE => ?_) fun _ hE => hE.1⟩
    rcases List.mem_append.mp hc with hrelease | hip
    · obtain rfl : c = .releaseIps key := by
        split at hrelease <;> simp_all
      exact ⟨change_owned hE.1 _ trivial, hE.2⟩
    · obtain ⟨ip, -, rfl⟩ := List.mem_map.mp hip
      exact ⟨change_owned hE.1 _ hE.2, hE.2⟩

theorem entryChanges_owned (h : D.Owned) (peer : WireguardPeer) :
    Throughout Device.Owned K.change D (D.entryChanges peer) := by
  cases hkey : peer.publicKey? with
  | none => exact throughout_of_step h fun E c hc _ => by simp [Device.entryChanges, hkey] at hc
  | some key =>
    rw [entryChanges_key hkey]
    split
    · exact throughout_nil.mpr h
    · exact changes_owned h (List.ne_nil_of_mem (peer.publicKey_mem hkey)) key

theorem entriesChanges_owned (h : D.Owned) (peers : List WireguardPeer) :
    Throughout Device.Owned K.change D (K.entriesChanges D peers) := by
  induction peers generalizing D with
  | nil => exact throughout_nil.mpr h
  | cons peer peers ih =>
    have hpeer : Throughout Device.Owned K.change D (D.entryChanges peer) := entryChanges_owned h peer
    rw [Kernel.entriesChanges, throughout_append, ← setPeer_changes]
    exact ⟨hpeer, ih (setPeer_changes K D peer ▸ hpeer.last)⟩

theorem attributeChanges_owned (h : D.Owned) (attrs : List WireguardAttribute) :
    Throughout Device.Owned K.change D (attributeChanges attrs) := by
  refine throughout_of_step h fun E c hc hE => change_owned hE c ?_
  rcases mem_attributeChanges.mp hc with ⟨-, rfl⟩ | ⟨attr, -, rfl⟩
  · trivial
  · trivial

/-- A message leaves no network without its peer, not even if it is given up. -/
theorem setDevice_owned (h : D.Owned) (m : WireguardMessage) :
    Throughout Device.Owned K.change D (K.changes D m) := by
  unfold Kernel.changes
  split
  · have hattrs : Throughout Device.Owned K.change D (attributeChanges m.attributes) :=
      attributeChanges_owned h m.attributes
    rw [throughout_append, ← setAttributes_changes]
    exact ⟨hattrs, entriesChanges_owned (setAttributes_changes K D m.attributes ▸ hattrs.last) _⟩
  · exact throughout_nil.mpr h

-- ---------------------------------------------------------------------------
-- Networks can be reported
-- ---------------------------------------------------------------------------

/-- Cutting an address to its network twice is cutting it once, and leaves the
family. -/
structure Kernel.Lawful (K : Kernel) : Prop where
  network_idem : ∀ addr len, K.network (K.network addr len) len = K.network addr len
  isIpv4_network : ∀ addr len, (K.network addr len).isIpv4 = addr.isIpv4

theorem Kernel.lawful_sample : Kernel.sample.Lawful where
  network_idem addr len := by
    cases addr <;> simp [sample, IpAddr.mask, BitVec.and_assoc]
  isIpv4_network addr len := by cases addr <;> rfl

def WireguardAllowedIp.InRange (ip : WireguardAllowedIp) : Prop :=
  ∀ addr len, ip.attributes.findSome? (·.ipAddr?) = some addr →
    ip.attributes.findSome? (·.cidr?) = some len → len ≤ if addr.isIpv4 then 32 else 128

def WireguardMessage.InRange (m : WireguardMessage) : Prop :=
  ∀ peer ∈ m.rawPeers, ∀ ip ∈ peer.allowedIps, ip.InRange

def Change.InRange : Change → Prop
  | allowedIp _ ip => ip.InRange
  | _ => True

theorem change_owner_cases (h : (K.change D c).owner net = some key) :
    D.owner net = some key ∨
      ∃ ip, c = .allowedIp key ip ∧ K.network? ip = some net ∧ ¬ip.Removes := by
  rw [owner_change] at h
  cases c with
  | allowedIp k ip =>
    by_cases hnet : K.network? ip = some net
    · rw [Change.onNetwork, if_pos hnet] at h
      by_cases hr : ip.Removes
      · grind
      · rw [if_neg hr] at h
        cases h
        exact .inr ⟨ip, rfl, hnet, hr⟩
    · rw [Change.onNetwork, if_neg hnet] at h
      exact .inl h
  | _ => grind [Change.onNetwork]

theorem network?_some {ip : WireguardAllowedIp} (h : K.network? ip = some net) :
    ∃ addr, ip.attributes.findSome? (·.ipAddr?) = some addr ∧
      ip.attributes.findSome? (·.cidr?) = some net.2 ∧ net.1 = K.network addr net.2 := by
  unfold Kernel.network? at h
  split at h
  · cases h
    exact ⟨_, ‹_›, ‹_›, rfl⟩
  · exact nomatch h

theorem change_valid (hK : K.Lawful) (h : D.Valid K) (c : Change) (hrange : c.InRange) :
    (K.change D c).Valid K := by
  have hname : (K.change D c).ifName = D.ifName := by
    cases c with
    | deviceAttribute attr => cases attr <;> rfl
    | _ => rfl
  refine ⟨hname ▸ h.ifName_length, hname ▸ h.ifName_nul, fun net key hnet => ?_,
    fun net key hnet => ?_⟩
  · rcases change_owner_cases hnet with hold | ⟨ip, rfl, hip, -⟩
    · exact h.prefixLength net key hold
    · obtain ⟨addr, haddr, hlen, hnet⟩ := network?_some hip
      rw [hnet, hK.isIpv4_network]
      exact hrange addr net.2 haddr hlen
  · rcases change_owner_cases hnet with hold | ⟨ip, rfl, hip, -⟩
    · exact h.network net key hold
    · obtain ⟨addr, -, -, hnet⟩ := network?_some hip
      rw [hnet, hK.network_idem]

theorem mem_changes (h : .allowedIp key ip ∈ WireguardPeer.changes peer k) : ip ∈ peer.allowedIps := by
  unfold WireguardPeer.changes at h
  split at h
  · simp at h
  · split at h <;> simp at h <;> exact h.1

theorem mem_entriesChanges (h : .allowedIp key ip ∈ K.entriesChanges D peers) :
    ∃ peer ∈ peers, ip ∈ peer.allowedIps := by
  induction peers generalizing D with
  | nil => simp [Kernel.entriesChanges] at h
  | cons peer peers ih =>
    rw [Kernel.entriesChanges, List.mem_append] at h
    rcases h with h | h
    · refine ⟨peer, by simp, ?_⟩
      unfold Device.entryChanges at h
      split at h
      · simp at h
      · split at h
        · simp at h
        · exact mem_changes h
    · obtain ⟨other, hother, hip⟩ := ih h
      exact ⟨other, List.mem_cons_of_mem _ hother, hip⟩

theorem changes_inRange {m : WireguardMessage} (hm : m.InRange) : ∀ c ∈ K.changes D m, c.InRange := by
  intro c hc
  cases c with
  | allowedIp key ip =>
    unfold Kernel.changes at hc
    split at hc
    · rcases List.mem_append.mp hc with hattr | hentry
      · rcases mem_attributeChanges.mp hattr with ⟨-, h⟩ | ⟨attr, -, h⟩ <;> exact nomatch h
      · obtain ⟨peer, hpeer, hip⟩ := mem_entriesChanges hentry
        exact hm peer hpeer ip hip
    · simp at hc
  | _ => trivial

theorem setDevice_valid (hK : K.Lawful) (h : D.Valid K) {m : WireguardMessage} (hm : m.InRange) :
    Throughout (Device.Valid K) K.change D (K.changes D m) :=
  throughout_of_step h fun _ c hc hE => change_valid hK hE c (changes_inRange hm c hc)

-- ---------------------------------------------------------------------------
-- Messages of configurations
-- ---------------------------------------------------------------------------

variable [Base64.Engine]

namespace WireguardParsed

variable {c : WireguardParsed}

omit [Base64.Engine] in
theorem flatMap_rawPeers (ms : List WireguardMessage) :
    ms.flatMap (·.rawPeers) = (sent WireguardAttribute.peers? ms).flatten := by
  induction ms with
  | nil => rfl
  | cons m ms ih =>
    rw [List.flatMap_cons, ih]
    simp [sent, WireguardMessage.rawPeers]

theorem Plan.flatMap_rawPeers (plan : c.Plan) (cmd : WireguardCmd) :
    (plan.messages cmd).flatMap (·.rawPeers) = plan.chunks :=
  (WireguardParsed.flatMap_rawPeers _).trans plan.sent_peers

end WireguardParsed

namespace WireguardPeerParsed

omit [Base64.Engine] in
theorem allowedIps_bare (p : WireguardPeerParsed) (keys : Keys) : (p.bare keys).allowedIps = [] := by
  simp [WireguardPeer.allowedIps, bare, stateAttributes, attributesBefore, attributesAfter,
    filterMap_emit, WireguardPeerAttribute.allowedIps?]

/-- The allowed IPs of all chunks are the ones of the peer. -/
theorem Checked.allowedIps_chunks (e : Checked) :
    e.chunks.flatMap (·.allowedIps) =
      if e.peer.Removes then []
      else (e.peer.allowedIps.getD []).map WireguardIpAddress.toAllowedIp := by
  rcases e.chunks_cases with ⟨hbare, h⟩ | ⟨ips, first, rest, hips, hkept, h, hall, -⟩
  · have hnone : (if e.peer.Removes then []
        else (e.peer.allowedIps.getD []).map WireguardIpAddress.toAllowedIp) = [] := by
      rcases hbare with hnone | hr <;> simp_all
    rw [h, hnone, List.flatMap_singleton]
    exact allowedIps_bare e.peer e.keys
  · have hfirst : (e.peer.firstChunk e.keys first).allowedIps = first := by
      have hmore := (extends_firstChunk e.peer e.keys Kernel.sample first).allowedIps
      rwa [allowedIps_bare, List.nil_append] at hmore
    have hrest (batch : List WireguardAllowedIp) :
        (continuationChunk e.keys batch).allowedIps = batch := by
      simp [WireguardPeer.allowedIps, continuationChunk, WireguardPeerAttribute.allowedIps?]
    rw [h, if_neg hkept, hips, Option.getD_some, ← hall, List.flatMap_cons, hfirst, List.flatMap_map]
    simp [hrest]

end WireguardPeerParsed

omit [Base64.Engine] in
theorem WireguardIpAddress.inRange_toAllowedIp {ip : WireguardIpAddress} (h : ip.Valid) :
    ip.toAllowedIp.InRange := by
  intro addr len haddr hlen
  obtain ⟨rfl, rfl⟩ : ip.ipAddr = addr ∧ ip.prefixLength = len := by
    simpa [toAllowedIp, WireguardAllowedIpAttr.ipAddr?, WireguardAllowedIpAttr.cidr?] using
      And.intro haddr hlen
  exact h

namespace WireguardParsed

variable {c : WireguardParsed}

theorem inRange_of_buildMessages (h : c.buildMessages cmd = .ok ms) (hm : m ∈ ms) : m.InRange := by
  obtain ⟨plan, rfl⟩ := buildMessages_plan.mp h
  intro chunk hchunk ip hip
  have hmem : chunk ∈ plan.chunks := by
    rw [← plan.flatMap_rawPeers cmd]
    exact List.mem_flatMap.mpr ⟨m, hm, hchunk⟩
  obtain ⟨group, hgroup, hmem⟩ := List.mem_flatten.mp hmem
  obtain ⟨e, -, rfl⟩ := List.mem_map.mp hgroup
  have hip : ip ∈ e.chunks.flatMap (·.allowedIps) := List.mem_flatMap.mpr ⟨chunk, hmem, hip⟩
  rw [e.allowedIps_chunks] at hip
  split at hip
  · simp at hip
  · obtain ⟨parsed, hparsed, rfl⟩ := List.mem_map.mp hip
    exact WireguardIpAddress.inRange_toAllowedIp (e.accepted.allowedIps parsed hparsed)

end WireguardParsed

-- ---------------------------------------------------------------------------
-- All that can happen to a device
-- ---------------------------------------------------------------------------

structure Device.Sound (K : Kernel) (D : Device) : Prop extends D.Valid K where
  owned : D.Owned

/-- A message of some configuration arrives. -/
def Kernel.Step (K : Kernel) (D E : Device) : Prop :=
  ∃ (c : WireguardParsed) (ms : List WireguardMessage) (m : WireguardMessage),
    c.buildMessages .setDevice = .ok ms ∧ m ∈ ms ∧ K.AppliesPart D m E

theorem step_sound (hK : K.Lawful) (h : D.Sound K) (hstep : K.Step D E) : E.Sound K := by
  obtain ⟨c, ms, m, hms, hm, cs, hcs, rfl⟩ := hstep
  have hvalid : (cs.foldl K.change D).Valid K :=
    setDevice_valid hK h.toValid (WireguardParsed.inRange_of_buildMessages hms hm) cs hcs
  exact { hvalid with owned := setDevice_owned h.owned m cs hcs }

/-- Whatever configurations a device was sent, in whichever order their messages
arrived and however many were given up, its networks belong to its peers and
can be reported. -/
theorem sound_of_steps (hK : K.Lawful) (h : D.Sound K) (hsteps : Relation.ReflTransGen K.Step D E) :
    E.Sound K := by
  induction hsteps with
  | refl => exact h
  | tail _ hstep ih => exact step_sound hK ih hstep

omit [Base64.Engine] in
theorem sound_sample : WireguardParsed.sampleDevice.Sound .sample where
  toValid := WireguardParsed.valid_sample
  owned net key h := by
    obtain ⟨-, hkey⟩ := ite_eq_iff.mp h |>.resolve_right fun h => nomatch h.2
    cases hkey
    rfl

omit [Base64.Engine] in
theorem built_sample : @WireguardParsed.buildMessages Base64.standard
    (@WireguardParsed.sample Base64.standard) .setDevice = .ok WireguardParsed.sampleMessages := by
  decide +kernel

omit [Base64.Engine] in
theorem step_sample : @Kernel.Step Base64.standard Kernel.sample WireguardParsed.sampleDevice
    (WireguardParsed.sampleMessages.foldl Kernel.sample.setDevice WireguardParsed.sampleDevice) := by
  refine ⟨_, _, _, built_sample, List.mem_singleton_self _, _, List.prefix_refl _, ?_⟩
  rw [WireguardParsed.sampleMessages, List.foldl_cons, List.foldl_nil, setDevice_changes]

omit [Base64.Engine] in
theorem sound_of_steps_sample : (WireguardParsed.sampleMessages.foldl Kernel.sample.setDevice
    WireguardParsed.sampleDevice).Sound .sample :=
  letI := Base64.standard
  sound_of_steps Kernel.lawful_sample sound_sample (.single step_sample)

end NlWireguard
