import NlWireguard.Invariant
import NlWireguard.Lengths

/-!
# How many messages are sent

The chunks of a configuration are sent in as few messages as their order
allows, and in at most twice as many as they could be sent in any order.
-/

namespace NlWireguard

-- ---------------------------------------------------------------------------
-- Other messages
-- ---------------------------------------------------------------------------

namespace WireguardMessage

/-- The bytes of the peers of a message. -/
def peersLen (m : WireguardMessage) : Nat := NextFit.total bufferLen m.rawPeers

/-- The peers of the message and the first one of the next message are too long
for one message. -/
def Full (m next : WireguardMessage) : Prop :=
  ∃ peer, next.rawPeers.head? = some peer ∧ maxNlaValueLen < m.peersLen + bufferLen peer

end WireguardMessage

theorem total_flatMap (ms : List WireguardMessage) (h : ∀ m ∈ ms, m.peersLen ≤ maxNlaValueLen) :
    NextFit.total bufferLen (ms.flatMap (·.rawPeers)) ≤ ms.length * maxNlaValueLen := by
  induction ms with
  | nil => simp
  | cons m ms ih =>
    obtain ⟨hm, hms⟩ := List.forall_mem_cons.mp h
    have hrest := ih hms
    rw [List.flatMap_cons, NextFit.total_append, List.length_cons, Nat.succ_mul]
    unfold WireguardMessage.peersLen at hm
    omega

-- ---------------------------------------------------------------------------
-- Messages as bins
-- ---------------------------------------------------------------------------

variable [Base64.Engine]

namespace WireguardParsed

/-- The messages hold the chunks of the configuration in order. No other messages
for them are fewer, unless in another order, and then by half at most. -/
structure FewMessages (c : WireguardParsed) (ms : List WireguardMessage) : Prop where
  chunks : ∃ groups, (c.peers.getD []).mapM peerChunks = .ok groups ∧
    ms.flatMap (·.rawPeers) = groups.flatten
  fits : ∀ m ∈ ms, m.peersLen ≤ maxNlaValueLen
  full : ms.IsChain WireguardMessage.Full
  ordered : ∀ other : List WireguardMessage, other ≠ [] → (∀ m ∈ other, m.peersLen ≤ maxNlaValueLen) →
    other.flatMap (·.rawPeers) = ms.flatMap (·.rawPeers) → ms.length ≤ other.length
  unordered : ∀ other : List WireguardMessage, other ≠ [] →
    (∀ m ∈ other, m.peersLen ≤ maxNlaValueLen) →
    (other.flatMap (·.rawPeers)).Perm (ms.flatMap (·.rawPeers)) → ms.length ≤ 2 * other.length

variable {c : WireguardParsed}

/-- The messages hold the chunks of all peers. -/
theorem Plan.exists_groups (plan : c.Plan) (cmd : WireguardCmd) :
    ∃ groups, (c.peers.getD []).mapM peerChunks = .ok groups ∧
      (plan.messages cmd).flatMap (·.rawPeers) = groups.flatten :=
  ⟨_, WireguardPeerParsed.mapM_peerChunks_ok.mpr ⟨plan.entries, plan.peers_eq, rfl⟩,
    plan.flatMap_rawPeers cmd⟩

theorem Plan.map_rawPeers (plan : c.Plan) (cmd : WireguardCmd) :
    (plan.messages cmd).map (·.rawPeers) = bins plan.chunks := by
  obtain ⟨first, rest, hbins, -, hchunks⟩ := plan.exists_bins
  have hiface : plan.iface.peers? = none := plan.iface_none _ (fun _ => rfl) (fun _ => rfl)
  have hfirst : (emit c.peers fun _ => WireguardAttribute.peers first).filterMap
      WireguardAttribute.peers? = c.peers.toList.map fun _ => first := by
    cases c.peers <;> rfl
  have hhead : (c.peers.toList.map fun _ => first).flatten = first := by
    cases hc : c.peers with
    | none => exact (List.append_eq_nil_iff.mp (hchunks.trans (plan.chunks_eq_nil hc))).1.symm
    | some peers => simp
  have hrest (bin : List WireguardPeer) :
      WireguardMessage.rawPeers ⟨cmd, [plan.iface, .peers bin]⟩ = bin := by
    have hsent : [plan.iface, .peers bin].filterMap WireguardAttribute.peers? = [bin] :=
      List.filterMap_cons_none hiface
    rw [WireguardMessage.rawPeers, hsent, List.flatten_singleton]
  rw [plan.messages_shaped hbins, shaped, hbins, List.map_cons, List.map_map]
  have htail :
      rest.map (WireguardMessage.rawPeers ∘ fun bin => ⟨cmd, [plan.iface, .peers bin]⟩) = rest :=
    (List.map_congr_left fun bin _ => hrest bin).trans (List.map_id rest)
  rw [htail, WireguardMessage.rawPeers, List.filterMap_append, plan.filterMap_peers, List.nil_append,
    hfirst, hhead]

theorem Plan.isChain_full (plan : c.Plan) (cmd : WireguardCmd) :
    (plan.messages cmd).IsChain WireguardMessage.Full := by
  have hbins : (bins plan.chunks).IsChain fun bin next =>
      ∃ x, next.head? = some x ∧ maxNlaValueLen < 0 + NextFit.total bufferLen bin + bufferLen x := by
    unfold bins
    by_cases hnil : plan.chunks = []
    · rw [if_pos hnil]
      exact .singleton []
    · have htight : NextFit.Tight bufferLen maxNlaValueLen 0 0
          (NextFit.pack bufferLen maxNlaValueLen 0 0 [] plan.chunks) := NextFit.pack_tight rfl
      rw [if_neg hnil]
      exact htight.isChain fun _ => NextFit.ne_nil_of_mem_pack
  rw [← plan.map_rawPeers cmd, List.isChain_map] at hbins
  refine hbins.imp fun m next ⟨peer, hhead, hlen⟩ => ⟨peer, hhead, ?_⟩
  rwa [Nat.zero_add] at hlen

theorem Plan.fits (plan : c.Plan) : ∀ m ∈ plan.messages cmd, m.peersLen ≤ maxNlaValueLen := by
  intro m hm
  have hbin : m.rawPeers ∈ bins plan.chunks := by
    rw [← plan.map_rawPeers cmd]
    exact List.mem_map_of_mem hm
  exact plan.total_bin _ hbin

theorem Plan.ordered (plan : c.Plan) {other : List WireguardMessage} (hne : other ≠ [])
    (hfits : ∀ m ∈ other, m.peersLen ≤ maxNlaValueLen)
    (hsame : other.flatMap (·.rawPeers) = (plan.messages cmd).flatMap (·.rawPeers)) :
    (plan.messages cmd).length ≤ other.length := by
  obtain ⟨m, more, rfl⟩ := List.exists_cons_of_ne_nil hne
  have hlength : (plan.messages cmd).length = (bins plan.chunks).length := by
    rw [← plan.map_rawPeers cmd, List.length_map]
  rw [hlength]
  unfold bins
  by_cases hnil : plan.chunks = []
  · rw [if_pos hnil]
    simp
  · have hother : NextFit.Fits bufferLen maxNlaValueLen 0 0
        (m.rawPeers :: more.map (·.rawPeers)) := by
      obtain ⟨hm, hmore⟩ := List.forall_mem_cons.mp hfits
      refine ⟨by rw [Nat.zero_add]; exact hm, fun bin hbin => ?_⟩
      obtain ⟨m', hm', rfl⟩ := List.mem_map.mp hbin
      rw [Nat.zero_add]
      exact hmore m' hm'
    have hchunks : m.rawPeers ++ (more.map (·.rawPeers)).flatten = plan.chunks := by
      rw [← plan.flatMap_rawPeers cmd, ← hsame]
      simp [List.flatMap]
    rw [if_neg hnil]
    simpa using NextFit.pack_length_le hother hchunks

theorem Plan.unordered (plan : c.Plan) {other : List WireguardMessage} (hne : other ≠ [])
    (hfits : ∀ m ∈ other, m.peersLen ≤ maxNlaValueLen)
    (hsame : (other.flatMap (·.rawPeers)).Perm ((plan.messages cmd).flatMap (·.rawPeers))) :
    (plan.messages cmd).length ≤ 2 * other.length := by
  have htotal := total_flatMap other hfits
  rw [NextFit.total_perm hsame] at htotal
  have hchain := plan.isChain_full cmd
  have hpos : 0 < other.length := List.length_pos_iff.mpr hne
  cases hms : plan.messages cmd with
  | nil => simp
  | cons m more =>
    rw [hms] at hchain htotal
    have hneighbours : ((m :: more).map (·.rawPeers)).IsChain fun bin next =>
        maxNlaValueLen < NextFit.total bufferLen bin + NextFit.total bufferLen next := by
      rw [List.isChain_map]
      refine hchain.imp fun m next ⟨peer, hhead, hlen⟩ => ?_
      have hpeer : bufferLen peer ≤ NextFit.total bufferLen next.rawPeers :=
        NextFit.le_total (List.mem_of_mem_head? hhead)
      unfold WireguardMessage.peersLen at hlen
      omega
    have hbound : more.length * (maxNlaValueLen + 1) + m.peersLen ≤
        2 * NextFit.total bufferLen ((m :: more).flatMap (·.rawPeers)) := by
      have hlength := NextFit.length_mul_le hneighbours
      rwa [List.length_map, ← List.map_cons, ← List.flatMap_def] at hlength
    rw [List.length_cons]
    have hlimit : maxNlaValueLen = 65528 := rfl
    rw [hlimit] at hbound htotal
    omega

/-- A configuration is sent in few messages. -/
theorem buildMessages_few (h : c.buildMessages cmd = .ok ms) : c.FewMessages ms := by
  obtain ⟨plan, rfl⟩ := buildMessages_plan.mp h
  exact
    { chunks := plan.exists_groups cmd
      fits := plan.fits
      full := plan.isChain_full cmd
      ordered := fun _ hne hfits hsame => plan.ordered hne hfits hsame
      unordered := fun _ hne hfits hsame => plan.unordered hne hfits hsame }

omit [Base64.Engine] in
theorem buildMessages_few_sample :
    @FewMessages Base64.standard (@largeConfig Base64.standard [] 3000)
      (@Plan.messages Base64.standard _ (@largePlan Base64.standard [] 3000) .setDevice) :=
  letI := Base64.standard
  buildMessages_few (built_large [] 3000 .setDevice)

end WireguardParsed

end NlWireguard
