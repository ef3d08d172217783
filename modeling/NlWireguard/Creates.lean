import NlWireguard.Apply
import NlWireguard.Lengths

/-!
# Peers which must not be created

An entry flagged `updateOnly` is skipped for an unknown peer, but the flag is
only sent with the first chunk of the entry: a further chunk creates the peer.
So such an entry keeps its promise exactly as long as it is not split.
-/

namespace NlWireguard

variable {K : Kernel} {D : Device}

-- ---------------------------------------------------------------------------
-- Harmless entries
-- ---------------------------------------------------------------------------

/-- An entry which does not bring the peer `k` about. -/
def WireguardPeer.Harmless (k : Key) (peer : WireguardPeer) : Prop :=
  peer.publicKey? = some k → peer.Has .removeMe ∨ peer.Has .updateOnly

theorem setPeer_peers_ne (h : peer.publicKey? ≠ some k) : (K.setPeer D peer).peers k = D.peers k := by
  cases hkey : peer.publicKey? with
  | none => simp [Kernel.setPeer, hkey]
  | some key =>
    have hne : k ≠ key := fun heq => h (heq ▸ hkey)
    rcases setPeer_cases (K := K) (D := D) hkey with ⟨-, -, h⟩ | ⟨-, -, h⟩ | ⟨-, -, h⟩
    · rw [h]
    · rw [h]
      exact Function.update_of_ne hne _ _
    · rw [h]
      exact Function.update_of_ne hne _ _

theorem setPeer_keeps_absent (h : peer.Harmless k) (habsent : D.peers k = none) :
    (K.setPeer D peer).peers k = none := by
  by_cases hkey : peer.publicKey? = some k
  · rw [setPeer_absent hkey habsent, if_pos (h hkey)]
    exact habsent
  · rw [setPeer_peers_ne hkey]
    exact habsent

theorem foldl_setPeer_keeps_absent {entries : List WireguardPeer}
    (h : ∀ peer ∈ entries, peer.Harmless k) (habsent : D.peers k = none) :
    (entries.foldl K.setPeer D).peers k = none :=
  List.foldlRecOn (motive := fun D => D.peers k = none) entries K.setPeer habsent
    fun _ hD peer hpeer => setPeer_keeps_absent (h peer hpeer) hD

theorem setAttributes_keeps_absent (attrs : List WireguardAttribute) (habsent : D.peers k = none) :
    (D.setAttributes attrs).peers k = none := by
  have hframe (D : Device) : (attrs.foldl Device.setAttribute D).peers = D.peers :=
    Folds.foldl_frame Device.peers (fun D attr _ => by cases attr <;> rfl) D
  rw [Device.setAttributes, hframe]
  split
  · rfl
  · exact habsent

theorem setDevice_keeps_absent
    (h : ∀ peer ∈ (m.attributes.filterMap WireguardAttribute.peers?).flatten, peer.Harmless k)
    (habsent : D.peers k = none) : (K.setDevice D m).peers k = none := by
  unfold Kernel.setDevice
  split
  · exact foldl_setPeer_keeps_absent h (setAttributes_keeps_absent _ habsent)
  · exact habsent

theorem foldl_setDevice_keeps_absent
    (h : ∀ peer ∈ (sent WireguardAttribute.peers? ms).flatten, peer.Harmless k)
    (habsent : D.peers k = none) : (ms.foldl K.setDevice D).peers k = none := by
  induction ms generalizing D with
  | nil => exact habsent
  | cons m ms ih =>
    simp only [sent, List.flatMap_cons, List.flatten_append, List.mem_append] at h
    exact ih (fun peer hpeer => h peer (.inr hpeer))
      (setDevice_keeps_absent (fun peer hpeer => h peer (.inl hpeer)) habsent)

-- ---------------------------------------------------------------------------
-- Entries of a configuration
-- ---------------------------------------------------------------------------

variable [Base64.Engine]

namespace WireguardPeerParsed.Checked

variable (e : Checked)

theorem chunks_publicKey? : ∀ chunk ∈ e.chunks, chunk.publicKey? = some e.keys.publicKey := by
  rcases e.chunks_cases with ⟨-, h⟩ | ⟨ips, first, rest, -, -, h, -, -⟩
  · intro chunk hmem
    rw [h, List.mem_singleton] at hmem
    exact hmem ▸ bare_publicKey? e.peer e.keys
  · rw [h]
    have hfirst : (e.peer.firstChunk e.keys first).publicKey? = some e.keys.publicKey :=
      (extends_firstChunk e.peer e.keys Kernel.sample first).publicKey.trans
        (bare_publicKey? e.peer e.keys)
    simp only [List.mem_cons, List.mem_map]
    rintro chunk (rfl | ⟨batch, -, rfl⟩)
    · exact hfirst
    · rfl

theorem head_has (h : e.chunks = chunk :: more) : chunk.Has flag ↔
    Bitflags.Contains (WireguardParsedPeerFlags.bitsOf (e.peer.flags.getD [])) flag := by
  rcases e.chunks_cases with ⟨-, hchunks⟩ | ⟨ips, first, rest, -, -, hchunks, -, -⟩
  · obtain ⟨rfl, -⟩ := List.cons.inj (hchunks.symm.trans h)
    exact e.bare_has
  · obtain ⟨rfl, -⟩ := List.cons.inj (hchunks.symm.trans h)
    exact (extends_firstChunk e.peer e.keys Kernel.sample first).has.trans e.bare_has

theorem harmless_chunks
    (hflags : e.keys.publicKey = k → e.peer.Removes ∨ e.peer.UpdatesOnly)
    (hfits : e.keys.publicKey = k → e.peer.Removes ∨ bufferLen e.whole ≤ maxNlaValueLen) :
    ∀ chunk ∈ e.chunks, WireguardPeer.Harmless k chunk := by
  intro chunk hmem hkey
  have hk : e.keys.publicKey = k :=
    Option.some.inj ((e.chunks_publicKey? chunk hmem).symm.trans hkey)
  have hsingle : e.chunks.length = 1 := by
    by_cases hr : e.peer.Removes
    · rcases e.chunks_cases with ⟨-, h⟩ | ⟨_, _, _, -, hkept, -⟩
      · simp [h]
      · exact absurd hr hkept
    · exact (e.chunks_length_one hr).mpr ((hfits hk).resolve_left hr)
  obtain ⟨only, honly⟩ := List.length_eq_one_iff.mp hsingle
  obtain rfl : chunk = only := by simpa [honly] using hmem
  exact (hflags hk).imp (e.head_has honly).mpr (e.head_has honly).mpr

omit [Base64.Engine] in
/-- After a further chunk the peer is there, whatever was before. -/
theorem isSome_continuationChunk (keys : Keys) (batch : List WireguardAllowedIp) :
    ((K.setPeer D (continuationChunk keys batch)).peers keys.publicKey).isSome := by
  have hkey : (continuationChunk keys batch).publicKey? = some keys.publicKey := rfl
  have hflags : (continuationChunk keys batch).flags = 0 := rfl
  rcases setPeer_cases (K := K) (D := D) hkey with ⟨-, hr | hu, -⟩ | ⟨-, hr, -⟩ | ⟨-, -, h⟩
  · exact absurd hr (WireguardPeer.not_has hflags (by decide))
  · exact absurd hu (WireguardPeer.not_has hflags (by decide))
  · exact absurd hr (WireguardPeer.not_has hflags (by decide))
  · rw [h]
    simp [Kernel.updatePeer]

theorem isSome_chunks (hkept : ¬e.peer.Removes) (hsplit : maxNlaValueLen < bufferLen e.whole) :
    ((e.chunks.foldl K.setPeer D).peers e.keys.publicKey).isSome := by
  have hlength : e.chunks.length ≠ 1 := Nat.ne_of_gt (e.one_lt_chunks hkept hsplit)
  rcases e.chunks_cases with ⟨-, h⟩ | ⟨ips, first, rest, -, -, h, -, -⟩
  · simp [h] at hlength
  · rcases List.eq_nil_or_concat rest with rfl | ⟨init, last, rfl⟩
    · simp [h] at hlength
    · rw [h]
      simp only [List.concat_eq_append, List.map_append, List.foldl_cons, List.foldl_append,
        List.map_cons, List.map_nil, List.foldl_nil]
      exact isSome_continuationChunk e.keys last

end WireguardPeerParsed.Checked

-- ---------------------------------------------------------------------------
-- Configurations
-- ---------------------------------------------------------------------------

namespace WireguardParsed

variable {c : WireguardParsed}

/-- If all entries for `k` are to remove or only to update it, no part of the
messages creates it on a device without it. -/
def NeverCreates (c : WireguardParsed) (k : Key) : Prop :=
  ∀ (ms : List WireguardMessage) (K : Kernel) (D : Device),
    c.buildMessages .setDevice = .ok ms → D.peers k = none →
    (∀ p ∈ c.peers.getD [], p.publicKey = some (encodeKey k) → p.Removes ∨ p.UpdatesOnly) →
    ∀ n, ((ms.take n).foldl K.setDevice D).peers k = none

/-- Entries for `k` which do not remove it fit into one netlink attribute. -/
def UpdatesFit (c : WireguardParsed) (k : Key) : Prop :=
  ∀ p ∈ c.peers.getD [], p.publicKey = some (encodeKey k) → ¬p.Removes →
    ∀ built, p.build = .ok built → bufferLen built ≤ maxNlaValueLen

theorem neverCreates (h : c.UpdatesFit k) : c.NeverCreates k := by
  intro ms K D hms habsent hflags n
  obtain ⟨plan, rfl⟩ := buildMessages_plan.mp hms
  have hchunk : ∀ chunk ∈ plan.chunks, WireguardPeer.Harmless k chunk := by
    intro chunk hmem
    obtain ⟨group, hgroup, hmem⟩ := List.mem_flatten.mp hmem
    obtain ⟨e, he, rfl⟩ := List.mem_map.mp hgroup
    have hpeer : e.peer ∈ c.peers.getD [] := plan.peers_eq ▸ List.mem_map_of_mem he
    have hkey : e.keys.publicKey = k → e.peer.publicKey = some (encodeKey k) :=
      fun hk => hk ▸ e.accepted.publicKey
    refine e.harmless_chunks (fun hk => hflags _ hpeer (hkey hk)) (fun hk => ?_) chunk hmem
    by_cases hr : e.peer.Removes
    · exact .inl hr
    · exact .inr (h _ hpeer (hkey hk) hr _ e.build)
  refine foldl_setDevice_keeps_absent (fun peer hpeer => hchunk peer ?_) habsent
  have hsent : (sent WireguardAttribute.peers? (plan.messages .setDevice)).flatten = plan.chunks :=
    plan.sent_peers
  rw [← hsent]
  obtain ⟨bin, hbin, hpeer⟩ := List.mem_flatten.mp hpeer
  obtain ⟨m, hm, hbin⟩ := List.mem_flatMap.mp hbin
  exact List.mem_flatten.mpr ⟨bin, List.mem_flatMap.mpr ⟨m, List.mem_of_mem_take hm, hbin⟩, hpeer⟩

/-- When the last entry for a peer is split, the peer is there in the end. -/
theorem Plan.isSome_of_split (plan : c.Plan) {before after : List WireguardPeerParsed.Checked}
    {e : WireguardPeerParsed.Checked} (hentries : plan.entries = before ++ e :: after)
    (hafter : ∀ e' ∈ after, e'.keys.publicKey ≠ e.keys.publicKey) (hkept : ¬e.peer.Removes)
    (hsplit : maxNlaValueLen < bufferLen e.whole) (hanswers : D.answers plan.iface) :
    (((plan.messages cmd).foldl K.setDevice D).peers e.keys.publicKey).isSome := by
  rw [plan.foldl_setDevice, if_pos hanswers, chunks, hentries, List.map_append, List.map_cons,
    List.flatten_append, List.flatten_cons, List.foldl_append, List.foldl_append]
  generalize (before.map (·.chunks)).flatten.foldl K.setPeer _ = D
  have hkeep {D : Device} : ((after.map (·.chunks)).flatten.foldl K.setPeer D).peers
      e.keys.publicKey = D.peers e.keys.publicKey := by
    refine Folds.foldl_frame (fun D => D.peers e.keys.publicKey) (fun D chunk hchunk => ?_) D
    obtain ⟨group, hgroup, hchunk⟩ := List.mem_flatten.mp hchunk
    obtain ⟨e', he', rfl⟩ := List.mem_map.mp hgroup
    exact setPeer_peers_ne fun heq => hafter e' he'
      (Option.some.inj ((e'.chunks_publicKey? chunk hchunk).symm.trans heq))
  rw [hkeep]
  exact e.isSome_chunks hkept hsplit

/-- A peer to update, if there is one, with `count` more allowed IPs. -/
def updatePeerConfig (count : Nat) : WireguardParsed := largeConfig [.updateOnly] count

def updatePlan (count : Nat) : (updatePeerConfig count).Plan := largePlan [.updateOnly] count

theorem updatePeer_flags (h : p ∈ (updatePeerConfig count).peers.getD []) :
    p.UpdatesOnly ∧ ¬p.Removes := by
  obtain rfl := List.mem_singleton.mp h
  have hbits : WireguardParsedPeerFlags.bitsOf
      ((WireguardPeerParsed.largePeer [.updateOnly] count).flags.getD []) =
      WireguardPeerFlags.updateOnly := rfl
  unfold WireguardPeerParsed.UpdatesOnly WireguardPeerParsed.Removes
  rw [hbits]
  decide

/-- The peer is created although its only entry is to update it. -/
theorem updatePeer_creates (h : 2400 ≤ count) : ¬(updatePeerConfig count).NeverCreates .zero := by
  intro hnever
  have habsent := hnever ((updatePlan count).messages .setDevice) Kernel.sample Device.sample
    (built_large _ count _) rfl (fun p hp _ => .inr (updatePeer_flags hp).1)
    ((updatePlan count).messages .setDevice).length
  have hmem : .largePeer [.updateOnly] count ∈ (updatePeerConfig count).peers.getD [] :=
    List.mem_singleton_self _
  have hentries : (updatePlan count).entries = [] ++ .large [.updateOnly] count :: [] := rfl
  have hpresent : ((((updatePlan count).messages .setDevice).foldl Kernel.sample.setDevice
      Device.sample).peers .zero).isSome :=
    (updatePlan count).isSome_of_split hentries (by simp) (updatePeer_flags hmem).2
      (WireguardPeerParsed.Checked.large_long _ h) rfl
  rw [List.take_length] at habsent
  simp [habsent] at hpresent

omit [Base64.Engine] in
theorem not_neverCreates :
    ¬@NeverCreates Base64.standard (@updatePeerConfig Base64.standard 3000) .zero :=
  @updatePeer_creates Base64.standard _ (by decide)

omit [Base64.Engine] in
theorem neverCreates_sample :
    ∃ ms, @buildMessages Base64.standard (@updatePeerConfig Base64.standard 1) .setDevice = .ok ms ∧
      ((ms.take 1).foldl Kernel.sample.setDevice Device.sample).peers .zero = none := by
  let _ := Base64.standard
  have hms : (updatePeerConfig 1).buildMessages .setDevice = .ok ((updatePlan 1).messages .setDevice) :=
    built_large _ 1 _
  refine ⟨_, hms, neverCreates ?_ _ Kernel.sample Device.sample hms rfl ?_ 1⟩
  · intro p hp _ _ built hbuilt
    obtain rfl := List.mem_singleton.mp hp
    have hwhole := (WireguardPeerParsed.Checked.large [.updateOnly] 1).build
    obtain rfl := Except.ok.inj (hbuilt.symm.trans hwhole)
    decide +kernel
  · exact fun p hp _ => .inr (updatePeer_flags hp).1

end WireguardParsed

end NlWireguard
