import NlWireguard.Lib.Folds
import NlWireguard.Optimal

/-!
# Configurations for a single message

`build` accepts what fits into one message and nothing else. The two splitters
agree on that byte by byte: what fits is split by neither of them, and the
chunks of a peer which is too long never share a message.
-/

namespace NlWireguard

open ExceptLaws

-- ---------------------------------------------------------------------------
-- Whole peers
-- ---------------------------------------------------------------------------

def WireguardPeer.SameAttributes (peer other : WireguardPeer) : Prop :=
  peer.attributes.Perm other.attributes

theorem WireguardPeer.SameAttributes.bufferLen_eq {peer other : WireguardPeer}
    (h : peer.SameAttributes other) : bufferLen peer = bufferLen other := by
  rw [bufferLen_nested rfl, bufferLen_nested rfl, NextFit.total_perm h]

variable [Base64.Engine]

namespace WireguardPeerParsed

/-- The peer as one entry. The allowed IPs of a peer which is removed are not
sent. -/
def buildWhole (p : WireguardPeerParsed) : Except WireguardError WireguardPeer := do
  let built ← p.build
  return if p.Removes then ⟨built.state⟩ else built

namespace Checked

def entry (e : Checked) : WireguardPeer := if e.peer.Removes then ⟨e.whole.state⟩ else e.whole

theorem buildWhole (e : Checked) : e.peer.buildWhole = .ok e.entry := by
  rw [WireguardPeerParsed.buildWhole, e.build]
  rfl

/-- A peer is sent whole, or neither its entry nor all of its chunks fit into
one message. -/
theorem chunks_whole_or (e : Checked) :
    (∃ chunk, e.chunks = [chunk] ∧ chunk.SameAttributes e.entry) ∨
    (maxNlaValueLen < bufferLen e.entry ∧ maxNlaValueLen < NextFit.total bufferLen e.chunks) := by
  have hstate (h : e.peer.Removes) : e.entry = ⟨e.peer.stateAttributes e.keys⟩ := by
    rw [entry, if_pos h, e.state_whole]
  by_cases hr : e.peer.Removes
  · rcases e.chunks_cases with ⟨-, h⟩ | ⟨_, _, _, -, hkept, -⟩
    · exact .inl ⟨_, h, hstate hr ▸ .refl _⟩
    · exact absurd hr hkept
  · have hentry : e.entry = ⟨e.peer.attributes e.keys⟩ := if_neg hr
    cases hips : e.peer.allowedIps with
    | none =>
      have hchunks : e.chunks = [⟨e.peer.stateAttributes e.keys⟩] := by
        simp [chunks, WireguardPeerParsed.chunks, hips]
      have hsame : e.peer.attributes e.keys = e.peer.stateAttributes e.keys := by
        simp [stateAttributes, attributes, ipAttributes, hips]
      exact .inl ⟨_, hchunks, by rw [hentry, hsame]; exact .refl _⟩
    | some ips =>
      obtain ⟨first, rest, hbatched⟩ := e.exists_batched hips hr
      cases rest with
      | nil =>
        refine .inl ⟨_, hbatched.chunks, ?_⟩
        have hall : first = ips.map WireguardIpAddress.toAllowedIp := by simpa using hbatched.all
        rw [hentry, firstChunk, stateAttributes, attributes, ipAttributes, hips, emit_some, hall]
        exact (Folds.perm_middle_last (List.append_assoc ..)).symm
      | cons batch more =>
        -- The first chunk was closed because of the first allowed IP of the second one.
        obtain ⟨ip, others, rfl⟩ := List.exists_cons_of_ne_nil (hbatched.nonempty batch (by simp))
        have hfull : maxNlaValueLen < e.peer.firstLen e.keys + NextFit.total bufferLen first +
            bufferLen ip := hbatched.tight.1
        have hlen : bufferLen e.entry = e.peer.firstLen e.keys +
            NextFit.total bufferLen (first ++ ((ip :: others) :: more).flatten) := by
          rw [hentry, e.peer.bufferLen_attributes e.keys hips, hbatched.all]
        rw [hlen, hbatched.chunks]
        simp only [List.flatten_cons, List.map_cons, NextFit.total_append, NextFit.total_cons,
          bufferLen_firstChunk, bufferLen_continuationChunk]
        exact .inr ⟨by omega, by omega⟩

theorem flatten_chunks_whole_or (entries : List Checked) :
    (List.Forall₂ WireguardPeer.SameAttributes (entries.map chunks).flatten (entries.map entry) ∧
      NextFit.total bufferLen (entries.map chunks).flatten =
        NextFit.total bufferLen (entries.map entry)) ∨
    (maxNlaValueLen < NextFit.total bufferLen (entries.map entry) ∧
      maxNlaValueLen < NextFit.total bufferLen (entries.map chunks).flatten) := by
  induction entries with
  | nil => exact .inl ⟨.nil, rfl⟩
  | cons e entries ih =>
    simp only [List.map_cons, List.flatten_cons, NextFit.total_append, NextFit.total_cons]
    rcases e.chunks_whole_or with ⟨chunk, hchunk, hperm⟩ | ⟨hentry, hchunks⟩
    · have hlen : bufferLen chunk = bufferLen e.entry := hperm.bufferLen_eq
      rw [hchunk, NextFit.total_cons, NextFit.total_nil]
      rcases ih with ⟨hall, htotal⟩ | ⟨hentries, hchunks⟩
      · exact .inl ⟨.cons hperm hall, by omega⟩
      · exact .inr ⟨by omega, by omega⟩
    · exact .inr ⟨by omega, by omega⟩

end Checked

end WireguardPeerParsed

-- ---------------------------------------------------------------------------
-- Building one message
-- ---------------------------------------------------------------------------

namespace WireguardParsed

variable {c : WireguardParsed}

theorem build_single (h : c.buildMessages cmd = .ok [m]) : c.build cmd = .ok m := by
  rw [build, h]
  rfl

theorem build_several (h : c.buildMessages cmd = .ok ms) (hlen : 2 ≤ ms.length) :
    ∃ e, c.build cmd = .error e ∧ e.kind = .invalidInput := by
  match ms with
  | m :: m' :: more =>
    rw [build, h]
    exact ⟨_, rfl, rfl⟩

theorem Plan.bins_length_le_one (plan : c.Plan) :
    (bins plan.chunks).length ≤ 1 ↔ NextFit.total bufferLen plan.chunks ≤ maxNlaValueLen := by
  unfold bins
  by_cases hnil : plan.chunks = []
  · simp [hnil]
  · rw [if_neg hnil, NextFit.pack_length_le_one plan.fits_chunks, or_iff_right hnil, Nat.zero_add]

theorem Plan.messages_cases (plan : c.Plan) (cmd : WireguardCmd) :
    (NextFit.total bufferLen plan.chunks ≤ maxNlaValueLen ∧ ∃ m, plan.messages cmd = [m]) ∨
    (maxNlaValueLen < NextFit.total bufferLen plan.chunks ∧ 2 ≤ (plan.messages cmd).length) := by
  obtain ⟨first, rest, hbins, -, -⟩ := plan.exists_bins
  have hone := plan.bins_length_le_one
  rw [hbins, List.length_cons] at hone
  rw [plan.messages_shaped hbins, shaped]
  cases rest with
  | nil => exact .inl ⟨hone.mp (Nat.le_refl _), _, rfl⟩
  | cons bin more =>
    refine .inr ⟨Nat.not_le.mp fun hle => ?_, by simp⟩
    simpa using hone.mpr hle

/-- `build` takes what fits into one message, and what it builds holds every peer
as one of `entries`. -/
structure BuildsIfFits (c : WireguardParsed) (cmd : WireguardCmd) (ms : List WireguardMessage)
    (entries : List WireguardPeer) : Prop where
  ok : (∃ m, c.build cmd = .ok m) ↔ NextFit.total bufferLen entries ≤ maxNlaValueLen
  whole : ∀ m, c.build cmd = .ok m → List.Forall₂ WireguardPeer.SameAttributes
    (sent WireguardAttribute.peers? [m]).flatten entries
  several : maxNlaValueLen < NextFit.total bufferLen entries →
    (∃ e, c.build cmd = .error e ∧ e.kind = .invalidInput) ∧ 2 ≤ ms.length

/-- One message is built exactly when all peers fit into it. -/
theorem build_ifFits (h : c.buildMessages cmd = .ok ms) :
    ∃ entries, (c.peers.getD []).mapM WireguardPeerParsed.buildWhole = .ok entries ∧
      c.BuildsIfFits cmd ms entries := by
  have hms := h
  obtain ⟨plan, rfl⟩ := buildMessages_plan.mp h
  refine ⟨plan.entries.map (·.entry), ?_, ?_⟩
  · rw [mapM_ok, plan.peers_eq, List.forall₂_map_left_iff, List.forall₂_map_right_iff,
      List.forall₂_same]
    exact fun e _ => e.buildWhole
  · rcases plan.messages_cases cmd with ⟨hfits, m, hm⟩ | ⟨hover, hlen⟩
    · obtain ⟨hall, htotal⟩ := (WireguardPeerParsed.Checked.flatten_chunks_whole_or
        plan.entries).resolve_right fun h => absurd h.2 (Nat.not_lt.mpr hfits)
      have hbuild : c.build cmd = .ok m := build_single (hm ▸ hms)
      have hentries : NextFit.total bufferLen (plan.entries.map (·.entry)) ≤ maxNlaValueLen :=
        htotal ▸ hfits
      refine
        { ok := ⟨fun _ => hentries, fun _ => ⟨m, hbuild⟩⟩
          whole := fun m' hm' => ?_
          several := fun hover => absurd hentries (Nat.not_le.mpr hover) }
      cases hbuild.symm.trans hm'
      rw [← hm, plan.sent_peers]
      exact hall
    · obtain ⟨e, he, hkind⟩ := build_several hms hlen
      have hentries : maxNlaValueLen < NextFit.total bufferLen (plan.entries.map (·.entry)) := by
        rcases WireguardPeerParsed.Checked.flatten_chunks_whole_or plan.entries with
          ⟨-, htotal⟩ | ⟨hentries, -⟩
        · exact htotal ▸ hover
        · exact hentries
      exact
        { ok := ⟨fun ⟨m, hm⟩ => (nomatch he.symm.trans hm),
            fun hle => absurd hle (Nat.not_le.mpr hentries)⟩
          whole := fun m hm => nomatch he.symm.trans hm
          several := fun _ => ⟨⟨e, he, hkind⟩, hlen⟩ }

theorem two_le_large (h : 2400 ≤ count) (cmd : WireguardCmd) :
    2 ≤ ((largePlan [] count).messages cmd).length := by
  let e := WireguardPeerParsed.Checked.large [] count
  have hlong : maxNlaValueLen < bufferLen e.whole := WireguardPeerParsed.Checked.large_long [] h
  rcases (largePlan [] count).messages_cases cmd with ⟨hfits, -⟩ | ⟨-, hlen⟩
  · have hchunks : (largePlan [] count).chunks = e.chunks := List.append_nil _
    have hentry : e.entry = e.whole := if_neg (WireguardPeerParsed.not_removes_large count)
    rw [hchunks] at hfits
    rcases e.chunks_whole_or with ⟨chunk, hchunk, hsame⟩ | ⟨-, hover⟩
    · rw [hchunk, NextFit.total_cons, NextFit.total_nil, hsame.bufferLen_eq, hentry] at hfits
      omega
    · omega
  · exact hlen

omit [Base64.Engine] in
theorem build_ifFits_sample :
    2 ≤ (@Plan.messages Base64.standard _ (@largePlan Base64.standard [] 3000) .setDevice).length ∧
    ∃ entries, ((@largeConfig Base64.standard [] 3000).peers.getD []).mapM
        (@WireguardPeerParsed.buildWhole Base64.standard) = .ok entries ∧
      @BuildsIfFits Base64.standard (@largeConfig Base64.standard [] 3000) .setDevice
        (@Plan.messages Base64.standard _ (@largePlan Base64.standard [] 3000) .setDevice) entries :=
  letI := Base64.standard
  ⟨two_le_large (by decide) .setDevice, build_ifFits (built_large [] 3000 .setDevice)⟩

end WireguardParsed

end NlWireguard
