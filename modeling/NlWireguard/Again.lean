import NlWireguard.Creates
import NlWireguard.Invariant

/-!
# Configurations applied again

What a configuration leaves behind does not depend on how much of it was there
before: it makes up for an attempt to apply it which was given up, and applying
it once more changes nothing. Entries which must not create a peer are the
exception, unless the configuration replaces all peers.
-/

namespace NlWireguard

variable {K : Kernel} {D E F : Device} {m : WireguardMessage} {ms : List WireguardMessage}
  {peer : WireguardPeer} {peers : List WireguardPeer}

-- ---------------------------------------------------------------------------
-- The changes a message can make
-- ---------------------------------------------------------------------------

def WireguardPeer.allChanges (peer : WireguardPeer) : List Change :=
  match peer.publicKey? with
  | none => []
  | some key => peer.changes key

def WireguardMessage.allChanges (m : WireguardMessage) : List Change :=
  attributeChanges m.attributes ++ m.rawPeers.flatMap (·.allChanges)

theorem allChanges_key (hkey : peer.publicKey? = some key) :
    WireguardPeer.allChanges peer = peer.changes key := by
  simp [WireguardPeer.allChanges, hkey]

theorem entryChanges_subset (D : Device) (peer : WireguardPeer) :
    D.entryChanges peer ⊆ peer.allChanges := by
  cases hkey : peer.publicKey? with
  | none => simp [Device.entryChanges, hkey]
  | some key =>
    rw [entryChanges_key hkey, allChanges_key hkey]
    split
    · exact List.nil_subset _
    · exact List.Subset.refl _

theorem entriesChanges_subset (K : Kernel) (D : Device) (peers : List WireguardPeer) :
    K.entriesChanges D peers ⊆ peers.flatMap (·.allChanges) := by
  induction peers generalizing D with
  | nil => exact List.nil_subset _
  | cons peer peers ih =>
    rw [Kernel.entriesChanges, List.flatMap_cons]
    exact List.append_subset.mpr
      ⟨List.subset_append_of_subset_left _ (entryChanges_subset D peer),
        List.subset_append_of_subset_right _ (ih _)⟩

theorem changes_subset (K : Kernel) (D : Device) (m : WireguardMessage) :
    K.changes D m ⊆ m.allChanges := by
  unfold Kernel.changes WireguardMessage.allChanges
  split
  · exact List.append_subset.mpr
      ⟨List.subset_append_left _ _,
        List.subset_append_of_subset_right _ (entriesChanges_subset K _ _)⟩
  · exact List.nil_subset _

theorem change_answers (K : Kernel) (D : Device) (c : Change) :
    (K.change D c).answers = D.answers := by
  cases c with
  | deviceAttribute attr => exact D.setAttribute_answers attr
  | _ =>
    funext attr
    cases attr <;> rfl

theorem foldl_change_answers (K : Kernel) (D : Device) (cs : List Change) :
    (cs.foldl K.change D).answers = D.answers :=
  Folds.foldl_frame Device.answers (fun D c _ => change_answers K D c) D

/-- `E` is `D` after some changes which the messages make. -/
def Kernel.Made (K : Kernel) (ms : List WireguardMessage) (D E : Device) : Prop :=
  ∃ cs, cs ⊆ ms.flatMap (·.allChanges) ∧ E = cs.foldl K.change D

theorem Kernel.Made.refl (K : Kernel) (ms : List WireguardMessage) (D : Device) : K.Made ms D D :=
  ⟨[], List.nil_subset _, rfl⟩

theorem Kernel.Made.trans (h : K.Made ms D E) (h' : K.Made ms E F) : K.Made ms D F := by
  obtain ⟨cs, hcs, rfl⟩ := h
  obtain ⟨ds, hds, rfl⟩ := h'
  exact ⟨cs ++ ds, List.append_subset.mpr ⟨hcs, hds⟩, List.foldl_append.symm⟩

theorem Kernel.Made.of_part (hm : m ∈ ms) (h : K.AppliesPart D m E) : K.Made ms D E := by
  obtain ⟨cs, hcs, rfl⟩ := h
  refine ⟨cs, fun c hc => ?_, rfl⟩
  exact List.mem_flatMap.mpr ⟨m, hm, changes_subset K D m (hcs.subset hc)⟩

-- ---------------------------------------------------------------------------
-- Messages without entries which only update
-- ---------------------------------------------------------------------------

/-- An entry makes all of its changes; to remove a peer which is not there is no
change at all. -/
theorem setPeer_allChanges (howned : D.Owned) (hcreates : ¬peer.Has .updateOnly) :
    K.setPeer D peer = peer.allChanges.foldl K.change D := by
  rw [setPeer_changes]
  cases hkey : peer.publicKey? with
  | none => simp [Device.entryChanges, WireguardPeer.allChanges, hkey]
  | some key =>
    rw [entryChanges_key hkey, allChanges_key hkey]
    split
    · rename_i hskipped
      obtain ⟨habsent, hr⟩ := hskipped
      rw [WireguardPeer.changes, if_pos (hr.resolve_right hcreates), List.foldl_cons, List.foldl_nil,
        List.foldl_nil, Kernel.change, Device.removePeer, howned.release habsent, ← habsent,
        Function.update_eq_self]
    · rfl

theorem foldl_setPeer_allChanges (howned : D.Owned) (hcreates : ∀ peer ∈ peers, ¬peer.Has .updateOnly) :
    peers.foldl K.setPeer D = (peers.flatMap (·.allChanges)).foldl K.change D := by
  induction peers generalizing D with
  | nil => rfl
  | cons peer peers ih =>
    obtain ⟨hpeer, hpeers⟩ := List.forall_mem_cons.mp hcreates
    have hnext : (K.setPeer D peer).Owned :=
      setPeer_changes K D peer ▸ (entryChanges_owned howned peer).last
    rw [List.foldl_cons, ih hnext hpeers, List.flatMap_cons, List.foldl_append,
      setPeer_allChanges howned hpeer]

theorem setDevice_allChanges (howned : D.Owned) (hanswers : m.attributes.any D.answers)
    (hcreates : ∀ peer ∈ m.rawPeers, ¬peer.Has .updateOnly) :
    K.setDevice D m = m.allChanges.foldl K.change D := by
  have hattrs : (D.setAttributes m.attributes).Owned :=
    setAttributes_changes K D m.attributes ▸ (attributeChanges_owned howned m.attributes).last
  rw [Kernel.setDevice, if_pos hanswers, WireguardMessage.allChanges, List.foldl_append,
    ← setAttributes_changes, ← foldl_setPeer_allChanges hattrs hcreates]
  rfl

theorem foldl_setDevice_allChanges (howned : D.Owned)
    (hanswers : ∀ m ∈ ms, m.attributes.any D.answers)
    (hcreates : ∀ m ∈ ms, ∀ peer ∈ m.rawPeers, ¬peer.Has .updateOnly) :
    ms.foldl K.setDevice D = (ms.flatMap (·.allChanges)).foldl K.change D := by
  induction ms generalizing D with
  | nil => rfl
  | cons m ms ih =>
    obtain ⟨hm, hms⟩ := List.forall_mem_cons.mp hanswers
    obtain ⟨hmc, hmsc⟩ := List.forall_mem_cons.mp hcreates
    have hnext : (K.setDevice D m).Owned := setDevice_changes K D m ▸ (setDevice_owned howned m).last
    have hsame : (K.setDevice D m).answers = D.answers :=
      setDevice_changes K D m ▸ foldl_change_answers K D _
    rw [List.foldl_cons, ih hnext (fun m hm => hsame ▸ hms m hm) hmsc, List.flatMap_cons,
      List.foldl_append, setDevice_allChanges howned hm hmc]

/-- Messages which are applied again make up for all they have done before. -/
theorem Kernel.Made.again_of_creates (h : K.Made ms D E) (hD : D.Owned) (hE : E.Owned)
    (hanswers : ∀ m ∈ ms, m.attributes.any D.answers)
    (hcreates : ∀ m ∈ ms, ∀ peer ∈ m.rawPeers, ¬peer.Has .updateOnly) :
    ms.foldl K.setDevice E = ms.foldl K.setDevice D := by
  obtain ⟨cs, hcs, rfl⟩ := h
  have hsame : (cs.foldl K.change D).answers = D.answers := foldl_change_answers K D cs
  rw [foldl_setDevice_allChanges hE (hsame ▸ hanswers) hcreates,
    foldl_setDevice_allChanges hD hanswers hcreates, (overwrites_change K).absorb_subset hcs]

-- ---------------------------------------------------------------------------
-- Messages which replace all peers
-- ---------------------------------------------------------------------------

/-- Removing all peers makes up for whatever was done to peers. -/
theorem change_removePeers (K : Kernel) (D : Device) {c : Change}
    (hpeer : ∀ attr, c ≠ .deviceAttribute attr) :
    K.change (K.change D c) .removePeers = K.change D .removePeers := by
  refine Device.ext_parts fun part => ?_
  cases part with
  | settings =>
    cases c with
    | deviceAttribute attr => exact absurd rfl (hpeer attr)
    | _ => rfl
  | _ => rfl

theorem mem_entry_changes (h : c ∈ WireguardPeer.allChanges peer) (attr : WireguardAttribute) :
    c ≠ .deviceAttribute attr := by
  rintro rfl
  unfold WireguardPeer.allChanges WireguardPeer.changes at h
  split at h
  · simp at h
  · split at h
    · simp at h
    · split at h <;> simp at h

/-- Only attributes of the messages themselves change the device's own properties. -/
theorem deviceAttribute_mem {ms : List WireguardMessage}
    (h : .deviceAttribute attr ∈ ms.flatMap (·.allChanges)) :
    ∃ m ∈ ms, .deviceAttribute attr ∈ attributeChanges m.attributes := by
  obtain ⟨m, hm, h⟩ := List.mem_flatMap.mp h
  refine ⟨m, hm, ?_⟩
  rcases List.mem_append.mp h with hattr | hentry
  · exact hattr
  · obtain ⟨peer, -, hpeer⟩ := List.mem_flatMap.mp hentry
    exact absurd rfl (mem_entry_changes hpeer attr)

theorem Kernel.Made.again_of_replaces {first : WireguardMessage} {rest : List WireguardMessage}
    (h : K.Made (first :: rest) D E) (hanswers : first.attributes.any D.answers)
    (hreplaces : Bitflags.Contains ((first.attributes.findSome? (·.flags?)).getD 0)
      WireguardDeviceFlags.replacePeers)
    (hrest : ∀ m ∈ rest, ∀ attr ∈ m.attributes, ∀ D : Device, D.setAttribute attr = D) :
    (first :: rest).foldl K.setDevice E = (first :: rest).foldl K.setDevice D := by
  obtain ⟨cs, hcs, rfl⟩ := h
  have hremove : .removePeers ∈ attributeChanges first.attributes :=
    mem_attributeChanges.mpr (.inl ⟨hreplaces, rfl⟩)
  have hattrs : (cs.foldl K.change D).setAttributes first.attributes =
      D.setAttributes first.attributes := by
    rw [setAttributes_changes K, setAttributes_changes K]
    refine (overwrites_change K).absorb fun c hc => ?_
    by_cases hpeer : ∀ attr, c ≠ .deviceAttribute attr
    · exact ⟨_, hremove, fun D => change_removePeers K D hpeer⟩
    · push Not at hpeer
      obtain ⟨attr, rfl⟩ := hpeer
      obtain ⟨m, hm, hattr⟩ := deviceAttribute_mem (hcs hc)
      rcases List.mem_cons.mp hm with rfl | hm
      · exact ⟨_, hattr, fun D => (overwrites_change K).again D _⟩
      · -- Further messages have no attributes which change the device.
        rcases mem_attributeChanges.mp hattr with ⟨-, h⟩ | ⟨other, hother, h⟩
        · exact nomatch h
        · cases h
          refine ⟨_, hremove, fun D => ?_⟩
          rw [Kernel.change, hrest m hm attr hother D]
  have hsame : (cs.foldl K.change D).answers = D.answers := foldl_change_answers K D cs
  have hfirst : K.setDevice (cs.foldl K.change D) first = K.setDevice D first := by
    rw [Kernel.setDevice, Kernel.setDevice, hsame, if_pos hanswers, if_pos hanswers, hattrs]
  rw [List.foldl_cons, hfirst, List.foldl_cons]

-- ---------------------------------------------------------------------------
-- Attempts
-- ---------------------------------------------------------------------------

/-- The messages arrive in order, each one applied or given up. -/
inductive Kernel.AppliesParts (K : Kernel) : List WireguardMessage → Device → Device → Prop
  | nil {D : Device} : AppliesParts K [] D D
  | cons {D E F : Device} {m : WireguardMessage} {ms : List WireguardMessage}
      (hpart : K.AppliesPart D m E) (hrest : AppliesParts K ms E F) : AppliesParts K (m :: ms) D F

/-- Some of the messages are sent, from the first one on, and each of these is
applied or given up. -/
def Kernel.Attempts (K : Kernel) (ms : List WireguardMessage) (D E : Device) : Prop :=
  ∃ sent, sent <+: ms ∧ K.AppliesParts sent D E

theorem Kernel.AppliesParts.whole (K : Kernel) (ms : List WireguardMessage) (D : Device) :
    K.AppliesParts ms D (ms.foldl K.setDevice D) := by
  induction ms generalizing D with
  | nil => exact .nil
  | cons m ms ih => exact .cons ⟨_, List.prefix_refl _, setDevice_changes K D m⟩ (ih _)

theorem Kernel.Attempts.whole (K : Kernel) (ms : List WireguardMessage) (D : Device) :
    K.Attempts ms D (ms.foldl K.setDevice D) :=
  ⟨ms, List.prefix_refl ms, .whole K ms D⟩

/-- What a part of any of the messages keeps, an attempt keeps. -/
theorem Kernel.Attempts.keeps {P : Device → Prop} (h : K.Attempts ms D E) (hD : P D)
    (hpart : ∀ m ∈ ms, ∀ D E, P D → K.AppliesPart D m E → P E) : P E := by
  obtain ⟨sent, hsent, hparts⟩ := h
  have hpart : ∀ m ∈ sent, ∀ D E, P D → K.AppliesPart D m E → P E := fun m hm =>
    hpart m (hsent.subset hm)
  clear hsent
  induction hparts with
  | nil => exact hD
  | cons hfirst _ ih =>
    obtain ⟨hm, hrest⟩ := List.forall_mem_cons.mp hpart
    exact ih (hm _ _ hD hfirst) hrest

theorem Kernel.Attempts.owned (h : K.Attempts ms D E) (howned : D.Owned) : E.Owned := by
  refine h.keeps howned fun m _ D E hD hpart => ?_
  obtain ⟨cs, hcs, rfl⟩ := hpart
  exact setDevice_owned hD m cs hcs

theorem Kernel.Attempts.made (h : K.Attempts ms D E) : K.Made ms D E :=
  h.keeps (Kernel.Made.refl K ms D) fun _ hm _ _ hmade hpart =>
    Kernel.Made.trans hmade (Kernel.Made.of_part hm hpart)

theorem Kernel.Attempts.unanswered (h : K.Attempts ms D E)
    (hanswers : ∀ m ∈ ms, ¬m.attributes.any D.answers) : E = D := by
  refine h.keeps (P := fun E => E = D) rfl fun m hm F E hF hpart => ?_
  obtain ⟨cs, hcs, rfl⟩ := hpart
  have hnone : K.changes D m = [] := if_neg (hanswers m hm)
  rw [hF, hnone, List.prefix_nil] at hcs
  rw [hcs, List.foldl_nil, hF]

-- ---------------------------------------------------------------------------
-- Configurations
-- ---------------------------------------------------------------------------

variable [Base64.Engine]

theorem WireguardPeerParsed.Checked.updatesOnly_of_chunk (e : Checked) (hchunk : chunk ∈ e.chunks)
    (h : WireguardPeer.Has chunk .updateOnly) : e.peer.UpdatesOnly := by
  rcases e.chunks_cases with ⟨-, hchunks⟩ | ⟨ips, first, rest, -, -, hchunks, -, -⟩
  · obtain rfl : chunk = ⟨e.peer.stateAttributes e.keys⟩ := by simpa [hchunks] using hchunk
    exact (e.head_has hchunks).mp h
  · rw [hchunks, List.mem_cons] at hchunk
    rcases hchunk with rfl | hrest
    · exact (e.head_has hchunks).mp h
    · obtain ⟨batch, -, rfl⟩ := List.mem_map.mp hrest
      exact absurd h (WireguardPeer.not_has rfl (by decide))

namespace WireguardParsed

variable {c : WireguardParsed}

def ReplacesPeers (c : WireguardParsed) : Prop :=
  Bitflags.Contains (WireguardParsedDeviceFlags.bitsOf (c.flags.getD [])) WireguardDeviceFlags.replacePeers

instance (c : WireguardParsed) : Decidable c.ReplacesPeers := inferInstanceAs (Decidable (_ = _))

/-- What the configuration leads to does not depend on which peers there are. -/
def Repeatable (c : WireguardParsed) : Prop :=
  c.ReplacesPeers ∨ ∀ p ∈ c.peers.getD [], ¬p.UpdatesOnly

namespace Plan

variable (plan : c.Plan)

theorem mem_messages (hm : m ∈ plan.messages cmd) :
    m.cmd = cmd ∧ m.attributes.any D.answers = D.answers plan.iface := by
  obtain ⟨first, rest, hbins, -, -⟩ := plan.exists_bins
  rw [plan.messages_shaped hbins, shaped, List.mem_cons] at hm
  rcases hm with rfl | hm
  · have hpeers : (emit c.peers fun _ => WireguardAttribute.peers first).any D.answers = false := by
      cases c.peers <;> simp [Device.answers]
    rw [List.any_append, plan.any_answers, hpeers, Bool.or_false]
    exact ⟨rfl, rfl⟩
  · obtain ⟨bin, -, rfl⟩ := List.mem_map.mp hm
    simp [Device.answers]

theorem findSome?_flags :
    (c.attributes plan.iface plan.keys).findSome? (·.flags?) =
      c.flags.map WireguardParsedDeviceFlags.bitsOf := by
  have hiface : plan.iface.flags? = none := plan.iface_none _ (fun _ => rfl) (fun _ => rfl)
  have hsent : (c.attributes plan.iface plan.keys).filterMap WireguardAttribute.flags? =
      (c.flags.map WireguardParsedDeviceFlags.bitsOf).toList := by
    rw [plan.filterMap_attributes _ hiface]
    cases plan.keys.publicKey <;> cases plan.keys.privateKey <;> cases c.listenPort <;>
      cases c.fwmark <;> cases c.flags <;> rfl
  rw [← List.head?_filterMap]
  refine (congrArg List.head? hsent).trans ?_
  cases c.flags <;> rfl

/-- The first message replaces all peers if the configuration does. -/
theorem replacesPeers_first (first : List WireguardPeer) :
    Bitflags.Contains (((c.attributes plan.iface plan.keys ++
      emit c.peers fun _ => WireguardAttribute.peers first).findSome? (·.flags?)).getD 0)
      WireguardDeviceFlags.replacePeers ↔ c.ReplacesPeers := by
  have hpeers : (emit c.peers fun _ => WireguardAttribute.peers first).findSome?
      (·.flags?) = none := by
    cases c.peers <;> rfl
  have hbits : (c.flags.map WireguardParsedDeviceFlags.bitsOf).getD 0 =
      WireguardParsedDeviceFlags.bitsOf (c.flags.getD []) := by
    cases c.flags <;> rfl
  rw [List.findSome?_append, plan.findSome?_flags, hpeers, Option.or_none, hbits, ReplacesPeers]

theorem updatesOnly_of_message (hm : m ∈ plan.messages cmd) (hpeer : peer ∈ m.rawPeers)
    (h : peer.Has .updateOnly) : ∃ p ∈ c.peers.getD [], p.UpdatesOnly := by
  have hmem : peer ∈ plan.chunks := by
    rw [← plan.flatMap_rawPeers cmd]
    exact List.mem_flatMap.mpr ⟨m, hm, hpeer⟩
  obtain ⟨group, hgroup, hmem⟩ := List.mem_flatten.mp hmem
  obtain ⟨e, he, rfl⟩ := List.mem_map.mp hgroup
  refine ⟨e.peer, ?_, e.updatesOnly_of_chunk hmem h⟩
  rw [plan.peers_eq]
  exact List.mem_map_of_mem he

/-- Messages which are sent again after an attempt do what they would have done
without it. -/
theorem again (hrepeat : c.Repeatable) (howned : D.Owned)
    (h : K.Attempts (plan.messages .setDevice) D E) :
    (plan.messages .setDevice).foldl K.setDevice E =
      (plan.messages .setDevice).foldl K.setDevice D := by
  by_cases hanswers : D.answers plan.iface
  · have hall : ∀ m ∈ plan.messages .setDevice, m.attributes.any D.answers := fun m hm =>
      (plan.mem_messages hm).2.trans hanswers
    rcases hrepeat with hreplaces | hcreates
    · obtain ⟨first, rest, hbins, -, -⟩ := plan.exists_bins
      rw [plan.messages_shaped hbins, shaped] at h hall ⊢
      refine Kernel.Made.again_of_replaces h.made (hall _ List.mem_cons_self)
        ((plan.replacesPeers_first first).mpr hreplaces) fun m hm attr hattr D => ?_
      obtain ⟨bin, -, rfl⟩ := List.mem_map.mp hm
      rcases plan.iface_cases with ⟨name, hiface⟩ | ⟨index, hiface⟩ <;> simp [hiface] at hattr <;>
        rcases hattr with rfl | rfl <;> rfl
    · refine Kernel.Made.again_of_creates h.made howned (h.owned howned) hall fun m hm peer hpeer hu => ?_
      obtain ⟨p, hp, hu⟩ := plan.updatesOnly_of_message hm hpeer hu
      exact hcreates p hp hu
  · rw [h.unanswered fun m hm hm' => hanswers ((plan.mem_messages hm).2.symm.trans hm')]

end Plan

theorem sound_of_attempt (hK : K.Lawful) (h : D.Sound K) (hms : c.buildMessages .setDevice = .ok ms)
    (hattempt : K.Attempts ms D E) : E.Sound K :=
  hattempt.keeps h fun m hm _ _ hD hpart => step_sound hK hD ⟨c, ms, m, hms, hm, hpart⟩

/-- However often a configuration was applied before, wholly or until it was
given up, applying it leads to the same device. -/
theorem buildMessages_again (h : c.buildMessages .setDevice = .ok ms) (hrepeat : c.Repeatable)
    (howned : D.Owned) (hattempts : Relation.ReflTransGen (K.Attempts ms) D E) :
    ms.foldl K.setDevice E = ms.foldl K.setDevice D := by
  obtain ⟨plan, rfl⟩ := buildMessages_plan.mp h
  have hrun : E.Owned ∧ (plan.messages .setDevice).foldl K.setDevice E =
      (plan.messages .setDevice).foldl K.setDevice D := by
    induction hattempts with
    | refl => exact ⟨howned, rfl⟩
    | tail _ hlast ih => exact ⟨hlast.owned ih.1, (plan.again hrepeat ih.1 hlast).trans ih.2⟩
  exact hrun.2

/-- The device behind the first message, and some changes of the second one. -/
def givenUp (K : Kernel) (D : Device) : List WireguardMessage → Device
  | first :: second :: _ =>
    ((K.changes (K.setDevice D first) second).take 8).foldl K.change (K.setDevice D first)
  | _ => D

omit [Base64.Engine] in
theorem attempt_givenUp (K : Kernel) (D : Device) (ms : List WireguardMessage) :
    K.Attempts ms D (givenUp K D ms) :=
  match ms with
  | [] | [_] => ⟨[], List.nil_prefix, .nil⟩
  | first :: second :: rest =>
    ⟨[first, second], ⟨rest, rfl⟩, .cons ⟨_, List.prefix_refl _, setDevice_changes K D first⟩
      (.cons ⟨_, List.take_prefix 8 _, rfl⟩ .nil)⟩

omit [Base64.Engine] in
theorem buildMessages_again_sample :
    let sent := @Plan.messages Base64.standard _ (@largePlan Base64.standard [] 3000) .setDevice
    sent.foldl Kernel.sample.setDevice (givenUp .sample sampleDevice sent) =
      sent.foldl Kernel.sample.setDevice sampleDevice :=
  letI := Base64.standard
  buildMessages_again (built_large [] 3000 .setDevice)
    (.inr fun _ hp => List.mem_singleton.mp hp ▸ WireguardPeerParsed.not_updatesOnly_large 3000)
    sound_sample.owned (.single (attempt_givenUp _ _ _))

end WireguardParsed

end NlWireguard
