import NlWireguard.Kernel
import NlWireguard.Shape

/-!
# Applying a split configuration

The chunks of a peer, and the messages of a configuration, change a device
like the whole would. What makes this work is that a further chunk finds the
peer which the first one has configured, and only adds allowed IPs to it.
-/

namespace NlWireguard

open Folds

variable {K : Kernel} {D : Device}

-- ---------------------------------------------------------------------------
-- Further chunks
-- ---------------------------------------------------------------------------

namespace WireguardPeerParsed

theorem setPeer_continuationChunk (keys : Keys) (batch : List WireguardAllowedIp)
    (h : D.peers keys.publicKey = some s) :
    K.setPeer D (continuationChunk keys batch) =
      { D with owner := batch.foldl (K.setAllowedIp keys.publicKey) D.owner } := by
  have hkey : (continuationChunk keys batch).publicKey? = some keys.publicKey := rfl
  have hflags : (continuationChunk keys batch).flags = 0 := rfl
  have hkept : ¬(continuationChunk keys batch).Has .removeMe :=
    WireguardPeer.not_has hflags (by decide)
  have hadded : ¬(continuationChunk keys batch).Has .replaceAllowedIps :=
    WireguardPeer.not_has hflags (by decide)
  have hstate : (continuationChunk keys batch).attributes.foldl K.setPeerAttribute s = s := by
    simp [continuationChunk, Kernel.setPeerAttribute, PeerState.set]
  rw [setPeer_present hkey h, if_neg hkept, Kernel.updatePeer, hstate,
    if_neg hadded, ← h, Function.update_eq_self]
  simp [WireguardPeer.allowedIps, continuationChunk, WireguardPeerAttribute.allowedIps?]

theorem foldl_continuationChunk (keys : Keys) (rest : List (List WireguardAllowedIp))
    (h : D.peers keys.publicKey = some s) :
    (rest.map (continuationChunk keys)).foldl K.setPeer D =
      { D with owner := rest.flatten.foldl (K.setAllowedIp keys.publicKey) D.owner } := by
  induction rest generalizing D with
  | nil => rfl
  | cons batch rest ih =>
    rw [List.map_cons, List.foldl_cons, setPeer_continuationChunk keys batch h]
    have hrest := ih (D := { D with owner := batch.foldl (K.setAllowedIp keys.publicKey) D.owner }) h
    rw [hrest, List.flatten_cons, List.foldl_append]

-- ---------------------------------------------------------------------------
-- Whole peers
-- ---------------------------------------------------------------------------

/-- The entry `b` is the entry `a` with more allowed IPs. -/
structure Extends (K : Kernel) (a b : WireguardPeer) (more : List WireguardAllowedIp) : Prop where
  publicKey : b.publicKey? = a.publicKey?
  flags : b.flags = a.flags
  state : ∀ s, b.attributes.foldl K.setPeerAttribute s = a.attributes.foldl K.setPeerAttribute s
  allowedIps : b.allowedIps = a.allowedIps ++ more

theorem Extends.has (h : Extends K a b more) : b.Has flag ↔ a.Has flag := by
  rw [WireguardPeer.Has, h.flags, WireguardPeer.Has]

theorem Extends.updatePeer (h : Extends K a b more) (D : Device) (key : Key) (s : PeerState) :
    K.updatePeer D key s b =
      { K.updatePeer D key s a with
        owner := more.foldl (K.setAllowedIp key) (K.updatePeer D key s a).owner } := by
  simp [Kernel.updatePeer, h.has, h.state, h.allowedIps]

theorem extends_insert (K : Kernel) (before after : List WireguardPeerAttribute)
    (ips : List WireguardAllowedIp)
    (hafter : after.filterMap WireguardPeerAttribute.allowedIps? = []) :
    Extends K ⟨before ++ after⟩ ⟨before ++ [.allowedIps ips] ++ after⟩ ips where
  publicKey := by
    simp [WireguardPeer.publicKey?, List.findSome?_append, WireguardPeerAttribute.publicKey?]
  flags := by simp [WireguardPeer.flags, List.findSome?_append, WireguardPeerAttribute.flags?]
  state s := by simp [Kernel.setPeerAttribute, PeerState.set]
  allowedIps := by simp [WireguardPeer.allowedIps, hafter]

theorem emit_findSome? (property : Option α) (attr : α → β) (value? : β → Option γ) :
    (emit property attr).findSome? value? = property.bind fun v => value? (attr v) := by
  cases property <;> simp

variable (p : WireguardPeerParsed) (keys : Keys)

def bare : WireguardPeer := ⟨p.stateAttributes keys⟩

theorem bare_publicKey? : (p.bare keys).publicKey? = some keys.publicKey := by
  simp [WireguardPeer.publicKey?, bare, stateAttributes, attributesBefore, attributesAfter,
    emit_findSome?, WireguardPeerAttribute.publicKey?, List.findSome?_append]

theorem bare_flags :
    (p.bare keys).flags = WireguardParsedPeerFlags.bitsOf (p.flags.getD []) := by
  cases hflags : p.flags <;>
    simp [WireguardPeer.flags, bare, stateAttributes, attributesBefore, attributesAfter,
      emit_findSome?, WireguardPeerAttribute.flags?, hflags, List.findSome?_append]
  rfl

theorem extends_firstChunk (K : Kernel) (batch : List WireguardAllowedIp) :
    Extends K (p.bare keys) (p.firstChunk keys batch) batch := by
  have hinsert := extends_insert K (p.stateAttributes keys) [] batch rfl
  simpa [bare, firstChunk] using hinsert

theorem extends_attributes (K : Kernel) (hips : p.allowedIps = some ips) :
    Extends K (p.bare keys) ⟨p.attributes keys⟩ (ips.map WireguardIpAddress.toAllowedIp) := by
  have hafter : p.attributesAfter.filterMap WireguardPeerAttribute.allowedIps? = [] := by
    simp [attributesAfter, filterMap_emit, WireguardPeerAttribute.allowedIps?]
  have hinsert := extends_insert K (p.attributesBefore keys) p.attributesAfter
    (ips.map WireguardIpAddress.toAllowedIp) hafter
  simpa [bare, attributes, stateAttributes, ipAttributes, hips] using hinsert

theorem Extends.setPeer (h : Extends K a b more) (hkey : a.publicKey? = some key)
    (hkept : ¬a.Has .removeMe) (hpresent : (D.peers key).isSome ∨ ¬a.Has .updateOnly) :
    ∃ s, (K.setPeer D a).peers key = some s ∧
      K.setPeer D b =
        { K.setPeer D a with
          owner := more.foldl (K.setAllowedIp key) (K.setPeer D a).owner } := by
  have hcase {peer : WireguardPeer} (hkey : peer.publicKey? = some key)
      (hkept : ¬peer.Has .removeMe) (hpresent : (D.peers key).isSome ∨ ¬peer.Has .updateOnly) :
      K.setPeer D peer = K.updatePeer D key ((D.peers key).getD {}) peer := by
    rcases setPeer_cases (K := K) (D := D) hkey with ⟨habsent, hr | hu, -⟩ | ⟨-, hr, -⟩ | ⟨-, -, h⟩
    · exact absurd hr hkept
    · exact hpresent.elim (fun hp => by simp [habsent] at hp) (fun hnot => absurd hu hnot)
    · exact absurd hr hkept
    · exact h
  rw [hcase hkey hkept hpresent,
    hcase (h.publicKey.trans hkey) (fun hr => hkept (h.has.mp hr))
      (hpresent.imp_right fun hnot hu => hnot (h.has.mp hu)), h.updatePeer]
  exact ⟨_, Function.update_self .., rfl⟩

theorem Extends.setPeer_nil (h : Extends K a b []) : K.setPeer D b = K.setPeer D a := by
  have hupdate (key : Key) (s : PeerState) : K.updatePeer D key s b = K.updatePeer D key s a :=
    h.updatePeer D key s
  simp [Kernel.setPeer, h.publicKey, h.has, hupdate]

theorem Extends.rest (h : Extends K a b more) (h' : Extends K a c (more ++ further)) :
    Extends K b c further where
  publicKey := h'.publicKey.trans h.publicKey.symm
  flags := h'.flags.trans h.flags.symm
  state s := (h'.state s).trans (h.state s).symm
  allowedIps := by rw [h'.allowedIps, h.allowedIps, List.append_assoc]

theorem setPeer_removes (hkey : peer.publicKey? = some key) (hr : peer.Has .removeMe) :
    K.setPeer D peer = if (D.peers key).isSome then D.removePeer key else D := by
  rcases setPeer_cases (K := K) (D := D) hkey with ⟨hpeer, -, h⟩ | ⟨hpeer, -, h⟩ | ⟨hkept, -, -⟩
  · simp [h, hpeer]
  · simp [h, hpeer]
  · exact absurd hr hkept

namespace Checked

variable [Base64.Engine] (e : Checked)

theorem bare_has : (e.peer.bare e.keys).Has flag ↔
    Bitflags.Contains (WireguardParsedPeerFlags.bitsOf (e.peer.flags.getD [])) flag := by
  rw [WireguardPeer.Has, bare_flags]

theorem whole_eq_bare (h : e.peer.allowedIps = none) : e.whole = e.peer.bare e.keys := by
  simp [whole, bare, attributes, stateAttributes, ipAttributes, h]

theorem setPeer_bare (h : e.peer.allowedIps = none ∨ e.peer.Removes) :
    K.setPeer D (e.peer.bare e.keys) = K.setPeer D e.whole := by
  cases hips : e.peer.allowedIps with
  | none => rw [e.whole_eq_bare hips]
  | some ips =>
    have hext : Extends K (e.peer.bare e.keys) e.whole _ := extends_attributes e.peer e.keys K hips
    have hr : (e.peer.bare e.keys).Has .removeMe :=
      e.bare_has.mpr (h.resolve_left fun hnone => by simp [hnone] at hips)
    rw [setPeer_removes (bare_publicKey? e.peer e.keys) hr,
      setPeer_removes (hext.publicKey.trans (bare_publicKey? e.peer e.keys)) (hext.has.mpr hr)]

/-- The chunks of a peer change a device like the peer does, unless the first
one is skipped and another one follows. -/
theorem foldl_chunks
    (h : e.peer.UpdatesOnly → (D.peers e.keys.publicKey).isSome ∨ e.chunks.length = 1) :
    e.chunks.foldl K.setPeer D = K.setPeer D e.whole := by
  rcases e.chunks_cases with ⟨hbare, hchunks⟩ | ⟨ips, first, rest, hips, hkept, hchunks, hall, -⟩
  · rw [hchunks]
    exact e.setPeer_bare hbare
  · have hfirst : Extends K (e.peer.bare e.keys) (e.peer.firstChunk e.keys first) first :=
      extends_firstChunk e.peer e.keys K first
    have hwhole : Extends K (e.peer.firstChunk e.keys first) e.whole rest.flatten :=
      hfirst.rest (hall ▸ extends_attributes e.peer e.keys K hips)
    rw [hchunks, List.foldl_cons]
    by_cases hrest : rest = []
    · subst hrest
      exact hwhole.setPeer_nil.symm
    · -- The peer is there when the second chunk arrives.
      have hlength : e.chunks.length ≠ 1 := by simpa [hchunks] using hrest
      have hpresent : (D.peers e.keys.publicKey).isSome ∨
          ¬(e.peer.firstChunk e.keys first).Has .updateOnly := by
        by_cases hu : e.peer.UpdatesOnly
        · exact .inl ((h hu).resolve_right hlength)
        · exact .inr fun hhas => hu (e.bare_has.mp (hfirst.has.mp hhas))
      obtain ⟨s, hs, heq⟩ := hwhole.setPeer (D := D)
        (hfirst.publicKey.trans (bare_publicKey? e.peer e.keys))
        (fun hr => hkept (e.bare_has.mp (hfirst.has.mp hr))) hpresent
      rw [foldl_continuationChunk e.keys rest hs, heq]

theorem publicKey?_whole : e.whole.publicKey? = some e.keys.publicKey := by
  simp [WireguardPeer.publicKey?, whole, attributes, attributesBefore, attributesAfter,
    ipAttributes, emit_findSome?, WireguardPeerAttribute.publicKey?, List.findSome?_append]

theorem flags_whole :
    e.whole.flags = WireguardParsedPeerFlags.bitsOf (e.peer.flags.getD []) := by
  cases hips : e.peer.allowedIps with
  | none =>
    have hbare : e.whole = e.peer.bare e.keys := by
      simp [whole, bare, attributes, stateAttributes, ipAttributes, hips]
    rw [hbare, bare_flags]
  | some ips => rw [whole, (extends_attributes e.peer e.keys Kernel.sample hips).flags, bare_flags]

theorem allowedIps_whole :
    e.whole.allowedIps = (e.peer.allowedIps.getD []).map WireguardIpAddress.toAllowedIp := by
  cases hips : e.peer.allowedIps <;>
    simp [WireguardPeer.allowedIps, whole, attributes, attributesBefore, attributesAfter,
      ipAttributes, hips, filterMap_emit, WireguardPeerAttribute.allowedIps?]

end Checked

end WireguardPeerParsed

-- ---------------------------------------------------------------------------
-- Messages
-- ---------------------------------------------------------------------------

namespace Device

theorem setAttribute_answers (D : Device) (attr : WireguardAttribute) :
    (D.setAttribute attr).answers = D.answers := by
  funext other
  cases attr <;> cases other <;> rfl

theorem setAttributes_answers (D : Device) (attrs : List WireguardAttribute) :
    (D.setAttributes attrs).answers = D.answers := by
  unfold setAttributes
  rw [foldl_frame answers (fun D attr _ => D.setAttribute_answers attr)]
  split <;> rfl

theorem setAttributes_peers (D : Device) (attrs : List WireguardAttribute)
    (peers : List WireguardPeer) :
    D.setAttributes (attrs ++ [.peers peers]) = D.setAttributes attrs := by
  have hflags : (attrs ++ [WireguardAttribute.peers peers]).findSome? WireguardAttribute.flags? =
      attrs.findSome? WireguardAttribute.flags? := by
    simp [List.findSome?_append, WireguardAttribute.flags?]
  rw [setAttributes, setAttributes, hflags, List.foldl_append]
  rfl

theorem setAttributes_fixed {attrs : List WireguardAttribute}
    (h : ∀ attr ∈ attrs, attr.flags? = none ∧ D.setAttribute attr = D) :
    D.setAttributes attrs = D := by
  have hnone : attrs.findSome? WireguardAttribute.flags? = none :=
    List.findSome?_eq_none_iff.mpr fun attr hattr => (h attr hattr).1
  have hzero : ¬Bitflags.Contains 0#32 WireguardDeviceFlags.replacePeers := by decide
  rw [setAttributes, hnone]
  exact (congrArg (attrs.foldl setAttribute) (if_neg hzero)).trans
    (foldl_fixed fun attr hattr => (h attr hattr).2)

theorem setAttributes_iface (D : Device) (h : iface.isIface) : D.setAttributes [iface] = D := by
  refine setAttributes_fixed fun attr hattr => ?_
  obtain rfl := List.mem_singleton.mp hattr
  cases attr <;> first | exact ⟨rfl, rfl⟩ | exact nomatch h

end Device

/-- A message is applied when it names the device: first what it says about the
device, then its peers. -/
theorem setDevice_peers (K : Kernel) (D : Device) (cmd : WireguardCmd)
    (attrs : List WireguardAttribute) (peers : List WireguardPeer)
    (hattrs : attrs.filterMap WireguardAttribute.peers? = []) :
    K.setDevice D ⟨cmd, attrs ++ [.peers peers]⟩ =
      if attrs.any D.answers then peers.foldl K.setPeer (D.setAttributes attrs) else D := by
  simp [Kernel.setDevice, hattrs, Device.setAttributes_peers, Device.answers]

namespace WireguardParsed

variable [Base64.Engine] {c : WireguardParsed}

/-- The configuration as one message, however long. -/
def unsplit (c : WireguardParsed) (cmd : WireguardCmd) : Except WireguardError WireguardMessage := do
  let attributes ← c.deviceAttributes
  let peers ← (c.peers.getD []).mapM fun peer => peer.build
  return ⟨cmd, attributes ++ [.peers peers]⟩

theorem Plan.unsplit (plan : c.Plan) (cmd : WireguardCmd) :
    c.unsplit cmd =
      .ok ⟨cmd, c.attributes plan.iface plan.keys ++ [.peers (plan.entries.map (·.whole))]⟩ := by
  have hpeers : (c.peers.getD []).mapM (fun peer => peer.build) =
      .ok (plan.entries.map (·.whole)) := by
    rw [plan.peers_eq, ExceptLaws.mapM_ok, List.forall₂_map_left_iff, List.forall₂_map_right_iff,
      List.forall₂_same]
    exact fun e _ => e.build
  simp [WireguardParsed.unsplit, deviceAttributes_eq plan.accepted, hpeers, pure, Except.pure]

omit [Base64.Engine] in
theorem foldl_further (hiface : iface.isIface) (rest : List (List WireguardPeer)) :
    (rest.map fun peers => WireguardMessage.mk cmd [iface, .peers peers]).foldl K.setDevice D =
      if D.answers iface then rest.flatten.foldl K.setPeer D else D := by
  induction rest generalizing D with
  | nil => simp
  | cons peers rest ih =>
    have hnone : [iface].filterMap WireguardAttribute.peers? = [] := by
      cases iface <;> simp_all [WireguardAttribute.isIface, WireguardAttribute.peers?]
    have hstep := setDevice_peers K D cmd [iface] peers hnone
    rw [Device.setAttributes_iface D hiface] at hstep
    simp only [List.map_cons, List.foldl_cons, List.singleton_append] at hstep ⊢
    rw [hstep, ih]
    by_cases hanswers : D.answers iface
    · simp [hanswers, foldl_setPeer_answers]
    · simp [hanswers]

namespace Plan

theorem any_answers (plan : c.Plan) (D : Device) :
    (c.attributes plan.iface plan.keys).any D.answers = D.answers plan.iface := by
  have hiface : ∀ attr, (attr.isIface && D.answers attr) = D.answers attr := by
    intro attr
    cases attr <;> rfl
  have hany := List.any_filter (l := c.attributes plan.iface plan.keys)
    (p := WireguardAttribute.isIface) (q := D.answers)
  simp only [hiface, plan.filter_iface] at hany
  simpa using hany.symm

/-- What a device is after all messages: its attributes are set, then all
chunks are applied. -/
theorem foldl_setDevice (plan : c.Plan) (K : Kernel) (D : Device) :
    (plan.messages cmd).foldl K.setDevice D =
      if D.answers plan.iface then
        plan.chunks.foldl K.setPeer (D.setAttributes (c.attributes plan.iface plan.keys))
      else D := by
  obtain ⟨first, rest, hbins, -, hchunks⟩ := plan.exists_bins
  have hiface : plan.iface.isIface := by
    rcases plan.iface_cases with ⟨_, h⟩ | ⟨_, h⟩ <;> rw [h] <;> rfl
  have hfirst : K.setDevice D ⟨cmd, c.attributes plan.iface plan.keys ++
      emit c.peers fun _ => .peers first⟩ =
      if D.answers plan.iface then
        first.foldl K.setPeer (D.setAttributes (c.attributes plan.iface plan.keys))
      else D := by
    cases hc : c.peers with
    | none =>
      have hnil : first = [] :=
        (List.append_eq_nil_iff.mp (hchunks.trans (plan.chunks_eq_nil hc))).1
      simp [Kernel.setDevice, plan.any_answers, plan.filterMap_peers, hnil]
    | some peers =>
      rw [emit_some, setDevice_peers K D cmd _ first plan.filterMap_peers, plan.any_answers]
  rw [plan.messages_shaped hbins, shaped, List.foldl_cons, hfirst, foldl_further hiface]
  by_cases hanswers : D.answers plan.iface
  · simp only [hanswers, ↓reduceIte, foldl_setPeer_answers, Device.setAttributes_answers]
    rw [← List.foldl_append, hchunks]
  · simp [hanswers]

theorem foldl_chunks (plan : c.Plan) (K : Kernel) (D : Device)
    (h : ∀ e ∈ plan.entries, ¬e.peer.UpdatesOnly) :
    plan.chunks.foldl K.setPeer D = (plan.entries.map (·.whole)).foldl K.setPeer D := by
  unfold chunks
  generalize plan.entries = entries at h ⊢
  induction entries generalizing D with
  | nil => rfl
  | cons e entries ih =>
    have he : ¬e.peer.UpdatesOnly := h e (by simp)
    rw [List.map_cons, List.flatten_cons, List.foldl_append, List.map_cons, List.foldl_cons,
      e.foldl_chunks fun hu => absurd hu he, ih _ fun e' he' => h e' (List.mem_cons_of_mem _ he')]

end Plan

/-- Splitting a configuration over messages and chunks does not change what is
configured. -/
theorem buildMessages_apply (h : c.buildMessages .setDevice = .ok ms)
    (hcreates : ∀ p ∈ c.peers.getD [], ¬p.UpdatesOnly) (K : Kernel) (D : Device) :
    ∃ m, c.unsplit .setDevice = .ok m ∧ ms.foldl K.setDevice D = K.setDevice D m := by
  obtain ⟨plan, rfl⟩ := buildMessages_plan.mp h
  have hentries : ∀ e ∈ plan.entries, ¬e.peer.UpdatesOnly := by
    intro e he
    refine hcreates e.peer ?_
    rw [plan.peers_eq]
    exact List.mem_map_of_mem he
  refine ⟨_, plan.unsplit .setDevice, ?_⟩
  rw [plan.foldl_setDevice, setDevice_peers K D _ _ _ plan.filterMap_peers, plan.any_answers,
    plan.foldl_chunks K _ hentries]

omit [Base64.Engine] in
theorem buildMessages_apply_sample :
    ∃ m, @unsplit Base64.standard (@largeConfig Base64.standard [] 3000) .setDevice = .ok m ∧
      (@Plan.messages Base64.standard _ (@largePlan Base64.standard [] 3000) .setDevice).foldl
        Kernel.sample.setDevice Device.sample = Kernel.sample.setDevice Device.sample m :=
  letI := Base64.standard
  buildMessages_apply (built_large [] 3000 .setDevice)
    (fun _ hp => List.mem_singleton.mp hp ▸ WireguardPeerParsed.not_updatesOnly_large 3000)
    Kernel.sample Device.sample

end WireguardParsed

end NlWireguard
