import NlWireguard.Served
import NlWireguard.Validation

/-!
# Removing a peer

`removePeer` sends at most one request. Whatever happens to it, the peer is
removed with all its networks or the device is as before. It is as before, too,
if it does not have the peer or has another name.
-/

namespace NlWireguard

open Folds

variable {K : Kernel} {D E : Device} {link : Link} {device : List NetlinkMessage → Device}

-- ---------------------------------------------------------------------------
-- The message
-- ---------------------------------------------------------------------------

def removeMessage (ifaceName : String) (key : Key) : WireguardMessage :=
  ⟨.setDevice,
    [.ifName ifaceName, .peers [⟨[.publicKey key, .flags WireguardPeerFlags.removeMe]⟩]]⟩

theorem Device.Owned.removePeer_absent (h : D.Owned) (habsent : D.peers key = none) :
    D.removePeer key = D := by
  rw [Device.removePeer, h.release habsent, ← habsent, Function.update_eq_self]

/-- The device without the peer of the interface. -/
def Device.without (D : Device) (ifaceName : String) (key : Key) : Device :=
  if ifaceName = D.ifName then D.removePeer key else D

theorem Device.Owned.without_absent (h : D.Owned)
    (habsent : ifaceName ≠ D.ifName ∨ D.peers key = none) : D.without ifaceName key = D := by
  unfold Device.without
  split
  · exact h.removePeer_absent (habsent.resolve_left (not_not_intro ‹_›))
  · rfl

/-- The message changes one thing, if anything. -/
theorem changes_remove (K : Kernel) (D : Device) (key : Key) :
    ∃ inert, (∀ c ∈ inert, ∀ E, K.change E c = E) ∧
      K.changes D (removeMessage D.ifName key) =
        inert ++ if D.peers key = none then [] else [.removePeer key] := by
  let attrs := (removeMessage D.ifName key).attributes
  let peer : WireguardPeer := ⟨[.publicKey key, .flags WireguardPeerFlags.removeMe]⟩
  have hremoves : peer.Has .removeMe := by
    have hflags : peer.flags = WireguardPeerFlags.removeMe := rfl
    unfold WireguardPeer.Has
    rw [hflags]
    decide
  have hzero : ¬Bitflags.Contains ((attrs.findSome? (·.flags?)).getD 0)
      WireguardDeviceFlags.replacePeers := by
    have hnone : (attrs.findSome? (·.flags?)).getD 0 = 0 := rfl
    rw [hnone]
    decide
  have hinert : ∀ c ∈ attributeChanges attrs, ∀ E, K.change E c = E := by
    intro c hc E
    rcases mem_attributeChanges.mp hc with ⟨hreplaces, -⟩ | ⟨attr, hattr, rfl⟩
    · exact absurd hreplaces hzero
    · simp only [attrs, removeMessage, List.mem_cons, List.not_mem_nil, or_false] at hattr
      rcases hattr with rfl | rfl <;> rfl
  have hanswers : (removeMessage D.ifName key).attributes.any D.answers := by
    simp [removeMessage, Device.answers]
  have hsame : D.setAttributes attrs = D := by
    rw [setAttributes_changes K]
    exact foldl_fixed fun c hc => hinert c hc D
  refine ⟨attributeChanges attrs, hinert, ?_⟩
  have hentry : D.entryChanges peer = if D.peers key = none then [] else [.removePeer key] := by
    have hkey : peer.publicKey? = some key := rfl
    rw [entryChanges_key hkey, WireguardPeer.changes, if_pos hremoves]
    simp only [hremoves, true_or, and_true]
  have hentries : K.entriesChanges D [peer] = D.entryChanges peer := List.append_nil _
  rw [Kernel.changes, if_pos hanswers, ← hentry, ← hentries]
  exact congrArg (_ ++ K.entriesChanges · _) hsame

theorem changes_elsewhere (K : Kernel) (key : Key) (hname : ifaceName ≠ D.ifName) :
    K.changes D (removeMessage ifaceName key) = [] :=
  if_neg (by simp [removeMessage, Device.answers, hname])

theorem setDevice_remove (howned : D.Owned) (ifaceName : String) (key : Key) :
    K.setDevice D (removeMessage ifaceName key) = D.without ifaceName key := by
  unfold Device.without
  rw [setDevice_changes]
  split
  · subst ifaceName
    obtain ⟨inert, hinert, hchanges⟩ := changes_remove K D key
    rw [hchanges, List.foldl_append, foldl_fixed fun c hc => hinert c hc D]
    split
    · exact (howned.removePeer_absent ‹_›).symm
    · rfl
  · rw [changes_elsewhere K key ‹_›, List.foldl_nil]

/-- A part of the message is nothing or all of it. -/
theorem part_remove (h : K.AppliesPart D (removeMessage ifaceName key) E) :
    E = D ∨ E = D.without ifaceName key := by
  obtain ⟨cs, hcs, rfl⟩ := h
  unfold Device.without
  split
  · subst ifaceName
    obtain ⟨inert, hinert, hchanges⟩ := changes_remove K D key
    rw [hchanges] at hcs
    split at hcs
    · rw [List.append_nil] at hcs
      exact .inl (foldl_fixed fun c hc => hinert c (hcs.subset hc) D)
    · rcases List.prefix_concat_iff.mp hcs with rfl | hcs
      · refine .inr ?_
        rw [List.foldl_append, foldl_fixed fun c hc => hinert c hc D]
        rfl
      · exact .inl (foldl_fixed fun c hc => hinert c (hcs.subset hc) D)
  · rw [changes_elsewhere K key ‹_›, List.prefix_nil] at hcs
    rw [hcs]
    exact .inl rfl

theorem attempt_remove (h : K.Attempts [removeMessage ifaceName key] D E) :
    E = D ∨ E = D.without ifaceName key := by
  obtain ⟨sent, hsent, hparts⟩ := h
  rcases List.prefix_cons_iff.mp hsent with rfl | ⟨rest, rfl, hrest⟩
  · cases hparts
    exact .inl rfl
  · obtain rfl := List.prefix_nil.mp hrest
    cases hparts with
    | cons hpart hnil =>
      cases hnil
      exact part_remove hpart

-- ---------------------------------------------------------------------------
-- The call
-- ---------------------------------------------------------------------------

variable [Base64.Engine]

def removing (ifaceName publicKey : String) : WireguardParsed where
  ifaceName := some ifaceName
  peers := some [.remove publicKey]

theorem remove_messages (hname : ¬NameRejected ifaceName) (key : Key) :
    (removing ifaceName (encodeKey key)).buildMessages .setDevice =
      .ok [removeMessage ifaceName key] := by
  obtain ⟨hlen, hnul⟩ := not_or.mp hname
  let plan : (removing ifaceName (encodeKey key)).Plan :=
    { iface := .ifName ifaceName
      keys := ⟨none, none⟩
      accepted := ⟨WireguardParsed.ifaceAttribute_name rfl (Nat.not_le.mp hlen) hnul, rfl, rfl⟩
      entries := [⟨.remove (encodeKey key), ⟨key, none⟩,
        ⟨rfl, rfl, by simp [WireguardPeerParsed.remove]⟩⟩]
      peers_eq := rfl }
  rw [WireguardParsed.buildMessages_plan.mpr ⟨plan, rfl⟩]
  rfl

/-- The key is looked at before the name. -/
theorem remove_invalidKey (ifaceName : String) (hkey : ¬KeyText text) :
    ∃ e, (removing ifaceName text).buildMessages .setDevice = .error e ∧ e.kind = .invalidKey := by
  have hinputs : (WireguardPeerParsed.remove text).InputsValid :=
    ⟨rfl, by simp [WireguardPeerParsed.remove]⟩
  cases h : peerChunks (.remove text) with
  | ok chunks =>
    obtain ⟨keys, haccepted, -⟩ := WireguardPeerParsed.peerChunks_ok.mp h
    exact absurd ⟨keys.publicKey, Option.some.inj haccepted.publicKey⟩ hkey
  | error e =>
    rcases (WireguardPeerParsed.peerChunks_fault h).kind with ⟨hkind, -⟩ | ⟨-, hnot⟩
    · refine ⟨e, ?_, hkind⟩
      simp only [WireguardParsed.buildMessages, removing, Option.getD_some, List.foldlM_cons,
        WireguardParsed.pushPeerChunks, h]
      rfl
    · exact absurd hinputs hnot

theorem remove_invalidName (hname : NameRejected ifaceName) (key : Key) :
    ∃ e, (removing ifaceName (encodeKey key)).buildMessages .setDevice = .error e ∧
      e.kind = .invalidInput := by
  have hkeys : (removing ifaceName (encodeKey key)).KeysValid := by
    refine ⟨fun _ h => (nomatch h), fun _ h => (nomatch h), fun p hp => ?_⟩
    obtain rfl := List.mem_singleton.mp hp
    exact ⟨fun text htext => ⟨key, (Option.some.inj htext).symm⟩, fun _ h => (nomatch h)⟩
  cases h : (removing ifaceName (encodeKey key)).buildMessages .setDevice with
  | ok ms =>
    rcases (WireguardParsed.buildMessages_isOk.mp ⟨ms, h⟩).1.iface with
      ⟨_, hsome, hlen, hnul⟩ | ⟨hnone, -⟩
    · cases hsome
      exact (hname.elim (absurd · (Nat.not_le.mpr hlen)) (absurd · hnul))
    · exact nomatch hnone
  | error e =>
    rcases (WireguardParsed.buildMessages_fault h).kind with ⟨-, hnot⟩ | ⟨hkind, -⟩
    · exact absurd hkeys hnot
    · exact ⟨e, rfl, hkind⟩

/-- A call of `removePeer`, from the device `D` to the device `E`. -/
inductive Removal (D E : Device) (ifaceName text : String) (acknowledged : Prop) : SetRun → Prop
  | invalidKey (hkey : ¬KeyText text) (hkind : e.kind = .invalidKey) (hE : E = D) :
    Removal D E ifaceName text acknowledged ⟨[], .error e⟩
  | invalidName (hkey : text = encodeKey key) (hname : NameRejected ifaceName)
      (hkind : e.kind = .invalidInput) (hE : E = D) :
    Removal D E ifaceName text acknowledged ⟨[], .error e⟩
  | failed (hkey : text = encodeKey key) (hname : ¬NameRejected ifaceName)
      (hE : E = D ∨ E = D.without ifaceName key) :
    Removal D E ifaceName text acknowledged ⟨[removeMessage ifaceName key], .error e⟩
  /-- The stream of the replies ended without an acknowledgement. -/
  | unconfirmed (hkey : text = encodeKey key) (hname : ¬NameRejected ifaceName)
      (hlost : ¬acknowledged) (hE : E = D ∨ E = D.without ifaceName key) :
    Removal D E ifaceName text acknowledged ⟨[removeMessage ifaceName key], .ok ()⟩
  | removed (hkey : text = encodeKey key) (hname : ¬NameRejected ifaceName)
      (hconfirmed : acknowledged) (hE : E = D.without ifaceName key) :
    Removal D E ifaceName text acknowledged ⟨[removeMessage ifaceName key], .ok ()⟩

/-- There is nothing to remove on another interface, or without the peer. -/
theorem Removal.absent {run : SetRun} {acknowledged : Prop}
    (h : Removal D E ifaceName (encodeKey key) acknowledged run) (howned : D.Owned)
    (habsent : ifaceName ≠ D.ifName ∨ D.peers key = none) : E = D := by
  have hsame : D.without ifaceName key = D := howned.without_absent habsent
  cases h with
  | invalidKey _ _ hE => exact hE
  | invalidName _ _ _ hE => exact hE
  | failed hkey _ hE =>
    obtain rfl := encodeKey_injective hkey
    exact hE.elim id (·.trans hsame)
  | unconfirmed hkey _ _ hE =>
    obtain rfl := encodeKey_injective hkey
    exact hE.elim id (·.trans hsame)
  | removed hkey _ _ hE =>
    obtain rfl := encodeKey_injective hkey
    exact hE.trans hsame

variable [OsError]

theorem set_single {c : WireguardParsed} (hms : c.buildMessages .setDevice = .ok [m]) :
    set link c = ⟨[m], (set link c).result⟩ := by
  have hrun : set link c = setLoop link.requester 1 0 [] [m] := by
    rw [set, setWith, hms]
    rfl
  have hsent : (set link c).sent = [m] := by
    rw [hrun]
    rcases setLoop_cons link.requester 1 0 [] [] m with ⟨_, _, -, -, -, h⟩ | ⟨-, h⟩
    · rw [h]
      rfl
    · rw [h, setLoop]
      rfl
  rw [← hsent]

theorem removePeer_eq (link : Link) (ifaceName text : String) :
    removePeer link ifaceName text = set link (removing ifaceName text) := rfl

/-- A peer is removed as a whole or not at all, and an acknowledged call has
removed it. Nothing else changes, and nothing at all if there is no such peer. -/
theorem removePeer_removal (hserves : link.Serves K device) (howned : (device []).Owned)
    (ifaceName text : String) :
    let run := removePeer link ifaceName text
    Removal (device []) (device run.requests) ifaceName text (run.Acknowledged link) run ∧
      ∀ key, text = encodeKey key → ifaceName ≠ (device []).ifName ∨ (device []).peers key = none →
        device run.requests = device [] := by
  intro run
  have hremoval : Removal (device []) (device run.requests) ifaceName text
      (run.Acknowledged link) run := by
    have hset : run = set link (removing ifaceName text) := removePeer_eq link ifaceName text
    by_cases hkey : KeyText text
    · obtain ⟨key, rfl⟩ := hkey
      by_cases hname : NameRejected ifaceName
      · obtain ⟨e, he, hkind⟩ := remove_invalidName hname key
        rw [hset, set_rejected he]
        exact .invalidName rfl hname hkind rfl
      · have hms := remove_messages hname key
        obtain ⟨hattempt, hok⟩ := set_served hserves hms
        rw [← hset] at hattempt hok
        have hpart := attempt_remove hattempt
        have hrun : run = ⟨[removeMessage ifaceName key], run.result⟩ := hset ▸ set_single hms
        generalize hE : device run.requests = E at hpart hok ⊢
        generalize hacks : run.Acknowledged link = acknowledged at hok ⊢
        rw [hrun]
        cases hresult : run.result with
        | ok _ =>
          by_cases hack : acknowledged
          · exact .removed rfl hname hack ((hok hresult hack).trans (setDevice_remove howned _ key))
          · exact .unconfirmed rfl hname hack hpart
        | error e => exact .failed rfl hname hpart
    · obtain ⟨e, he, hkind⟩ := remove_invalidKey ifaceName hkey
      rw [hset, set_rejected he]
      exact .invalidKey hkey hkind rfl
  refine ⟨hremoval, fun key hkey habsent => ?_⟩
  subst hkey
  exact hremoval.absent howned habsent

def removalMessage : WireguardMessage :=
  removeMessage WireguardParsed.sampleDevice.ifName WireguardParsed.sampleKey

def sampleRemoval : WireguardParsed :=
  removing WireguardParsed.sampleDevice.ifName (encodeKey WireguardParsed.sampleKey)

omit [OsError] in
theorem built_removal : sampleRemoval.buildMessages .setDevice = .ok [removalMessage] :=
  remove_messages (not_or.mpr ⟨by decide, by decide⟩) WireguardParsed.sampleKey

omit [OsError] [Base64.Engine] in
/-- The first call fails, the second one succeeds. -/
theorem removePeer_removal_sample :
    let D := WireguardParsed.sampleDevice
    let text := @encodeKey Base64.standard WireguardParsed.sampleKey
    let failed := @removePeer Base64.standard OsError.linux busyLink "wg0" text
    let link := busyLink.after [setRequest removalMessage]
    let removed := @removePeer Base64.standard OsError.linux link "wg0" text
    @Removal Base64.standard D (busyDevice .sample D failed.requests) "wg0" text
        (failed.Acknowledged busyLink) failed ∧
      (removed.result = .ok () ∧ removed.Acknowledged link) ∧
      @Removal Base64.standard D
        (busyDevice .sample D (setRequest removalMessage :: removed.requests)) "wg0" text
        (removed.Acknowledged link) removed := by
  let _ := Base64.standard
  let _ := OsError.linux
  have hserves := busyLink_serves .sample WireguardParsed.sampleDevice
  have hafter := hserves.after [setRequest removalMessage]
  obtain ⟨hrun, hacks⟩ := @set_acknowledged [removalMessage]
    (busyLink.after [setRequest removalMessage]) _ _ sampleRemoval (fun _ _ _ => rfl) built_removal
  refine ⟨(removePeer_removal hserves sound_sample.owned "wg0" _).1, ⟨?_, hacks⟩,
    (removePeer_removal hafter sound_sample.owned "wg0" _).1⟩
  exact congrArg SetRun.result hrun

end NlWireguard
