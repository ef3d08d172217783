import NlWireguard.Apply
import NlWireguard.Lib.Repeats

/-!
# Devices changed step by step

What a message does to a device, as a list of changes of one property, one peer
or one peer's networks each. A change does the same wherever it stands, so it
can be said what a message does which is given up in the middle, and what
happens when it is sent again.
-/

namespace NlWireguard

open Folds

variable {K : Kernel} {D E : Device}

-- ---------------------------------------------------------------------------
-- Networks
-- ---------------------------------------------------------------------------

/-- Every network belongs to a peer of the device. -/
def Device.Owned (D : Device) : Prop := ∀ net key, D.owner net = some key → (D.peers key).isSome

theorem Device.Owned.release (h : D.Owned) (habsent : D.peers key = none) :
    release D.owner key = D.owner := by
  funext net
  refine if_neg fun howner => ?_
  simpa [habsent] using h net key howner

def WireguardAllowedIp.Removes (ip : WireguardAllowedIp) : Prop :=
  Bitflags.Contains ((ip.attributes.findSome? (·.flags?)).getD 0) WireguardAllowedIpFlags.removeMe

instance (ip : WireguardAllowedIp) : Decidable ip.Removes := inferInstanceAs (Decidable (_ = _))

/-- The network an allowed IP stands for. -/
def Kernel.network? (K : Kernel) (ip : WireguardAllowedIp) : Option Network :=
  match ip.attributes.findSome? (·.ipAddr?), ip.attributes.findSome? (·.cidr?) with
  | some addr, some prefixLength => some (K.network addr prefixLength, prefixLength)
  | _, _ => none

theorem setAllowedIp_apply (K : Kernel) (key : Key) (owner : Network → Option Key)
    (ip : WireguardAllowedIp) (net : Network) :
    K.setAllowedIp key owner ip net =
      if K.network? ip = some net then
        if ip.Removes then if owner net = some key then none else owner net else some key
      else owner net := by
  cases haddr : ip.attributes.findSome? (·.ipAddr?) with
  | none => simp [Kernel.setAllowedIp, Kernel.network?, haddr]
  | some addr =>
    cases hcidr : ip.attributes.findSome? (·.cidr?) with
    | none => simp [Kernel.setAllowedIp, Kernel.network?, haddr, hcidr]
    | some prefixLength =>
      have hbits : Bitflags.Contains ((ip.attributes.findSome? (·.flags?)).getD 0)
          WireguardAllowedIpFlags.removeMe ↔ ip.Removes := .rfl
      simp only [Kernel.setAllowedIp, Kernel.network?, haddr, hcidr, Option.some.injEq, hbits]
      by_cases hnet : (K.network addr prefixLength, prefixLength) = net
      · subst hnet
        by_cases hr : ip.Removes
        · simp only [hr, ↓reduceIte]
          split <;> simp [*]
        · simp [hr]
      · by_cases hr : ip.Removes
        · simp only [hr, ↓reduceIte, hnet]
          split <;> simp [Function.update_of_ne (Ne.symm hnet)]
        · simp [hr, hnet, Function.update_of_ne (Ne.symm hnet)]

-- ---------------------------------------------------------------------------
-- Changes
-- ---------------------------------------------------------------------------

inductive Change
  | deviceAttribute (attr : WireguardAttribute)
  | removePeers
  | removePeer (key : Key)
  /-- Create the peer if it is not there. -/
  | peerAttribute (key : Key) (attr : WireguardPeerAttribute)
  | releaseIps (key : Key)
  | allowedIp (key : Key) (ip : WireguardAllowedIp)

def Kernel.change (K : Kernel) (D : Device) : Change → Device
  | .deviceAttribute attr => D.setAttribute attr
  | .removePeers => D.removePeers
  | .removePeer key => D.removePeer key
  | .peerAttribute key attr =>
    { D with
      peers := Function.update D.peers key
        (some (K.setPeerAttribute ((D.peers key).getD {}) attr)) }
  | .releaseIps key => { D with owner := release D.owner key }
  | .allowedIp key ip => { D with owner := K.setAllowedIp key D.owner ip }

/-- The changes which an entry makes to the peer `key` unless it is skipped. -/
def WireguardPeer.changes (peer : WireguardPeer) (key : Key) : List Change :=
  if peer.Has .removeMe then [.removePeer key]
  else
    peer.attributes.map (.peerAttribute key) ++
      (if peer.Has .replaceAllowedIps then [.releaseIps key] else []) ++
      peer.allowedIps.map (.allowedIp key)

def Device.entryChanges (D : Device) (peer : WireguardPeer) : List Change :=
  match peer.publicKey? with
  | none => []
  | some key =>
    if D.peers key = none ∧ (peer.Has .removeMe ∨ peer.Has .updateOnly) then []
    else peer.changes key

def attributeChanges (attrs : List WireguardAttribute) : List Change :=
  let flags := (attrs.findSome? (·.flags?)).getD 0
  (if Bitflags.Contains flags WireguardDeviceFlags.replacePeers then [.removePeers] else []) ++
    attrs.map .deviceAttribute

namespace Kernel

variable (K : Kernel)

def entriesChanges : Device → List WireguardPeer → List Change
  | _, [] => []
  | D, peer :: peers => D.entryChanges peer ++ entriesChanges (K.setPeer D peer) peers

/-- All that a message changes, in this order. -/
def changes (D : Device) (m : WireguardMessage) : List Change :=
  if m.attributes.any D.answers then
    attributeChanges m.attributes ++ K.entriesChanges (D.setAttributes m.attributes) m.rawPeers
  else []

/-- The message is applied, or given up after any of its changes. -/
def AppliesPart (D : Device) (m : WireguardMessage) (E : Device) : Prop :=
  ∃ cs, cs <+: K.changes D m ∧ E = cs.foldl K.change D

end Kernel

theorem mem_attributeChanges {attrs : List WireguardAttribute} : c ∈ attributeChanges attrs ↔
    (Bitflags.Contains ((attrs.findSome? (·.flags?)).getD 0) WireguardDeviceFlags.replacePeers ∧
      c = .removePeers) ∨ ∃ attr ∈ attrs, c = .deviceAttribute attr := by
  unfold attributeChanges
  simp only [List.mem_append, List.mem_ite_nil_right, List.mem_singleton, List.mem_map, eq_comm]

theorem foldl_peerAttribute (K : Kernel) (D : Device) (key : Key) (attrs : List WireguardPeerAttribute)
    (hs : (D.peers key).getD {} = s) (hattrs : attrs ≠ []) :
    (attrs.map (Change.peerAttribute key)).foldl K.change D =
      { D with peers := Function.update D.peers key (some (attrs.foldl K.setPeerAttribute s)) } := by
  induction attrs generalizing D s with
  | nil => exact absurd rfl hattrs
  | cons attr attrs ih =>
    rw [List.map_cons, List.foldl_cons, List.foldl_cons]
    by_cases hnil : attrs = []
    · subst hnil hs
      rfl
    · rw [ih (K.change D (.peerAttribute key attr)) (s := K.setPeerAttribute s attr) _ hnil]
      · simp [Kernel.change]
      · simp [Kernel.change, hs]

theorem foldl_allowedIp (K : Kernel) (D : Device) (key : Key) (ips : List WireguardAllowedIp) :
    (ips.map (Change.allowedIp key)).foldl K.change D =
      { D with owner := ips.foldl (K.setAllowedIp key) D.owner } := by
  induction ips generalizing D with
  | nil => rfl
  | cons ip ips ih =>
    rw [List.map_cons, List.foldl_cons, ih]
    rfl

theorem updatePeer_changes (K : Kernel) (D : Device) (hkey : peer.publicKey? = some key)
    (hkept : ¬peer.Has .removeMe) :
    K.updatePeer D key ((D.peers key).getD {}) peer = (peer.changes key).foldl K.change D := by
  have hattrs : peer.attributes ≠ [] := List.ne_nil_of_mem (peer.publicKey_mem hkey)
  rw [WireguardPeer.changes, if_neg hkept, List.foldl_append, List.foldl_append,
    foldl_peerAttribute K D key _ rfl hattrs, foldl_allowedIp]
  by_cases hreplace : peer.Has .replaceAllowedIps <;>
    simp [Kernel.updatePeer, Kernel.change, hreplace]

theorem entryChanges_key (hkey : peer.publicKey? = some key) :
    D.entryChanges peer =
      if D.peers key = none ∧ (peer.Has .removeMe ∨ peer.Has .updateOnly) then []
      else peer.changes key := by
  simp [Device.entryChanges, hkey]

theorem setPeer_changes (K : Kernel) (D : Device) (peer : WireguardPeer) :
    K.setPeer D peer = (D.entryChanges peer).foldl K.change D := by
  cases hkey : peer.publicKey? with
  | none => simp [Kernel.setPeer, Device.entryChanges, hkey]
  | some key =>
    rw [entryChanges_key hkey]
    rcases setPeer_cases (K := K) (D := D) hkey with
      ⟨habsent, hskip, h⟩ | ⟨hpresent, hr, h⟩ | ⟨hkept, hcreates, h⟩
    · rw [h, if_pos ⟨habsent, hskip⟩]
      rfl
    · have hmade : ¬(D.peers key = none ∧ (peer.Has .removeMe ∨ peer.Has .updateOnly)) :=
        fun hskipped => by simp [hskipped.1] at hpresent
      rw [h, if_neg hmade, WireguardPeer.changes, if_pos hr]
      rfl
    · have hmade : ¬(D.peers key = none ∧ (peer.Has .removeMe ∨ peer.Has .updateOnly)) :=
        fun hskipped => hskipped.2.elim hkept (hcreates hskipped.1)
      rw [h, if_neg hmade, updatePeer_changes K D hkey hkept]

theorem foldl_setPeer_changes (K : Kernel) (D : Device) (peers : List WireguardPeer) :
    peers.foldl K.setPeer D = (K.entriesChanges D peers).foldl K.change D := by
  induction peers generalizing D with
  | nil => rfl
  | cons peer peers ih =>
    rw [List.foldl_cons, ih, Kernel.entriesChanges, List.foldl_append, ← setPeer_changes]

theorem setAttributes_changes (K : Kernel) (D : Device) (attrs : List WireguardAttribute) :
    D.setAttributes attrs = (attributeChanges attrs).foldl K.change D := by
  rw [Device.setAttributes, attributeChanges, List.foldl_append, List.foldl_map]
  by_cases hreplace : Bitflags.Contains ((attrs.findSome? (·.flags?)).getD 0)
      WireguardDeviceFlags.replacePeers
  · rw [if_pos hreplace, if_pos hreplace]
    rfl
  · rw [if_neg hreplace, if_neg hreplace]
    rfl

theorem setDevice_changes (K : Kernel) (D : Device) (m : WireguardMessage) :
    K.setDevice D m = (K.changes D m).foldl K.change D := by
  unfold Kernel.setDevice Kernel.changes
  split
  · rw [List.foldl_append, ← setAttributes_changes, ← foldl_setPeer_changes]
    rfl
  · rfl

-- ---------------------------------------------------------------------------
-- Parts of a device
-- ---------------------------------------------------------------------------

inductive Part
  | settings
  | peer (key : Key)
  | network (net : Network)

def Part.State : Part → Type
  | settings => Device
  | peer _ => Option PeerState
  | network _ => Option Key

def Device.part (D : Device) : (part : Part) → part.State
  | .settings => D.removePeers
  | .peer key => D.peers key
  | .network net => D.owner net

theorem Device.ext_parts (h : ∀ part, D.part part = E.part part) : D = E := by
  obtain ⟨ifName, ifIndex, privateKey, listenPort, fwmark, peers, owner⟩ := D
  obtain ⟨ifName', ifIndex', privateKey', listenPort', fwmark', peers', owner'⟩ := E
  have hpeers : peers = peers' := funext fun key => h (.peer key)
  have howner : owner = owner' := funext fun net => h (.network net)
  have hsettings := h .settings
  cases hsettings
  rw [hpeers, howner]

namespace Change

def onSettings (D : Device) : Change → Device
  | deviceAttribute attr => D.setAttribute attr
  | _ => D

def onPeer (K : Kernel) (key : Key) (c : Change) (s : Option PeerState) : Option PeerState :=
  match c with
  | removePeers => none
  | removePeer k => if k = key then none else s
  | peerAttribute k attr => if k = key then some (K.setPeerAttribute (s.getD {}) attr) else s
  | _ => s

def onNetwork (K : Kernel) (net : Network) (c : Change) (owner : Option Key) : Option Key :=
  match c with
  | removePeers => none
  | removePeer key | releaseIps key => if owner = some key then none else owner
  | allowedIp key ip =>
    if K.network? ip = some net then
      if ip.Removes then if owner = some key then none else owner else some key
    else owner
  | _ => owner

/-- What a change does to one part, which does not depend on the others. -/
def on (K : Kernel) : (part : Part) → part.State → Change → part.State
  | .settings => onSettings
  | .peer key => fun s c => c.onPeer K key s
  | .network net => fun owner c => c.onNetwork K net owner

end Change

theorem peers_change (K : Kernel) (D : Device) (c : Change) (key : Key) :
    (K.change D c).peers key = c.onPeer K key (D.peers key) := by
  cases c with
  | deviceAttribute attr => cases attr <;> rfl
  | removePeer k => exact (Function.update_apply ..).trans (if_congr eq_comm rfl rfl)
  | peerAttribute k attr =>
    by_cases hk : k = key
    · subst hk
      simp [Change.onPeer, Kernel.change]
    · simp [Change.onPeer, Kernel.change, hk, Ne.symm hk]
  | _ => rfl

theorem owner_change (K : Kernel) (D : Device) (c : Change) (net : Network) :
    (K.change D c).owner net = c.onNetwork K net (D.owner net) := by
  cases c with
  | deviceAttribute attr => cases attr <;> rfl
  | allowedIp k ip => exact setAllowedIp_apply K k D.owner ip net
  | _ => rfl

theorem part_change (K : Kernel) (part : Part) (D : Device) (c : Change) :
    (K.change D c).part part = Change.on K part (D.part part) c := by
  cases part with
  | settings =>
    cases c with
    | deviceAttribute attr => cases attr <;> rfl
    | _ => rfl
  | peer key => exact peers_change K D c key
  | network net => exact owner_change K D c net

-- ---------------------------------------------------------------------------
-- Changes made again
-- ---------------------------------------------------------------------------

namespace Change

theorem overwrites_onSettings : Repeats.Overwrites onSettings := by
  refine .of_replaces (fun D c => ?_) fun c d => ?_
  · cases c with
    | deviceAttribute attr => cases attr <;> rfl
    | _ => rfl
  · cases c with
    | deviceAttribute attr =>
      cases d with
      | deviceAttribute other =>
        cases attr <;> cases other <;> first | exact .inl fun _ => rfl | exact .inr fun _ => rfl
      | _ => exact .inl fun _ => rfl
    | _ => exact .inr fun _ => rfl

theorem overwrites_set : Repeats.Overwrites PeerState.set := by
  refine .of_replaces (fun s attr => ?_) fun attr other => ?_
  · cases attr <;> rfl
  · cases attr <;> cases other <;> first | exact .inl fun _ => rfl | exact .inr fun _ => rfl

theorem overwrites_setPeerAttribute (K : Kernel) : Repeats.Overwrites K.setPeerAttribute where
  again s attr := by
    unfold Kernel.setPeerAttribute
    split
    · rfl
    · exact overwrites_set.again s attr
  covers := by
    intro s t attr heq other
    unfold Kernel.setPeerAttribute at heq ⊢
    split
    · rw [if_pos ‹_›, if_pos ‹_›] at heq
      rw [heq]
    · rw [if_neg ‹_›, if_neg ‹_›] at heq
      split
      · exact heq
      · exact overwrites_set.covers heq other

theorem onPeer_cases (K : Kernel) (key : Key) (c : Change) :
    (∀ s, c.onPeer K key s = s) ∨ (∀ s, c.onPeer K key s = none) ∨
    ∃ attr, ∀ s, c.onPeer K key s = some (K.setPeerAttribute (s.getD {}) attr) := by
  cases c with
  | removePeers => exact .inr (.inl fun _ => rfl)
  | removePeer k =>
    by_cases hk : k = key
    · exact .inr (.inl fun _ => if_pos hk)
    · exact .inl fun _ => if_neg hk
  | peerAttribute k attr =>
    by_cases hk : k = key
    · exact .inr (.inr ⟨attr, fun _ => if_pos hk⟩)
    · exact .inl fun _ => if_neg hk
  | _ => exact .inl fun _ => rfl

theorem onNetwork_cases (K : Kernel) (net : Network) (c : Change) :
    (∀ owner, c.onNetwork K net owner = owner) ∨ (∃ o, ∀ owner, c.onNetwork K net owner = o) ∨
    ∃ key, ∀ owner, c.onNetwork K net owner = if owner = some key then none else owner := by
  cases c with
  | removePeers => exact .inr (.inl ⟨none, fun _ => rfl⟩)
  | removePeer key => exact .inr (.inr ⟨key, fun _ => rfl⟩)
  | releaseIps key => exact .inr (.inr ⟨key, fun _ => rfl⟩)
  | allowedIp key ip =>
    by_cases hnet : K.network? ip = some net
    · by_cases hr : ip.Removes
      · exact .inr (.inr ⟨key, fun _ => (if_pos hnet).trans (if_pos hr)⟩)
      · exact .inr (.inl ⟨some key, fun _ => (if_pos hnet).trans (if_neg hr)⟩)
    · exact .inl fun _ => if_neg hnet
  | _ => exact .inl fun _ => rfl

theorem overwrites_onPeer (K : Kernel) (key : Key) :
    Repeats.Overwrites fun s c => onPeer K key c s where
  again s c := by
    rcases onPeer_cases K key c with h | h | ⟨attr, h⟩
    · rw [h, h]
    · rw [h, h]
    · rw [h, h, Option.getD_some, (overwrites_setPeerAttribute K).again]
  covers := by
    intro s t c heq d
    rcases onPeer_cases K key c with h | h | ⟨attr, h⟩
    · rw [h, h] at heq
      rw [heq]
    · rw [h, h]
    · rw [h, h, Option.some.injEq] at heq
      rw [h, h]
      rcases onPeer_cases K key d with hd | hd | ⟨other, hd⟩
      · rw [hd, hd, heq]
      · rw [hd, hd]
      · rw [hd, hd, Option.getD_some, Option.getD_some,
          (overwrites_setPeerAttribute K).covers heq]

theorem overwrites_onNetwork (K : Kernel) (net : Network) :
    Repeats.Overwrites fun owner c => onNetwork K net c owner where
  again owner c := by
    rcases onNetwork_cases K net c with h | ⟨o, h⟩ | ⟨key, h⟩
    · rw [h, h]
    · rw [h, h]
    · grind
  covers := by
    intro o o' c heq d
    rcases onNetwork_cases K net c with h | ⟨v, h⟩ | ⟨key, h⟩
    · rw [h, h] at heq
      rw [heq]
    · rw [h, h]
    · rw [h, h] at heq
      rw [h, h]
      rcases onNetwork_cases K net d with hd | ⟨v, hd⟩ | ⟨other, hd⟩
      · rw [hd, hd, heq]
      · rw [hd, hd]
      · -- Both are the owner `key`, or nobody, or they are equal.
        grind

end Change

theorem overwrites_change (K : Kernel) : Repeats.Overwrites K.change :=
  .of_parts (fun part D => D.part part) (Change.on K) (fun _ _ => Device.ext_parts)
    (fun part D c => part_change K part D c) fun part => by
      cases part with
      | settings => exact Change.overwrites_onSettings
      | peer key => exact Change.overwrites_onPeer K key
      | network net => exact Change.overwrites_onNetwork K net

end NlWireguard
