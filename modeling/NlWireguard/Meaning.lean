import NlWireguard.Frame

/-!
# What a configuration means

The device after a configuration, property by property, for configurations
which list every peer once and every network for one peer: no order, no
messages and no chunks are left in it.
-/

namespace NlWireguard

open Folds

variable {K : Kernel} {D E : Device}

-- ---------------------------------------------------------------------------
-- Allowed IPs
-- ---------------------------------------------------------------------------

/-- The kernel reports these but can not be told them. -/
def WireguardPeerAttribute.isReported : WireguardPeerAttribute → Bool
  | .lastHandshake _ | .rxBytes _ | .txBytes _ | .protocolVersion _ => true
  | _ => false

namespace WireguardIpAddress

theorem setAllowedIp_apply (ip : WireguardIpAddress) (K : Kernel) (key : Key)
    (owner : Network → Option Key) (net : Network) :
    K.setAllowedIp key owner ip.toAllowedIp net =
      if ip.networkIn K = net then
        if ip.Removes then if owner net = some key then none else owner net else some key
      else owner net := by
  have hnet : K.network? ip.toAllowedIp = some net ↔ ip.networkIn K = net := by
    rw [network?_toAllowedIp, Option.some_inj]
  simp only [NlWireguard.setAllowedIp_apply, hnet]
  rfl

/-- No network is both given to the peer and taken from it. -/
def Consistent (ips : List WireguardIpAddress) (K : Kernel) : Prop :=
  ∀ ip ∈ ips, ∀ other ∈ ips, ip.networkIn K = other.networkIn K → (ip.Removes ↔ other.Removes)

/-- Behind all allowed IPs, the peer has the networks it is given, and nothing
else changes but that networks are taken from it. -/
theorem owner_foldl {ips : List WireguardIpAddress} (hips : Consistent ips K) (key : Key)
    (owner : Network → Option Key) :
    (ips.map toAllowedIp).foldl (K.setAllowedIp key) owner net = some k ↔
      (k = key ∧ ∃ ip ∈ ips, ip.networkIn K = net ∧ ¬ip.Removes) ∨
      (owner net = some k ∧ ¬(∃ ip ∈ ips, ip.networkIn K = net ∧ ¬ip.Removes) ∧
        ¬(k = key ∧ ∃ ip ∈ ips, ip.networkIn K = net ∧ ip.Removes)) := by
  induction ips generalizing owner with
  | nil => simp
  | cons ip ips ih =>
    have hrest : Consistent ips K := fun a ha b hb =>
      hips a (List.mem_cons_of_mem _ ha) b (List.mem_cons_of_mem _ hb)
    have hhead (other : WireguardIpAddress) (hother : other ∈ ips) :
        ip.networkIn K = other.networkIn K → (ip.Removes ↔ other.Removes) :=
      hips ip (by simp) other (List.mem_cons_of_mem _ hother)
    rw [List.map_cons, List.foldl_cons, ih hrest, setAllowedIp_apply]
    simp only [List.mem_cons, or_and_right, exists_or, exists_eq_left]
    by_cases hnet : ip.networkIn K = net
    · subst hnet
      by_cases hr : ip.Removes
      · have hnone : ¬∃ other ∈ ips, other.networkIn K = ip.networkIn K ∧ ¬other.Removes :=
          fun ⟨other, hother, hnet, hkept⟩ => hkept ((hhead other hother hnet.symm).mp hr)
        grind
      · have hnone : ¬∃ other ∈ ips, other.networkIn K = ip.networkIn K ∧ other.Removes :=
          fun ⟨other, hother, hnet, hr'⟩ => hr ((hhead other hother hnet.symm).mpr hr')
        grind
    · simp only [hnet, ↓reduceIte, false_and, false_or]

end WireguardIpAddress

theorem owner_release (owner : Network → Option Key) (key : Key) (net : Network) :
    release owner key net = some k ↔ owner net = some k ∧ k ≠ key := by
  unfold release
  grind

-- ---------------------------------------------------------------------------
-- Peers
-- ---------------------------------------------------------------------------

variable [Base64.Engine]

/-- The key a text stands for, if any. -/
def keyOf (text : Option String) : Option Key := text.bind fun text => (decodeKey "" text).toOption

theorem keyOf_encodeKey (key : Option Key) : keyOf (key.map encodeKey) = key := by
  cases key with
  | none => rfl
  | some key =>
    have hdecode : decodeKey "" (encodeKey key) = .ok key := decodeKey_ok.mpr rfl
    simp [keyOf, hdecode, Except.toOption]

namespace WireguardPeerParsed

/-- The peer loses the networks it had before. -/
def ReplacesIps (p : WireguardPeerParsed) : Prop :=
  Bitflags.Contains (WireguardParsedPeerFlags.bitsOf (p.flags.getD [])) WireguardPeerFlags.replaceAllowedIps

instance (p : WireguardPeerParsed) : Decidable p.ReplacesIps := inferInstanceAs (Decidable (_ = _))

/-- The state of a peer which is configured. -/
def settings (p : WireguardPeerParsed) (s : PeerState) : PeerState :=
  { s with
    presharedKey := (keyOf p.presharedKey).getD s.presharedKey
    endpoint := p.endpoint.or s.endpoint
    persistentKeepalive := p.persistentKeepalive.getD s.persistentKeepalive }

/-- What becomes of the peer. -/
def outcome (p : WireguardPeerParsed) (before : Option PeerState) : Option PeerState :=
  if p.Removes ∨ (before = none ∧ p.UpdatesOnly) then none else some (p.settings (before.getD {}))

/-- The network belongs to the peer afterwards. -/
def Gives (p : WireguardPeerParsed) (K : Kernel) (before : Option PeerState) (net : Network) : Prop :=
  (p.outcome before).isSome ∧ ∃ ip ∈ p.allowedIps.getD [], ip.networkIn K = net ∧ ¬ip.Removes

/-- The network does not stay with the peer. -/
def Takes (p : WireguardPeerParsed) (K : Kernel) (net : Network) : Prop :=
  p.Removes ∨ p.ReplacesIps ∨ ∃ ip ∈ p.allowedIps.getD [], ip.networkIn K = net ∧ ip.Removes

namespace Checked

variable (e : Checked)

theorem whole_has : e.whole.Has flag ↔
    Bitflags.Contains (WireguardParsedPeerFlags.bitsOf (e.peer.flags.getD [])) flag := by
  rw [WireguardPeer.Has, e.flags_whole]

omit [Base64.Engine] in
theorem foldl_emit_fixed {attr : α → WireguardPeerAttribute}
    (h : ∀ v s, K.setPeerAttribute s (attr v) = s) (property : Option α) (s : PeerState) :
    (emit property attr).foldl K.setPeerAttribute s = s := by
  cases property with
  | none => rfl
  | some v => exact h v s

/-- The properties of the entry are set, whatever else it says. -/
theorem foldl_whole (hK : K.ignores = WireguardPeerAttribute.isReported) (s : PeerState) :
    e.whole.attributes.foldl K.setPeerAttribute s = e.peer.settings s := by
  have hset {attr : WireguardPeerAttribute} (hattr : attr.isReported = false) (s : PeerState) :
      K.setPeerAttribute s attr = s.set attr := by
    rw [Kernel.setPeerAttribute, hK, hattr]
    rfl
  have hreported {attr : WireguardPeerAttribute} (hattr : attr.isReported = true) (s : PeerState) :
      K.setPeerAttribute s attr = s := by
    rw [Kernel.setPeerAttribute, hK, hattr]
    rfl
  have hendpoint (s : PeerState) : (emit e.peer.endpoint .endpoint).foldl K.setPeerAttribute s =
      { s with endpoint := e.peer.endpoint.or s.endpoint } := by
    cases e.peer.endpoint with
    | none => rfl
    | some addr => exact hset rfl s
  have hpsk (s : PeerState) : (emit e.keys.presharedKey .presharedKey).foldl K.setPeerAttribute s =
      { s with presharedKey := (keyOf e.peer.presharedKey).getD s.presharedKey } := by
    rw [e.accepted.presharedKey, keyOf_encodeKey]
    cases e.keys.presharedKey with
    | none => rfl
    | some key => exact hset rfl s
  have hkeepalive (s : PeerState) :
      (emit e.peer.persistentKeepalive .persistentKeepalive).foldl K.setPeerAttribute s =
        { s with persistentKeepalive := e.peer.persistentKeepalive.getD s.persistentKeepalive } := by
    cases e.peer.persistentKeepalive with
    | none => rfl
    | some seconds => exact hset rfl s
  have hpublicKey (s : PeerState) : K.setPeerAttribute s (.publicKey e.keys.publicKey) = s := hset rfl s
  simp only [whole, attributes, attributesBefore, ipAttributes, attributesAfter, List.foldl_append,
    List.foldl_cons, List.foldl_nil]
  rw [foldl_emit_fixed fun _ => hset rfl, foldl_emit_fixed fun _ => hreported rfl,
    foldl_emit_fixed fun _ => hset rfl, foldl_emit_fixed fun _ => hreported rfl,
    foldl_emit_fixed fun _ => hreported rfl, foldl_emit_fixed fun _ => hreported rfl, hkeepalive, hpsk,
    hpublicKey, hendpoint]
  rfl

/-- Everything an entry can do: it is skipped, it removes its peer, or it configures it. -/
theorem setPeer_whole_cases (e : Checked) (K : Kernel) (D : Device) :
    (D.peers e.keys.publicKey = none ∧ e.peer.outcome (D.peers e.keys.publicKey) = none ∧
      K.setPeer D e.whole = D) ∨
    (e.peer.Removes ∧ e.peer.outcome (D.peers e.keys.publicKey) = none ∧
      K.setPeer D e.whole = D.removePeer e.keys.publicKey) ∨
    (¬e.peer.Removes ∧ e.peer.outcome (D.peers e.keys.publicKey) =
        some (e.peer.settings ((D.peers e.keys.publicKey).getD {})) ∧
      K.setPeer D e.whole =
        K.updatePeer D e.keys.publicKey ((D.peers e.keys.publicKey).getD {}) e.whole) := by
  rcases setPeer_cases (K := K) (D := D) e.publicKey?_whole with
    ⟨habsent, hskip, h⟩ | ⟨-, hr, h⟩ | ⟨hkept, hcreates, h⟩
  · have hnone : e.peer.outcome (D.peers e.keys.publicKey) = none :=
      if_pos (hskip.imp e.whole_has.mp fun hu => ⟨habsent, e.whole_has.mp hu⟩)
    exact .inl ⟨habsent, hnone, h⟩
  · have hr : e.peer.Removes := e.whole_has.mp hr
    exact .inr (.inl ⟨hr, if_pos (.inl hr), h⟩)
  · have hsome : ¬(e.peer.Removes ∨ (D.peers e.keys.publicKey = none ∧ e.peer.UpdatesOnly)) := by
      rintro (hr | ⟨habsent, hu⟩)
      · exact hkept (e.whole_has.mpr hr)
      · exact hcreates habsent (e.whole_has.mpr hu)
    exact .inr (.inr ⟨fun hr => hkept (e.whole_has.mpr hr), if_neg hsome, h⟩)

/-- An entry says what becomes of its peer. -/
theorem setPeer_outcome (hK : K.ignores = WireguardPeerAttribute.isReported) (D : Device) :
    (K.setPeer D e.whole).peers e.keys.publicKey = e.peer.outcome (D.peers e.keys.publicKey) := by
  rcases e.setPeer_whole_cases K D with ⟨habsent, hnone, h⟩ | ⟨-, hnone, h⟩ | ⟨-, hsome, h⟩
  · rw [h, hnone, habsent]
  · rw [h, hnone]
    exact Function.update_self ..
  · rw [h, hsome, ← e.foldl_whole hK]
    exact Function.update_self ..

/-- What an entry does to a network: it comes to the peer, or it is taken from
the peer, or it stays where it is. -/
theorem setPeer_owner (howned : D.Owned)
    (hips : WireguardIpAddress.Consistent (e.peer.allowedIps.getD []) K) :
    (K.setPeer D e.whole).owner net = some k ↔
      (k = e.keys.publicKey ∧ e.peer.Gives K (D.peers e.keys.publicKey) net) ∨
      (D.owner net = some k ∧ ¬e.peer.Gives K (D.peers e.keys.publicKey) net ∧
        ¬(k = e.keys.publicKey ∧ e.peer.Takes K net)) := by
  rcases e.setPeer_whole_cases K D with ⟨habsent, hnone, h⟩ | ⟨hr, hnone, h⟩ | ⟨hkept, hsome, h⟩
  · have hother : D.owner net = some k → k ≠ e.keys.publicKey := by
      rintro howner rfl
      simpa [habsent] using howned net _ howner
    simp only [h, Gives, hnone, Option.isSome_none, Bool.false_eq_true, false_and, and_false,
      not_false_eq_true, true_and, false_or]
    exact ⟨fun howner => ⟨howner, fun hk => absurd hk.1 (hother howner)⟩, fun howner => howner.1⟩
  · have htakes : e.peer.Takes K net := .inl hr
    simp only [h, Device.removePeer, owner_release, Gives, hnone, Option.isSome_none,
      Bool.false_eq_true, false_and, and_false, not_false_eq_true, true_and, false_or, htakes, and_true,
      ne_eq]
  · have hreplaces : e.whole.Has .replaceAllowedIps ↔ e.peer.ReplacesIps := e.whole_has
    have hbefore : (if e.whole.Has .replaceAllowedIps then release D.owner e.keys.publicKey else D.owner)
        net = some k ↔ D.owner net = some k ∧ ¬(k = e.keys.publicKey ∧ e.peer.ReplacesIps) := by
      split <;> simp_all [owner_release]
    rw [h, Kernel.updatePeer, e.allowedIps_whole, WireguardIpAddress.owner_foldl hips, hbefore]
    simp only [Gives, Takes, hsome, Option.isSome_some, hkept, true_and, false_or, and_or_left, not_or]
    apply or_congr_right
    constructor
    · rintro ⟨⟨howner, hreleased⟩, hgives, hremoved⟩
      exact ⟨howner, hgives, hreleased, hremoved⟩
    · rintro ⟨howner, hgives, hreleased, hremoved⟩
      exact ⟨⟨howner, hreleased⟩, hgives, hremoved⟩

/-- The entry is for this peer. -/
theorem publicKey_iff : e.peer.publicKey = some (encodeKey k) ↔ k = e.keys.publicKey := by
  rw [e.accepted.publicKey, Option.some_inj]
  exact ⟨fun h => (encodeKey_injective h).symm, fun h => h ▸ rfl⟩

end Checked

end WireguardPeerParsed

-- ---------------------------------------------------------------------------
-- Lists of peers
-- ---------------------------------------------------------------------------

/-- One of the peers is given the network. -/
def GivesTo (peers : List WireguardPeerParsed) (K : Kernel) (D : Device) (net : Network) (k : Key) :
    Prop :=
  ∃ p ∈ peers, p.publicKey = some (encodeKey k) ∧ p.Gives K (D.peers k) net

def TakesFrom (peers : List WireguardPeerParsed) (K : Kernel) (net : Network) (k : Key) : Prop :=
  ∃ p ∈ peers, p.publicKey = some (encodeKey k) ∧ p.Takes K net

variable {es : List WireguardPeerParsed.Checked} {e : WireguardPeerParsed.Checked}

theorem givesTo_concat (D : Device) :
    GivesTo ((es ++ [e]).map (·.peer)) K D net k ↔
      GivesTo (es.map (·.peer)) K D net k ∨
        (k = e.keys.publicKey ∧ e.peer.Gives K (D.peers e.keys.publicKey) net) := by
  simp only [GivesTo, List.map_append, List.map_cons, List.map_nil, List.mem_append,
    List.mem_singleton, or_and_right, exists_or, exists_eq_left, e.publicKey_iff]
  exact or_congr_right (and_congr_right fun hk => hk ▸ .rfl)

theorem takesFrom_concat :
    TakesFrom ((es ++ [e]).map (·.peer)) K net k ↔
      TakesFrom (es.map (·.peer)) K net k ∨ (k = e.keys.publicKey ∧ e.peer.Takes K net) := by
  simp only [TakesFrom, List.map_append, List.map_cons, List.map_nil, List.mem_append,
    List.mem_singleton, or_and_right, exists_or, exists_eq_left, e.publicKey_iff]

def applied (es : List WireguardPeerParsed.Checked) (K : Kernel) (D : Device) : Device :=
  (es.map (·.whole)).foldl K.setPeer D

theorem applied_concat (es : List WireguardPeerParsed.Checked) (e : WireguardPeerParsed.Checked)
    (D : Device) : applied (es ++ [e]) K D = K.setPeer (applied es K D) e.whole := by
  simp [applied]

theorem applied_owned (howned : D.Owned) (es : List WireguardPeerParsed.Checked) :
    (applied es K D).Owned :=
  List.foldlRecOn (motive := Device.Owned) _ K.setPeer howned fun _ hE peer _ =>
    setPeer_changes K _ peer ▸ (entryChanges_owned hE peer).last

theorem applied_other (h : ∀ e ∈ es, e.keys.publicKey ≠ k) (D : Device) :
    (applied es K D).peers k = D.peers k := by
  refine foldl_frame (fun D => D.peers k) (fun D peer hpeer => ?_) D
  obtain ⟨e, he, rfl⟩ := List.mem_map.mp hpeer
  exact setPeer_peers_ne fun heq => h e he (Option.some.inj (e.publicKey?_whole.symm.trans heq))

omit [Base64.Engine] in
theorem foldl_setPeer_frame (K : Kernel) (D : Device) (entries : List WireguardPeer) :
    ∃ peers owner, entries.foldl K.setPeer D = { D with peers := peers, owner := owner } := by
  induction entries generalizing D with
  | nil => exact ⟨D.peers, D.owner, rfl⟩
  | cons entry entries ih =>
    obtain ⟨peers, owner, hentry⟩ := setPeer_frame K D entry
    obtain ⟨peers', owner', hentries⟩ := ih (K.setPeer D entry)
    refine ⟨peers', owner', ?_⟩
    rw [List.foldl_cons, hentries, hentry]

/-- A peer which is listed once has what its entry says. -/
theorem applied_listed (hK : K.ignores = WireguardPeerAttribute.isReported)
    (hkeys : (es.map (·.keys.publicKey)).Nodup) (he : e ∈ es) (D : Device) :
    (applied es K D).peers e.keys.publicKey = e.peer.outcome (D.peers e.keys.publicKey) := by
  obtain ⟨before, after, rfl⟩ := List.append_of_mem he
  rw [List.map_append, List.map_cons, List.nodup_append, List.nodup_cons] at hkeys
  obtain ⟨-, ⟨hafter, -⟩, hbefore⟩ := hkeys
  have hsplit : applied (before ++ e :: after) K D =
      applied after K (K.setPeer (applied before K D) e.whole) := by
    simp [applied]
  rw [hsplit, applied_other, e.setPeer_outcome hK, applied_other]
  · exact fun e' he' => hbefore _ (List.mem_map_of_mem he') _ List.mem_cons_self
  · exact fun e' he' heq => hafter (heq ▸ List.mem_map_of_mem he')

/-- A network which is listed once comes to the peer which lists it. -/
theorem applied_owner (howned : D.Owned) (hkeys : (es.map (·.keys.publicKey)).Nodup)
    (hnets : es.Pairwise fun e other => (e.peer.networks K).Disjoint (other.peer.networks K))
    (hips : ∀ e ∈ es, WireguardIpAddress.Consistent (e.peer.allowedIps.getD []) K) :
    (applied es K D).owner net = some k ↔
      GivesTo (es.map (·.peer)) K D net k ∨
      (D.owner net = some k ∧ (∀ other, ¬GivesTo (es.map (·.peer)) K D net other) ∧
        ¬TakesFrom (es.map (·.peer)) K net k) := by
  induction es using List.reverseRecOn generalizing k with
  | nil => simp [applied, GivesTo, TakesFrom]
  | append_singleton es e ih =>
    rw [List.map_append, List.nodup_append] at hkeys
    rw [List.pairwise_append] at hnets
    have hfresh : ∀ e' ∈ es, e'.keys.publicKey ≠ e.keys.publicKey := fun e' he' =>
      hkeys.2.2 _ (List.mem_map_of_mem he') _ (by simp)
    have hstep : (K.setPeer (applied es K D) e.whole).owner net = some k ↔ _ :=
      e.setPeer_owner (applied_owned howned es) (hips e (by simp))
    have hbefore : (applied es K D).owner net = some k ↔ _ :=
      ih hkeys.1 hnets.1 fun e' he' => hips e' (List.mem_append_left _ he')
    rw [applied_other hfresh, hbefore] at hstep
    -- The peer of `e` is not listed before, and neither are its networks.
    have hkey (h : GivesTo (es.map (·.peer)) K D net k) : k ≠ e.keys.publicKey := by
      obtain ⟨p, hp, hkey, -⟩ := h
      obtain ⟨e', he', rfl⟩ := List.mem_map.mp hp
      exact fun heq => hfresh e' he' ((e'.publicKey_iff.mp hkey).symm.trans heq)
    have hnet {other : Key} (h : GivesTo (es.map (·.peer)) K D net other) :
        ¬e.peer.Gives K (D.peers e.keys.publicKey) net := by
      rintro ⟨-, ip, hip, hnet, -⟩
      obtain ⟨p, hp, -, -, ip', hip', hnet', -⟩ := h
      obtain ⟨e', he', rfl⟩ := List.mem_map.mp hp
      have hbefore : net ∈ e'.peer.networks K := hnet' ▸ List.mem_map_of_mem hip'
      have hlast : net ∈ e.peer.networks K := hnet ▸ List.mem_map_of_mem hip
      exact hnets.2.2 e' he' e (by simp) hbefore hlast
    rw [applied_concat, hstep]
    by_cases hgives : e.peer.Gives K (D.peers e.keys.publicKey) net
    · have hnone (other : Key) : ¬GivesTo (es.map (·.peer)) K D net other := fun h => hnet h hgives
      have hsome : ¬∀ other, ¬other = e.keys.publicKey := fun h => h _ rfl
      simp only [givesTo_concat, hgives, hnone, hsome, and_true, false_or, not_true_eq_false, false_and,
        and_false, or_false]
    · have hkept (h : GivesTo (es.map (·.peer)) K D net k) :
          ¬(k = e.keys.publicKey ∧ e.peer.Takes K net) := fun hk => hkey h hk.1
      simp only [givesTo_concat, takesFrom_concat, hgives, and_false, or_false, false_or,
        not_false_eq_true, true_and]
      rw [or_and_right, and_iff_left_of_imp hkept, not_or, and_assoc, and_assoc]

/-- Chunks add up to their peers, unless a peer which must not be created is
split and not there. -/
theorem foldl_chunks_applied (hkeys : (es.map (·.keys.publicKey)).Nodup)
    (h : ∀ e ∈ es, e.peer.UpdatesOnly → (D.peers e.keys.publicKey).isSome ∨ e.chunks.length = 1) :
    (es.map (·.chunks)).flatten.foldl K.setPeer D = applied es K D := by
  induction es using List.reverseRecOn with
  | nil => rfl
  | append_singleton es e ih =>
    rw [List.map_append, List.nodup_append] at hkeys
    have hfresh : ∀ e' ∈ es, e'.keys.publicKey ≠ e.keys.publicKey := fun e' he' =>
      hkeys.2.2 _ (List.mem_map_of_mem he') _ (by simp)
    have hlast : e.peer.UpdatesOnly →
        ((applied es K D).peers e.keys.publicKey).isSome ∨ e.chunks.length = 1 := by
      rw [applied_other hfresh]
      exact h e (by simp)
    rw [List.map_append, List.flatten_append, List.foldl_append,
      ih hkeys.1 fun e' he' => h e' (List.mem_append_left _ he'), applied_concat]
    simpa using e.foldl_chunks hlast

-- ---------------------------------------------------------------------------
-- Devices
-- ---------------------------------------------------------------------------

namespace WireguardParsed

variable {c : WireguardParsed}

/-- The configuration is for this device. -/
def Names (c : WireguardParsed) (D : Device) : Prop :=
  c.ifaceName = some D.ifName ∨ (c.ifaceName = none ∧ c.ifaceIndex = some D.ifIndex)

instance (c : WireguardParsed) (D : Device) : Decidable (c.Names D) := inferInstanceAs (Decidable (_ ∨ _))

/-- The peers which the configuration finds. -/
def base (c : WireguardParsed) (D : Device) : Device := if c.ReplacesPeers then D.removePeers else D

/-- The device after what the first message says about it. -/
def settled (c : WireguardParsed) (D : Device) : Device :=
  { c.base D with
    privateKey := (keyOf c.privateKey).or D.privateKey
    listenPort := c.listenPort.getD D.listenPort
    fwmark := c.fwmark.getD D.fwmark }

omit [Base64.Engine] in
theorem base_owned (howned : D.Owned) : (c.base D).Owned := by
  unfold base
  split
  · exact fun _ _ h => absurd h.symm (Option.some_ne_none _)
  · exact howned

omit [Base64.Engine] in
/-- Only peers are replaced. -/
theorem base_frame (c : WireguardParsed) (D : Device) :
    ∃ peers owner, c.base D = { D with peers := peers, owner := owner } := by
  unfold base
  split
  · exact ⟨_, _, rfl⟩
  · exact ⟨D.peers, D.owner, rfl⟩

/-- Every peer is listed once, and every network by one peer. -/
structure Distinct (c : WireguardParsed) (K : Kernel) : Prop where
  keys : ((c.peers.getD []).map (·.publicKey)).Nodup
  networks : (c.peers.getD []).Pairwise fun p other => (p.networks K).Disjoint (other.networks K)
  consistent : ∀ p ∈ c.peers.getD [], WireguardIpAddress.Consistent (p.allowedIps.getD []) K

/-- A peer which is only to be updated is there, or fits into one attribute. -/
def UpdatesWhole (c : WireguardParsed) (D : Device) : Prop :=
  ∀ p ∈ c.peers.getD [], p.UpdatesOnly → ¬p.Removes →
    (∃ key, p.publicKey = some (encodeKey key) ∧ ((c.base D).peers key).isSome) ∨
      ∀ built, p.build = .ok built → bufferLen built ≤ maxNlaValueLen

/-- `E` is the device `D` as the configuration says. -/
structure Configures (c : WireguardParsed) (K : Kernel) (D E : Device) : Prop where
  ifName : E.ifName = D.ifName
  ifIndex : E.ifIndex = D.ifIndex
  privateKey : E.privateKey = (keyOf c.privateKey).or D.privateKey
  listenPort : E.listenPort = c.listenPort.getD D.listenPort
  fwmark : E.fwmark = c.fwmark.getD D.fwmark
  listed : ∀ p ∈ c.peers.getD [], ∀ key, p.publicKey = some (encodeKey key) →
    E.peers key = p.outcome ((c.base D).peers key)
  others : ∀ key, ¬c.Mentions key → E.peers key = (c.base D).peers key
  owner : ∀ net key, E.owner net = some key ↔
    GivesTo (c.peers.getD []) K (c.base D) net key ∨
    ((c.base D).owner net = some key ∧ (∀ other, ¬GivesTo (c.peers.getD []) K (c.base D) net other) ∧
      ¬TakesFrom (c.peers.getD []) K net key)

namespace Plan

variable (plan : c.Plan)

theorem answers_iff : D.answers plan.iface ↔ c.Names D := by
  unfold Names
  rcases ifaceAttribute_cases plan.accepted.iface with
    ⟨name, hname, hiface, -⟩ | ⟨index, hname, hindex, hiface⟩
  · simp [hname, hiface, Device.answers]
  · simp [hname, hindex, hiface, Device.answers]

theorem foldl_setAttribute (D : Device) :
    (c.attributes plan.iface plan.keys).foldl Device.setAttribute D =
      { D with
        privateKey := (keyOf c.privateKey).or D.privateKey
        listenPort := c.listenPort.getD D.listenPort
        fwmark := c.fwmark.getD D.fwmark } := by
  have hiface : D.setAttribute plan.iface = D := by
    rcases plan.iface_cases with ⟨name, h⟩ | ⟨index, h⟩ <;> rw [h] <;> rfl
  have hkey : keyOf c.privateKey = plan.keys.privateKey := by
    rw [plan.accepted.privateKey, keyOf_encodeKey]
  rw [hkey, attributes]
  simp only [List.foldl_append, List.foldl_cons, List.foldl_nil, hiface]
  cases plan.keys.publicKey <;> cases plan.keys.privateKey <;> cases c.listenPort <;>
    cases c.fwmark <;> cases c.flags <;> rfl

theorem setAttributes_settled (D : Device) :
    D.setAttributes (c.attributes plan.iface plan.keys) = c.settled D := by
  have hbits : (c.flags.map WireguardParsedDeviceFlags.bitsOf).getD 0 =
      WireguardParsedDeviceFlags.bitsOf (c.flags.getD []) := by
    cases c.flags <;> rfl
  have hfold := plan.foldl_setAttribute (c.base D)
  obtain ⟨peers, owner, hbase⟩ := c.base_frame D
  rw [Device.setAttributes, plan.findSome?_flags, hbits]
  refine hfold.trans ?_
  rw [settled, hbase]

/-- What a device is after all messages, if the configuration is for it. -/
theorem foldl_messages (K : Kernel) (D : Device) :
    (plan.messages cmd).foldl K.setDevice D =
      if c.Names D then plan.chunks.foldl K.setPeer (c.settled D) else D := by
  rw [plan.foldl_setDevice, plan.setAttributes_settled]
  by_cases hnames : c.Names D
  · rw [if_pos hnames, if_pos (plan.answers_iff.mpr hnames)]
  · rw [if_neg hnames, if_neg (mt plan.answers_iff.mp hnames)]

theorem chunks_length_or (hupdates : c.UpdatesWhole D) (e : WireguardPeerParsed.Checked)
    (he : e ∈ plan.entries) (hu : e.peer.UpdatesOnly) :
    ((c.base D).peers e.keys.publicKey).isSome ∨ e.chunks.length = 1 := by
  by_cases hr : e.peer.Removes
  · rcases e.chunks_cases with ⟨-, h⟩ | ⟨_, _, _, -, hkept, -⟩
    · exact .inr (by rw [h]; rfl)
    · exact absurd hr hkept
  · have hpeer : e.peer ∈ c.peers.getD [] := plan.peers_eq ▸ List.mem_map_of_mem he
    rcases hupdates e.peer hpeer hu hr with ⟨key, hkey, hsome⟩ | hfits
    · exact .inl (e.publicKey_iff.mp hkey ▸ hsome)
    · exact .inr ((e.chunks_length_one hr).mpr (hfits _ e.build))

theorem keys_nodup (hdistinct : c.Distinct K) : (plan.entries.map (·.keys.publicKey)).Nodup := by
  have hkeys := hdistinct.keys
  rw [plan.peers_eq, List.map_map] at hkeys
  refine List.Nodup.of_map (fun key => some (encodeKey key)) ?_
  rw [List.map_map]
  refine (List.map_congr_left fun e _ => ?_) ▸ hkeys
  exact e.accepted.publicKey

theorem configures (hK : K.ignores = WireguardPeerAttribute.isReported) (hnames : c.Names D)
    (howned : D.Owned) (hdistinct : c.Distinct K) (hupdates : c.UpdatesWhole D) :
    c.Configures K D ((plan.messages .setDevice).foldl K.setDevice D) := by
  have hkeys : (plan.entries.map (·.keys.publicKey)).Nodup := plan.keys_nodup hdistinct
  have hnets : plan.entries.Pairwise fun e other =>
      (e.peer.networks K).Disjoint (other.peer.networks K) := by
    have hnets := hdistinct.networks
    rwa [plan.peers_eq, List.pairwise_map] at hnets
  have hips : ∀ e ∈ plan.entries, WireguardIpAddress.Consistent (e.peer.allowedIps.getD []) K :=
    fun e he => hdistinct.consistent e.peer (plan.peers_eq ▸ List.mem_map_of_mem he)
  have hrun : (plan.messages .setDevice).foldl K.setDevice D = applied plan.entries K (c.settled D) := by
    rw [plan.foldl_messages, if_pos hnames]
    exact foldl_chunks_applied hkeys fun e he => plan.chunks_length_or hupdates e he
  have hsettled : (c.settled D).Owned := base_owned howned
  obtain ⟨peers, owner, hbase⟩ := c.base_frame D
  obtain ⟨peers', owner', hframe⟩ := foldl_setPeer_frame K (c.settled D) (plan.entries.map (·.whole))
  have hframe : applied plan.entries K (c.settled D) = _ := hframe
  rw [hrun]
  refine
    { ifName := by rw [hframe, settled, hbase]
      ifIndex := by rw [hframe, settled, hbase]
      privateKey := by rw [hframe, settled]
      listenPort := by rw [hframe, settled]
      fwmark := by rw [hframe, settled]
      listed := fun p hp key hkey => ?_
      others := fun key hkey => ?_
      owner := fun net key => ?_ }
  · rw [plan.peers_eq] at hp
    obtain ⟨e, he, rfl⟩ := List.mem_map.mp hp
    rw [e.publicKey_iff.mp hkey]
    exact applied_listed hK hkeys he (c.settled D)
  · refine applied_other (fun e he heq => hkey ⟨e.peer, ?_, e.publicKey_iff.mpr heq.symm⟩) (c.settled D)
    exact plan.peers_eq ▸ List.mem_map_of_mem he
  · rw [plan.peers_eq]
    exact applied_owner hsettled hkeys hnets hips

end Plan

/-- What a configuration leads to, in however many messages and chunks it is
sent. -/
theorem buildMessages_configures (hK : K.ignores = WireguardPeerAttribute.isReported)
    (h : c.buildMessages .setDevice = .ok ms) (hnames : c.Names D) (howned : D.Owned)
    (hdistinct : c.Distinct K) (hupdates : c.UpdatesWhole D) :
    c.Configures K D (ms.foldl K.setDevice D) := by
  obtain ⟨plan, rfl⟩ := buildMessages_plan.mp h
  exact plan.configures hK hnames howned hdistinct hupdates

/-- A peer which gets a new network, and one which is removed if it is there. -/
def sampleMove : WireguardParsed where
  ifaceName := some "wg0"
  listenPort := some 51820
  peers := some
    [{ publicKey := some (encodeKey .zero)
       persistentKeepalive := some 25
       allowedIps := some [⟨24, .v4 0x0a000000, none⟩]
       flags := some [.replaceAllowedIps] },
     .remove (encodeKey sampleKey)]

def moveMessages : List WireguardMessage :=
  [⟨.setDevice, [.ifName "wg0", .listenPort 51820, .peers
    [⟨[.publicKey .zero, .persistentKeepalive 25, .flags .replaceAllowedIps,
      .allowedIps [⟨[.cidr 24, .family .ipv4, .ipAddr (.v4 0x0a000000)]⟩]]⟩,
     ⟨[.publicKey sampleKey, .flags .removeMe]⟩]]⟩]

omit [Base64.Engine] in
theorem built_move : @buildMessages Base64.standard (@sampleMove Base64.standard) .setDevice =
    .ok moveMessages := by
  decide +kernel

theorem distinct_move : sampleMove.Distinct .sample where
  keys := by
    have hne : (encodeKey .zero : String) ≠ encodeKey sampleKey := fun h =>
      absurd (encodeKey_injective h) (by decide)
    simpa [sampleMove, WireguardPeerParsed.remove] using hne
  networks := by simp [sampleMove, WireguardPeerParsed.remove, WireguardPeerParsed.networks]
  consistent p hp := by
    simp only [sampleMove, Option.getD_some, List.mem_cons, List.not_mem_nil, or_false] at hp
    rcases hp with rfl | rfl <;>
      simp [WireguardIpAddress.Consistent, WireguardPeerParsed.remove]

omit [Base64.Engine] in
theorem ignores_sample : Kernel.sample.ignores = WireguardPeerAttribute.isReported := by
  funext attr
  cases attr <;> rfl

omit [Base64.Engine] in
theorem not_updatesOnly_move :
    ∀ p ∈ (@sampleMove Base64.standard).peers.getD [], ¬p.UpdatesOnly := by
  decide +kernel

omit [Base64.Engine] in
theorem buildMessages_configures_sample :
    @Configures Base64.standard (@sampleMove Base64.standard) .sample sampleDevice
      (moveMessages.foldl Kernel.sample.setDevice sampleDevice) :=
  letI := Base64.standard
  buildMessages_configures ignores_sample built_move (.inl rfl) sound_sample.owned distinct_move
    fun p hp hupdates => absurd hupdates (not_updatesOnly_move p hp)

end WireguardParsed

end NlWireguard
