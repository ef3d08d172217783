import NlWireguard.Again

/-!
# What a configuration leaves alone

A configuration which does not replace all peers changes only what it mentions:
the properties it sets, the peers it lists and the allowed IPs of these peers.
This holds at every moment while it is applied, and also when it is given up.
-/

namespace NlWireguard

variable {K : Kernel} {D E : Device}

namespace Change

/-- The peer which is changed. -/
def key? : Change → Option Key
  | removePeer key | peerAttribute key _ | releaseIps key | allowedIp key _ => some key
  | deviceAttribute _ | removePeers => none

theorem onPeer_other {change : Change} (hkey : change.key? = some k) (hne : k ≠ key)
    (s : Option PeerState) : change.onPeer K key s = s := by
  cases change <;> simp_all [key?, onPeer]

/-- A network leaves its peer only for another peer. -/
theorem onNetwork_other {change : Change} (hkey : change.key? = some k) (hne : k ≠ key)
    (hnet : ∀ ip, change = .allowedIp k ip → K.network? ip = some net → ip.Removes) :
    change.onNetwork K net (some key) = some key := by
  have hkept : some key ≠ some k := fun heq => hne (Option.some.inj heq).symm
  cases change with
  | allowedIp k' ip =>
    cases hkey
    by_cases hip : K.network? ip = some net
    · rw [onNetwork, if_pos hip, if_pos (hnet ip rfl hip), if_neg hkept]
    · rw [onNetwork, if_neg hip]
  | removePeer k' =>
    cases hkey
    exact if_neg hkept
  | releaseIps k' =>
    cases hkey
    exact if_neg hkept
  | peerAttribute k' attr => rfl
  | deviceAttribute attr => cases hkey
  | removePeers => cases hkey

end Change

theorem key?_changes (h : c ∈ WireguardPeer.changes peer key) : c.key? = some key := by
  unfold WireguardPeer.changes at h
  split at h
  · obtain rfl := List.mem_singleton.mp h
    rfl
  · rw [List.append_assoc, List.mem_append, List.mem_append] at h
    rcases h with h | h | h
    · obtain ⟨attr, -, rfl⟩ := List.mem_map.mp h
      rfl
    · split at h <;> simp_all [Change.key?]
    · obtain ⟨ip, -, rfl⟩ := List.mem_map.mp h
      rfl

-- ---------------------------------------------------------------------------
-- The changes a configuration asks for
-- ---------------------------------------------------------------------------

namespace WireguardIpAddress

def networkIn (ip : WireguardIpAddress) (K : Kernel) : Network :=
  (K.network ip.ipAddr ip.prefixLength, ip.prefixLength)

/-- The network is to be taken from the peer. -/
def Removes (ip : WireguardIpAddress) : Prop := ip.toAllowedIp.Removes

instance (ip : WireguardIpAddress) : Decidable ip.Removes := inferInstanceAs (Decidable (_ = _))

theorem network?_toAllowedIp (ip : WireguardIpAddress) (K : Kernel) :
    K.network? ip.toAllowedIp = some (ip.networkIn K) := rfl

end WireguardIpAddress

/-- The networks a peer of a configuration lists. -/
def WireguardPeerParsed.networks (p : WireguardPeerParsed) (K : Kernel) : List Network :=
  (p.allowedIps.getD []).map (·.networkIn K)

variable [Base64.Engine] {c : WireguardParsed}

def WireguardParsed.Mentions (c : WireguardParsed) (key : Key) : Prop :=
  ∃ p ∈ c.peers.getD [], p.publicKey = some (encodeKey key)

/-- The configuration gives the network to this peer. -/
def WireguardParsed.Assigns (c : WireguardParsed) (K : Kernel) (key : Key) (net : Network) : Prop :=
  ∃ p ∈ c.peers.getD [], p.publicKey = some (encodeKey key) ∧ ¬p.Removes ∧
    ∃ ip ∈ p.allowedIps.getD [], ip.networkIn K = net ∧ ¬ip.Removes

inductive Change.Asked (K : Kernel) (c : WireguardParsed) : Change → Prop
  | privateKey {key : Key} (h : c.privateKey.isSome) : Asked K c (.deviceAttribute (.privateKey key))
  | listenPort {port : UInt16} (h : c.listenPort.isSome) : Asked K c (.deviceAttribute (.listenPort port))
  | fwmark {mark : UInt32} (h : c.fwmark.isSome) : Asked K c (.deviceAttribute (.fwmark mark))
  /-- The attribute does not configure anything. -/
  | inert {attr : WireguardAttribute} (h : ∀ D : Device, D.setAttribute attr = D) :
      Asked K c (.deviceAttribute attr)
  | removePeers (h : c.ReplacesPeers) : Asked K c .removePeers
  | peer {change : Change} {key : Key} (hkey : change.key? = some key) (hpeer : c.Mentions key)
      (hips : ∀ k ip net, change = .allowedIp k ip → K.network? ip = some net → ¬ip.Removes →
        c.Assigns K key net) :
      Asked K c change

namespace WireguardParsed.Plan

variable (plan : c.Plan)

theorem asked_attribute (h : attr ∈ c.attributes plan.iface plan.keys) :
    Change.Asked K c (.deviceAttribute attr) := by
  have haccepted := plan.accepted
  simp only [attributes, List.mem_append, List.mem_singleton, mem_emit] at h
  rcases h with ((((rfl | ⟨v, hv, rfl⟩) | ⟨v, hv, rfl⟩) | ⟨v, hv, rfl⟩) | ⟨v, hv, rfl⟩) | ⟨v, hv, rfl⟩
  · rcases plan.iface_cases with ⟨name, h⟩ | ⟨index, h⟩ <;> exact .inert fun D => by rw [h]; rfl
  · exact .inert fun D => rfl
  · exact .privateKey (by simp [haccepted.privateKey, hv])
  · exact .listenPort (by simp [hv])
  · exact .fwmark (by simp [hv])
  · exact .inert fun D => rfl

theorem asked_attributes (hm : m ∈ plan.messages cmd) (h : change ∈ attributeChanges m.attributes) :
    change.Asked K c := by
  obtain ⟨first, rest, hbins, -, -⟩ := plan.exists_bins
  rw [plan.messages_shaped hbins, shaped, List.mem_cons] at hm
  rcases hm with rfl | hm
  · rcases mem_attributeChanges.mp h with ⟨hreplaces, rfl⟩ | ⟨attr, hattr, rfl⟩
    · exact .removePeers ((plan.replacesPeers_first first).mp hreplaces)
    · rcases List.mem_append.mp hattr with hattr | hpeers
      · exact plan.asked_attribute hattr
      · obtain ⟨_, -, rfl⟩ := mem_emit.mp hpeers
        exact .inert fun D => rfl
  · obtain ⟨bin, -, rfl⟩ := List.mem_map.mp hm
    have hiface : plan.iface.flags? = none := plan.iface_none _ (fun _ => rfl) (fun _ => rfl)
    rcases mem_attributeChanges.mp h with ⟨hreplaces, -⟩ | ⟨attr, hattr, rfl⟩
    · have hnone : [plan.iface, .peers bin].findSome? (·.flags?) = none := by
        rw [List.findSome?_cons_of_isNone (by rw [hiface]; rfl)]
        rfl
      rw [hnone] at hreplaces
      exact absurd hreplaces (by decide)
    · refine .inert fun D => ?_
      rcases plan.iface_cases with ⟨name, hiface⟩ | ⟨index, hiface⟩ <;> simp [hiface] at hattr <;>
        rcases hattr with rfl | rfl <;> rfl

theorem asked_chunk (e : WireguardPeerParsed.Checked) (he : e ∈ plan.entries) (hchunk : chunk ∈ e.chunks)
    (h : change ∈ WireguardPeer.allChanges chunk) : change.Asked K c := by
  have hkey := e.chunks_publicKey? chunk hchunk
  rw [allChanges_key hkey] at h
  have hpeer : e.peer ∈ c.peers.getD [] := plan.peers_eq ▸ List.mem_map_of_mem he
  refine .peer (key?_changes h) ⟨e.peer, hpeer, e.accepted.publicKey⟩
    fun k ip net hip hnet hgiven => ?_
  subst hip
  have hmem : ip ∈ e.chunks.flatMap (·.allowedIps) :=
    List.mem_flatMap.mpr ⟨chunk, hchunk, mem_changes h⟩
  rw [e.allowedIps_chunks] at hmem
  split at hmem
  · simp at hmem
  · obtain ⟨parsed, hparsed, rfl⟩ := List.mem_map.mp hmem
    rw [parsed.network?_toAllowedIp] at hnet
    exact ⟨e.peer, hpeer, e.accepted.publicKey, ‹_›, parsed, hparsed, Option.some.inj hnet, hgiven⟩

/-- All changes of the messages are asked for by the configuration. -/
theorem asked (h : change ∈ (plan.messages cmd).flatMap (·.allChanges)) : change.Asked K c := by
  obtain ⟨m, hm, h⟩ := List.mem_flatMap.mp h
  rcases List.mem_append.mp h with hattr | hentry
  · exact plan.asked_attributes hm hattr
  · obtain ⟨chunk, hchunk, h⟩ := List.mem_flatMap.mp hentry
    have hmem : chunk ∈ plan.chunks := by
      rw [← plan.flatMap_rawPeers cmd]
      exact List.mem_flatMap.mpr ⟨m, hm, hchunk⟩
    obtain ⟨group, hgroup, hmem⟩ := List.mem_flatten.mp hmem
    obtain ⟨e, he, rfl⟩ := List.mem_map.mp hgroup
    exact plan.asked_chunk e he hmem h

end WireguardParsed.Plan

-- ---------------------------------------------------------------------------
-- The rest of the device
-- ---------------------------------------------------------------------------

/-- `E` differs from `D` only in what the configuration is about. -/
structure WireguardParsed.Confined (c : WireguardParsed) (K : Kernel) (D E : Device) : Prop where
  ifName : E.ifName = D.ifName
  ifIndex : E.ifIndex = D.ifIndex
  privateKey : c.privateKey = none → E.privateKey = D.privateKey
  listenPort : c.listenPort = none → E.listenPort = D.listenPort
  fwmark : c.fwmark = none → E.fwmark = D.fwmark
  peers : ¬c.ReplacesPeers → ∀ key, ¬c.Mentions key → E.peers key = D.peers key
  /-- A peer keeps its networks unless it is mentioned or another peer gets them. -/
  loses : ¬c.ReplacesPeers → ∀ net key, D.owner net = some key → E.owner net ≠ some key →
    c.Mentions key ∨ ∃ other, c.Assigns K other net
  gains : ∀ net key, E.owner net = some key → D.owner net = some key ∨ c.Assigns K key net

theorem WireguardParsed.Confined.refl (c : WireguardParsed) (K : Kernel) (D : Device) :
    c.Confined K D D where
  ifName := rfl
  ifIndex := rfl
  privateKey _ := rfl
  listenPort _ := rfl
  fwmark _ := rfl
  peers _ _ _ := rfl
  loses _ _ _ h hne := absurd h hne
  gains _ _ h := .inl h

theorem WireguardParsed.Confined.deviceAttribute (h : c.Confined K D E)
    (hasked : Change.Asked K c (.deviceAttribute attr)) : c.Confined K D (E.setAttribute attr) := by
  cases hasked with
  | privateKey hkey => exact { h with privateKey := fun hnone => by simp [hnone] at hkey }
  | listenPort hport => exact { h with listenPort := fun hnone => by simp [hnone] at hport }
  | fwmark hmark => exact { h with fwmark := fun hnone => by simp [hnone] at hmark }
  | inert hinert => exact (hinert E).symm ▸ h
  | peer hkey => exact nomatch hkey

omit [Base64.Engine] in
theorem change_settings (K : Kernel) (D : Device) {change : Change}
    (hpeer : ∀ attr, change ≠ .deviceAttribute attr) :
    ∃ peers owner, K.change D change = { D with peers := peers, owner := owner } := by
  cases change with
  | deviceAttribute attr => exact absurd rfl (hpeer attr)
  | _ => exact ⟨_, _, rfl⟩

namespace Change.Asked

variable {change : Change}

/-- A peer which is not mentioned is not changed. -/
theorem peers_eq (hasked : change.Asked K c) (hkept : ¬c.ReplacesPeers) (hkey : ¬c.Mentions key)
    (E : Device) : (K.change E change).peers key = E.peers key := by
  rw [peers_change]
  cases hasked with
  | removePeers hreplaces => exact absurd hreplaces hkept
  | peer hchanged hmentions =>
    refine onPeer_other hchanged (fun heq => hkey ?_) _
    exact heq ▸ hmentions
  | _ => rfl

/-- A peer loses a network if it is mentioned or the network is given away. -/
theorem of_lost (hasked : change.Asked K c) (hkept : ¬c.ReplacesPeers)
    (howner : E.owner net = some key) (hlost : (K.change E change).owner net ≠ some key) :
    c.Mentions key ∨ ∃ other, c.Assigns K other net := by
  rw [owner_change, howner] at hlost
  cases hasked with
  | removePeers hreplaces => exact absurd hreplaces hkept
  | @peer _ k hchanged hmentions hips =>
    by_contra hnot
    push Not at hnot
    refine hlost (onNetwork_other hchanged (fun heq => hnot.1 (heq ▸ hmentions)) ?_)
    intro ip hip hnet
    by_contra hgiven
    exact hnot.2 k (hips k ip net hip hnet hgiven)
  | _ => exact absurd rfl hlost

/-- A peer only gets networks it is given. -/
theorem of_gained (hasked : change.Asked K c) (hnet : (K.change E change).owner net = some key) :
    E.owner net = some key ∨ c.Assigns K key net := by
  rcases change_owner_cases hnet with hE | ⟨ip, rfl, hip, hgiven⟩
  · exact .inl hE
  · cases hasked with
    | peer hkey _ hips =>
      cases hkey
      exact .inr (hips _ ip net rfl hip hgiven)

end Change.Asked

theorem WireguardParsed.Confined.change {change : Change} (h : c.Confined K D E)
    (hasked : change.Asked K c) : c.Confined K D (K.change E change) := by
  by_cases hpeer : ∀ attr, change ≠ .deviceAttribute attr
  · obtain ⟨peers, owner, hframe⟩ := change_settings K E hpeer
    have hpeers : ¬c.ReplacesPeers → ∀ key, ¬c.Mentions key →
        (K.change E change).peers key = D.peers key := fun hkept key hkey =>
      (hasked.peers_eq hkept hkey E).trans (h.peers hkept key hkey)
    have hloses : ¬c.ReplacesPeers → ∀ net key, D.owner net = some key →
        (K.change E change).owner net ≠ some key →
        c.Mentions key ∨ ∃ other, c.Assigns K other net := by
      intro hkept net key hD hlost
      by_cases hE : E.owner net = some key
      · exact hasked.of_lost hkept hE hlost
      · exact h.loses hkept net key hD hE
    have hgains : ∀ net key, (K.change E change).owner net = some key →
        D.owner net = some key ∨ c.Assigns K key net := fun net key hnet =>
      (hasked.of_gained hnet).elim (h.gains net key) .inr
    rw [hframe] at hpeers hloses hgains ⊢
    exact { h with peers := hpeers, loses := hloses, gains := hgains }
  · push Not at hpeer
    obtain ⟨attr, rfl⟩ := hpeer
    exact h.deviceAttribute hasked

theorem WireguardParsed.Plan.confined (plan : c.Plan) (h : K.Made (plan.messages cmd) D E) :
    c.Confined K D E := by
  obtain ⟨cs, hcs, rfl⟩ := h
  exact List.foldlRecOn (motive := c.Confined K D) cs K.change (.refl c K D)
    fun _ hE _ hc => hE.change (plan.asked (hcs hc))

/-- Wherever an attempt to apply a configuration ends, nothing but what the
configuration is about has changed. -/
theorem WireguardParsed.buildMessages_confined (h : c.buildMessages .setDevice = .ok ms)
    (hattempt : K.Attempts ms D E) : c.Confined K D E := by
  obtain ⟨plan, rfl⟩ := buildMessages_plan.mp h
  exact plan.confined hattempt.made

omit [Base64.Engine] in
theorem WireguardParsed.buildMessages_confined_sample :
    @Confined Base64.standard (@largeConfig Base64.standard [] 3000) .sample sampleDevice
      (givenUp .sample sampleDevice
        (@Plan.messages Base64.standard _ (@largePlan Base64.standard [] 3000) .setDevice)) :=
  letI := Base64.standard
  buildMessages_confined (built_large [] 3000 .setDevice) (attempt_givenUp _ _ _)

end NlWireguard
