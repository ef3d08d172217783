import NlWireguard.Lib.Interleave
import NlWireguard.Report

/-!
# The order of a configuration

In which order a configuration lists its peers, and a peer its allowed IPs, decides
how they are split into chunks and messages, but not what becomes of the device.
-/

namespace NlWireguard

open Interleave

variable {K : Kernel} {D E : Device}

-- ---------------------------------------------------------------------------
-- Peers
-- ---------------------------------------------------------------------------

namespace WireguardPeerParsed

structure Reordered (p q : WireguardPeerParsed) : Prop where
  others : { p with allowedIps := none } = { q with allowedIps := none }
  allowedIps : Option.Rel List.Perm p.allowedIps q.allowedIps

variable {p q : WireguardPeerParsed}

theorem Reordered.eq (h : p.Reordered q) : q = { p with allowedIps := q.allowedIps } := by
  have heq := congrArg (fun r : WireguardPeerParsed => { r with allowedIps := q.allowedIps }) h.others
  exact heq.symm

theorem Reordered.perm (h : p.Reordered q) :
    (p.allowedIps.getD []).Perm (q.allowedIps.getD []) := by
  have hips := h.allowedIps
  generalize p.allowedIps = ips at hips ⊢
  generalize q.allowedIps = others at hips ⊢
  cases hips with
  | none => exact .refl _
  | some hperm => exact hperm

theorem Reordered.symm (h : p.Reordered q) : q.Reordered p where
  others := h.others.symm
  allowedIps := by
    have hips := h.allowedIps
    generalize p.allowedIps = ips at hips ⊢
    generalize q.allowedIps = others at hips ⊢
    cases hips with
    | none => exact .none
    | some hperm => exact .some hperm.symm

theorem Reordered.publicKey (h : p.Reordered q) : q.publicKey = p.publicKey := by rw [h.eq]

theorem Reordered.networks (h : p.Reordered q) (K : Kernel) : (p.networks K).Perm (q.networks K) :=
  h.perm.map _

variable [Base64.Engine]

theorem Reordered.outcome (h : p.Reordered q) (before : Option PeerState) :
    q.outcome before = p.outcome before := by
  rw [h.eq]
  rfl

theorem Reordered.gives (h : p.Reordered q) (hgives : p.Gives K before net) : q.Gives K before net := by
  obtain ⟨hsome, ip, hip, hnet⟩ := hgives
  exact ⟨by rwa [h.outcome], ip, h.perm.mem_iff.mp hip, hnet⟩

omit [Base64.Engine] in
theorem Reordered.takes (h : p.Reordered q) (htakes : p.Takes K net) : q.Takes K net := by
  have hremoves : q.Removes ↔ p.Removes := by
    rw [h.eq]
    exact .rfl
  have hreplaces : q.ReplacesIps ↔ p.ReplacesIps := by
    rw [h.eq]
    exact .rfl
  rcases htakes with hr | hr | ⟨ip, hip, hnet⟩
  · exact .inl (hremoves.mpr hr)
  · exact .inr (.inl (hreplaces.mpr hr))
  · exact .inr (.inr ⟨ip, h.perm.mem_iff.mp hip, hnet⟩)

theorem Reordered.accepted (h : p.Reordered q) (hp : p.Accepted keys) : q.Accepted keys where
  publicKey := h.publicKey.trans hp.publicKey
  presharedKey := by
    rw [h.eq]
    exact hp.presharedKey
  allowedIps ip hip := hp.allowedIps ip (h.perm.mem_iff.mpr hip)

omit [Base64.Engine] in
theorem Reordered.bufferLen_eq (h : p.Reordered q) (keys : Keys) :
    bufferLen (WireguardPeer.mk (q.attributes keys)) = bufferLen (WireguardPeer.mk (p.attributes keys)) := by
  have hstate : q.firstLen keys = p.firstLen keys := by
    rw [h.eq]
    rfl
  have hips := h.allowedIps
  cases hp : p.allowedIps with
  | none =>
    rw [hp] at hips
    cases hq : q.allowedIps with
    | none => rw [h.eq, hq, ← hp]
    | some _ =>
      rw [hq] at hips
      exact nomatch hips
  | some ips =>
    rw [hp] at hips
    cases hq : q.allowedIps with
    | none =>
      rw [hq] at hips
      exact nomatch hips
    | some others =>
      rw [hq, Option.rel_some_some] at hips
      rw [bufferLen_attributes p keys hp, bufferLen_attributes q keys hq, hstate,
        NextFit.total_perm (hips.map WireguardIpAddress.toAllowedIp)]

/-- Both peers are built, and take the same number of bytes. -/
theorem Reordered.build (h : p.Reordered q) (hq : q.build = .ok built) :
    ∃ other, p.build = .ok other ∧ bufferLen built = bufferLen other := by
  obtain ⟨keys, haccepted, rfl⟩ := build_ok.mp hq
  exact ⟨_, build_ok.mpr ⟨keys, h.symm.accepted haccepted, rfl⟩, h.bufferLen_eq keys⟩

end WireguardPeerParsed

-- ---------------------------------------------------------------------------
-- Configurations
-- ---------------------------------------------------------------------------

namespace WireguardParsed

/-- The same configuration, with its peers and their allowed IPs in another
order. -/
structure Reordered (c d : WireguardParsed) : Prop where
  others : { c with peers := none } = { d with peers := none }
  peers : ∃ qs : List WireguardPeerParsed,
    List.Forall₂ WireguardPeerParsed.Reordered (c.peers.getD []) qs ∧ qs.Perm (d.peers.getD [])

variable {c d : WireguardParsed}

theorem Reordered.eq (h : c.Reordered d) : d = { c with peers := d.peers } := by
  have heq := congrArg (fun r : WireguardParsed => { r with peers := d.peers }) h.others
  exact heq.symm

theorem Reordered.mem (h : c.Reordered d) (hp : p ∈ c.peers.getD []) :
    ∃ q ∈ d.peers.getD [], p.Reordered q := by
  obtain ⟨qs, hpeers, hperm⟩ := h.peers
  obtain ⟨q, hq, hpq⟩ := Folds.exists_of_forall₂ hpeers p hp
  exact ⟨q, hperm.mem_iff.mp hq, hpq⟩

theorem Reordered.mem_symm (h : c.Reordered d) (hq : q ∈ d.peers.getD []) :
    ∃ p ∈ c.peers.getD [], q.Reordered p := by
  obtain ⟨qs, hpeers, hperm⟩ := h.peers
  have hflip : List.Forall₂ WireguardPeerParsed.Reordered qs (c.peers.getD []) :=
    (hpeers.imp fun _ _ hpq => hpq.symm).flip
  exact Folds.exists_of_forall₂ hflip q (hperm.mem_iff.mpr hq)

/-- What holds of a peer in any order holds of one of the peers. -/
theorem Reordered.exists_peer (h : c.Reordered d) {P : WireguardPeerParsed → Prop}
    (hP : ∀ p q, p.Reordered q → P p → P q) :
    (∃ q ∈ d.peers.getD [], P q) ↔ ∃ p ∈ c.peers.getD [], P p := by
  constructor
  · rintro ⟨q, hq, hPq⟩
    obtain ⟨p, hp, hqp⟩ := h.mem_symm hq
    exact ⟨p, hp, hP q p hqp hPq⟩
  · rintro ⟨p, hp, hPp⟩
    obtain ⟨q, hq, hpq⟩ := h.mem hp
    exact ⟨q, hq, hP p q hpq hPp⟩

theorem Reordered.distinct (h : c.Reordered d) (hc : c.Distinct K) : d.Distinct K := by
  obtain ⟨qs, hpeers, hperm⟩ := h.peers
  have hkeys : (c.peers.getD []).map (·.publicKey) = qs.map (·.publicKey) :=
    Folds.map_congr (fun _ _ _ hpq => hpq.publicKey.symm) hpeers
  have hnets : qs.Pairwise fun p other => (p.networks K).Disjoint (other.networks K) := by
    refine pairwise_of_forall₂ (fun p p' q q' hpq hpq' hdisjoint net hp hp' => ?_) hpeers hc.networks
    exact hdisjoint ((hpq.networks K).mem_iff.mpr hp) ((hpq'.networks K).mem_iff.mpr hp')
  refine ⟨?_, (hperm.pairwise_iff List.disjoint_symm).mp hnets, fun q hq => ?_⟩
  · exact (hperm.map _).nodup_iff.mp (hkeys ▸ hc.keys)
  · obtain ⟨p, hp, hqp⟩ := h.mem_symm hq
    exact fun ip hip other hother => hc.consistent p hp ip (hqp.perm.mem_iff.mp hip) other
      (hqp.perm.mem_iff.mp hother)

variable [Base64.Engine]

theorem Reordered.isOk (h : c.Reordered d) (hc : c.buildMessages cmd = .ok ms) :
    ∃ ms', d.buildMessages cmd = .ok ms' := by
  obtain ⟨plan, rfl⟩ := buildMessages_plan.mp hc
  obtain ⟨entries, hentries⟩ : ∃ entries : List WireguardPeerParsed.Checked,
      d.peers.getD [] = entries.map (·.peer) := by
    refine exists_entries fun q hq => ?_
    obtain ⟨p, hp, hqp⟩ := h.mem_symm hq
    rw [plan.peers_eq] at hp
    obtain ⟨e, -, rfl⟩ := List.mem_map.mp hp
    exact ⟨e.keys, hqp.symm.accepted e.accepted⟩
  have haccepted : d.Accepted plan.iface plan.keys := by
    have haccepted := plan.accepted
    rw [h.eq]
    exact ⟨haccepted.iface, haccepted.publicKey, haccepted.privateKey⟩
  exact ⟨_, buildMessages_plan.mpr ⟨⟨plan.iface, plan.keys, haccepted, entries, hentries⟩, rfl⟩⟩

theorem Reordered.mentions (h : c.Reordered d) : d.Mentions key ↔ c.Mentions key :=
  h.exists_peer fun _ _ hpq hkey => hpq.publicKey.trans hkey

theorem Reordered.givesTo (h : c.Reordered d) :
    GivesTo (d.peers.getD []) K D net key ↔ GivesTo (c.peers.getD []) K D net key :=
  h.exists_peer fun _ _ hpq hgives => ⟨hpq.publicKey.trans hgives.1, hpq.gives hgives.2⟩

theorem Reordered.takesFrom (h : c.Reordered d) :
    TakesFrom (d.peers.getD []) K net key ↔ TakesFrom (c.peers.getD []) K net key :=
  h.exists_peer fun _ _ hpq htakes => ⟨hpq.publicKey.trans htakes.1, hpq.takes htakes.2⟩

omit [Base64.Engine] in
theorem Reordered.base (h : c.Reordered d) (D : Device) : d.base D = c.base D := by
  rw [h.eq]
  rfl

/-- A configuration means the same in any order. -/
theorem Reordered.configures (h : c.Reordered d) (hc : d.Configures K D E) : c.Configures K D E where
  ifName := hc.ifName
  ifIndex := hc.ifIndex
  privateKey := by
    have hkey : d.privateKey = c.privateKey := by rw [h.eq]
    rw [hc.privateKey, hkey]
  listenPort := by
    have hport : d.listenPort = c.listenPort := by rw [h.eq]
    rw [hc.listenPort, hport]
  fwmark := by
    have hmark : d.fwmark = c.fwmark := by rw [h.eq]
    rw [hc.fwmark, hmark]
  listed p hp key hkey := by
    obtain ⟨q, hq, hpq⟩ := h.mem hp
    rw [hc.listed q hq key (hpq.publicKey.trans hkey), hpq.outcome, h.base]
  others key hkey := by
    rw [hc.others key (mt h.mentions.mp hkey), h.base]
  owner net key := by
    have howner := hc.owner net key
    simpa only [h.givesTo, h.takesFrom, h.base] using howner

theorem Reordered.updatesWhole (h : c.Reordered d) (hc : c.UpdatesWhole D) : d.UpdatesWhole D := by
  intro q hq hupdates hkept
  obtain ⟨p, hp, hqp⟩ := h.mem_symm hq
  have hflags : p.flags = q.flags := by rw [hqp.eq]
  unfold WireguardPeerParsed.UpdatesOnly at hupdates
  unfold WireguardPeerParsed.Removes at hkept
  rw [← hflags] at hupdates hkept
  rcases hc p hp hupdates hkept with ⟨key, hkey, hpresent⟩ | hshort
  · refine .inl ⟨key, hqp.symm.publicKey.trans hkey, ?_⟩
    rwa [h.base]
  · refine .inr fun built hbuilt => ?_
    obtain ⟨other, hother, hlen⟩ := hqp.symm.build hbuilt
    rw [hlen]
    exact hshort other hother

/-- What a configuration leads to is determined. -/
theorem Configures.unique {E' : Device} (h : c.Configures K D E) (h' : c.Configures K D E') :
    E = E' := by
  refine ext_fields (h.ifName.trans h'.ifName.symm) (h.ifIndex.trans h'.ifIndex.symm)
    (h.privateKey.trans h'.privateKey.symm) (h.listenPort.trans h'.listenPort.symm)
    (h.fwmark.trans h'.fwmark.symm) (funext fun key => ?_) (funext fun net => Option.ext fun key => ?_)
  · by_cases hkey : c.Mentions key
    · obtain ⟨p, hp, hkey⟩ := hkey
      rw [h.listed p hp key hkey, h'.listed p hp key hkey]
    · rw [h.others key hkey, h'.others key hkey]
  · exact (h.owner net key).trans (h'.owner net key).symm

/-- In which order peers and allowed IPs are listed does not matter to the
device, though it does to the messages. -/
theorem buildMessages_reordered (hK : K.ignores = WireguardPeerAttribute.isReported)
    (h : c.Reordered d) (hms : c.buildMessages .setDevice = .ok ms) (howned : D.Owned)
    (hdistinct : c.Distinct K) (hupdates : c.UpdatesWhole D) :
    ∃ ms', d.buildMessages .setDevice = .ok ms' ∧
      ms'.foldl K.setDevice D = ms.foldl K.setDevice D := by
  obtain ⟨ms', hms'⟩ := h.isOk hms
  refine ⟨ms', hms', ?_⟩
  obtain ⟨plan, rfl⟩ := buildMessages_plan.mp hms
  obtain ⟨plan', rfl⟩ := buildMessages_plan.mp hms'
  have hsame : d.Names D ↔ c.Names D := by
    rw [h.eq]
    rfl
  by_cases hnames : c.Names D
  · have hfirst := plan.configures hK hnames howned hdistinct hupdates
    have hsecond := plan'.configures hK (hsame.mpr hnames) howned (h.distinct hdistinct)
      (h.updatesWhole hupdates)
    exact (h.configures hsecond).unique hfirst
  · rw [plan.foldl_messages, plan'.foldl_messages, if_neg hnames, if_neg (mt hsame.mp hnames)]

/-- The peers the other way round. -/
def reversed (c : WireguardParsed) : WireguardParsed := { c with peers := c.peers.map List.reverse }

omit [Base64.Engine] in
theorem reordered_reversed (c : WireguardParsed) : c.Reordered c.reversed where
  others := rfl
  peers := by
    have hrefl (p : WireguardPeerParsed) : p.Reordered p := by
      refine ⟨rfl, ?_⟩
      cases p.allowedIps with
      | none => exact .none
      | some ips => exact .some (.refl ips)
    refine ⟨_, List.forall₂_same.mpr fun p _ => hrefl p, ?_⟩
    cases hpeers : c.peers with
    | none => simp [reversed, hpeers]
    | some peers =>
      simp only [reversed, hpeers, Option.map_some, Option.getD_some]
      exact (List.reverse_perm peers).symm

omit [Base64.Engine] in
theorem buildMessages_reordered_sample :
    ∃ ms, @buildMessages Base64.standard (@sampleMove Base64.standard).reversed .setDevice = .ok ms ∧
      ms.foldl Kernel.sample.setDevice sampleDevice =
        moveMessages.foldl Kernel.sample.setDevice sampleDevice :=
  letI := Base64.standard
  buildMessages_reordered ignores_sample (reordered_reversed sampleMove) built_move sound_sample.owned
    distinct_move fun p hp hupdates => absurd hupdates (not_updatesOnly_move p hp)

end WireguardParsed

end NlWireguard
