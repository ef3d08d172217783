import NlWireguard.Meaning

/-!
# Configurations in a row

Configuring a device several times is configuring it once: later settings take the
place of earlier ones, and the peers are listed one configuration after the other,
from the last one on which replaces all peers. Nothing is asked of the peers: one may
be listed many times, only be updated, or be removed and listed again.
-/

namespace NlWireguard

variable {K : Kernel} {D : Device}

-- ---------------------------------------------------------------------------
-- Settings
-- ---------------------------------------------------------------------------

/-- The peers of `D` in a device with the settings of `E`. -/
def Device.withSettings (D E : Device) : Device :=
  { D with privateKey := E.privateKey, listenPort := E.listenPort, fwmark := E.fwmark }

/-- What happens to a peer does not depend on the settings. -/
theorem setPeer_withSettings (K : Kernel) (D E : Device) (peer : WireguardPeer) :
    K.setPeer (D.withSettings E) peer = (K.setPeer D peer).withSettings E := by
  cases hkey : peer.publicKey? with
  | none => simp [Kernel.setPeer, hkey]
  | some key =>
    cases hpeer : D.peers key with
    | none =>
      have hpeer' : (D.withSettings E).peers key = none := hpeer
      rw [setPeer_absent hkey hpeer, setPeer_absent hkey hpeer']
      split <;> rfl
    | some s =>
      have hpeer' : (D.withSettings E).peers key = some s := hpeer
      rw [setPeer_present hkey hpeer, setPeer_present hkey hpeer']
      split <;> rfl

theorem foldl_setPeer_withSettings (K : Kernel) (D E : Device) (entries : List WireguardPeer) :
    entries.foldl K.setPeer (D.withSettings E) = (entries.foldl K.setPeer D).withSettings E :=
  List.foldl_hom (Device.withSettings · E) fun D peer => setPeer_withSettings K D E peer

namespace WireguardParsed

variable [Base64.Engine] {c d : WireguardParsed}

theorem settled_eq (c : WireguardParsed) (D : Device) :
    c.settled D = (c.base D).withSettings (c.settled D) := rfl

theorem foldl_settled_frame (c : WireguardParsed) (K : Kernel) (D : Device)
    (entries : List WireguardPeer) : ∃ peers owner,
      entries.foldl K.setPeer (c.settled D) =
        { D with peers := peers, owner := owner : Device }.withSettings (c.settled D) := by
  obtain ⟨peers, owner, hbase⟩ := foldl_setPeer_frame K (c.base D) entries
  refine ⟨peers, owner, ?_⟩
  rw [settled_eq, foldl_setPeer_withSettings, hbase]
  unfold base
  split <;> rfl

-- ---------------------------------------------------------------------------
-- Two configurations
-- ---------------------------------------------------------------------------

/-- The configuration `c`, and then `d`. -/
def updatedBy (c d : WireguardParsed) : WireguardParsed where
  ifaceName := c.ifaceName
  ifaceIndex := c.ifaceIndex
  publicKey := d.publicKey.or c.publicKey
  privateKey := d.privateKey.or c.privateKey
  listenPort := d.listenPort.or c.listenPort
  fwmark := d.fwmark.or c.fwmark
  peers := if d.ReplacesPeers then d.peers else some (c.peers.getD [] ++ d.peers.getD [])
  flags := if d.ReplacesPeers then d.flags else c.flags

omit [Base64.Engine] in
theorem base_updatedBy (c d : WireguardParsed) (D : Device) :
    (c.updatedBy d).base D = if d.ReplacesPeers then D.removePeers else c.base D := by
  have hflags : (c.updatedBy d).flags = if d.ReplacesPeers then d.flags else c.flags := rfl
  by_cases hreplaces : d.ReplacesPeers
  · rw [if_pos hreplaces] at hflags ⊢
    refine if_pos ?_
    unfold ReplacesPeers at hreplaces ⊢
    rwa [hflags]
  · rw [if_neg hreplaces] at hflags ⊢
    have hsame : (c.updatedBy d).ReplacesPeers ↔ c.ReplacesPeers := by
      unfold ReplacesPeers
      rw [hflags]
    exact if_congr hsame rfl rfl

theorem Accepted.updatedBy {iface iface' : WireguardAttribute} {keys keys' : Keys}
    (h : c.Accepted iface keys) (h' : d.Accepted iface' keys') :
    (c.updatedBy d).Accepted iface
      ⟨keys'.publicKey.or keys.publicKey, keys'.privateKey.or keys.privateKey⟩ where
  iface := h.iface
  publicKey := by simp [WireguardParsed.updatedBy, h.publicKey, h'.publicKey, Option.map_or]
  privateKey := by simp [WireguardParsed.updatedBy, h.privateKey, h'.privateKey, Option.map_or]

namespace Plan

/-- Both pass all checks, so one after the other does. -/
def updatedBy (plan : c.Plan) (plan' : d.Plan) : (c.updatedBy d).Plan where
  iface := plan.iface
  keys := ⟨plan'.keys.publicKey.or plan.keys.publicKey, plan'.keys.privateKey.or plan.keys.privateKey⟩
  accepted := plan.accepted.updatedBy plan'.accepted
  entries := if d.ReplacesPeers then plan'.entries else plan.entries ++ plan'.entries
  peers_eq := by
    unfold WireguardParsed.updatedBy
    split
    · exact plan'.peers_eq
    · simp [plan.peers_eq, plan'.peers_eq]

/-- The later private key takes the place of the earlier one. -/
theorem keyOf_updatedBy (plan : c.Plan) (plan' : d.Plan) (key : Option Key) :
    (keyOf (c.updatedBy d).privateKey).or key =
      (keyOf d.privateKey).or ((keyOf c.privateKey).or key) := by
  rw [(plan.updatedBy plan').accepted.privateKey, plan.accepted.privateKey, plan'.accepted.privateKey,
    keyOf_encodeKey, keyOf_encodeKey, keyOf_encodeKey, ← Option.or_assoc]
  rfl

/-- The settings of both are the ones of `d` over the ones of `c`. -/
theorem settled_updatedBy (plan : c.Plan) (plan' : d.Plan) (D : Device)
    (peers : Key → Option PeerState) (owner : Network → Option Key) :
    (c.updatedBy d).settled D = ((c.updatedBy d).base D).withSettings
      (d.settled ({ D with peers := peers, owner := owner : Device }.withSettings (c.settled D))) := by
  have hkey := plan.keyOf_updatedBy plan' D.privateKey
  have hport : (d.listenPort.or c.listenPort).getD D.listenPort =
      d.listenPort.getD (c.listenPort.getD D.listenPort) := by
    cases d.listenPort <;> rfl
  have hmark : (d.fwmark.or c.fwmark).getD D.fwmark = d.fwmark.getD (c.fwmark.getD D.fwmark) := by
    cases d.fwmark <;> rfl
  have hset (E : Device) (hkey' : E.privateKey = (keyOf (c.updatedBy d).privateKey).or D.privateKey)
      (hport' : E.listenPort = (d.listenPort.or c.listenPort).getD D.listenPort)
      (hmark' : E.fwmark = (d.fwmark.or c.fwmark).getD D.fwmark) :
      (c.updatedBy d).settled D = ((c.updatedBy d).base D).withSettings E := by
    unfold Device.withSettings
    rw [hkey', hport', hmark']
    rfl
  exact hset _ hkey.symm hport.symm hmark.symm

theorem chunks_updatedBy (plan : c.Plan) (plan' : d.Plan) :
    (plan.updatedBy plan').chunks =
      if d.ReplacesPeers then plan'.chunks else plan.chunks ++ plan'.chunks := by
  unfold chunks updatedBy
  split
  · rfl
  · rw [List.map_append, List.flatten_append]

/-- Behind the messages of `c`, the ones of `d` do what the messages of both as one do. -/
theorem foldl_updatedBy (plan : c.Plan) (plan' : d.Plan) (hsame : d.Names D ↔ c.Names D) (K : Kernel) :
    ((plan.updatedBy plan').messages cmd).foldl K.setDevice D =
      (plan'.messages cmd).foldl K.setDevice ((plan.messages cmd).foldl K.setDevice D) := by
  have hiface : (c.updatedBy d).Names D ↔ c.Names D := Iff.rfl
  rw [(plan.updatedBy plan').foldl_messages, plan.foldl_messages, plan'.foldl_messages]
  by_cases hnames : c.Names D
  · rw [if_pos (hiface.mpr hnames), if_pos hnames, plan.chunks_updatedBy plan']
    obtain ⟨peers, owner, hfirst⟩ := c.foldl_settled_frame K D plan.chunks
    have hsettled := plan.settled_updatedBy plan' D peers owner
    have hnext : d.Names (plan.chunks.foldl K.setPeer (c.settled D)) := by
      rw [hfirst]
      exact hsame.mpr hnames
    rw [if_pos hnext]
    rw [base_updatedBy] at hsettled
    by_cases hreplaces : d.ReplacesPeers
    · -- The peers of `c` are gone before the first one of `d`.
      rw [if_pos hreplaces] at hsettled ⊢
      rw [hfirst, hsettled, d.settled_eq, base, if_pos hreplaces]
      rfl
    · rw [if_neg hreplaces] at hsettled ⊢
      have hall : (c.updatedBy d).settled D = (c.settled D).withSettings
          (d.settled (plan.chunks.foldl K.setPeer (c.settled D))) := by
        rw [hsettled, hfirst]
        rfl
      have hbase : d.base (plan.chunks.foldl K.setPeer (c.settled D)) =
          plan.chunks.foldl K.setPeer (c.settled D) := if_neg hreplaces
      rw [List.foldl_append, hall, foldl_setPeer_withSettings, d.settled_eq, hbase]
      rfl
  · have hnext : ¬d.Names D := mt hsame.mp hnames
    rw [if_neg (mt hiface.mp hnames), if_neg hnames, if_neg hnext]

end Plan

-- ---------------------------------------------------------------------------
-- Any number of configurations
-- ---------------------------------------------------------------------------

/-- Configuring a device any number of times is configuring it once. -/
theorem buildMessages_updatedBy {configs : List WireguardParsed} {mss : List (List WireguardMessage)}
    (h : c.buildMessages .setDevice = .ok ms)
    (hall : List.Forall₂ (fun d ms => d.buildMessages .setDevice = .ok ms) configs mss) :
    ∃ all, (configs.foldl WireguardParsed.updatedBy c).buildMessages .setDevice = .ok all ∧
      ∀ (K : Kernel) (D : Device), (∀ d ∈ configs, d.Names D ↔ c.Names D) →
        all.foldl K.setDevice D = (ms ++ mss.flatten).foldl K.setDevice D := by
  induction hall generalizing c ms with
  | nil =>
    refine ⟨ms, h, fun K D _ => ?_⟩
    rw [List.flatten_nil, List.append_nil]
  | @cons d msd configs mss hd _ ih =>
    obtain ⟨plan, rfl⟩ := buildMessages_plan.mp h
    obtain ⟨plan', rfl⟩ := buildMessages_plan.mp hd
    obtain ⟨all, hbuilt, heq⟩ := ih (buildMessages_plan.mpr ⟨plan.updatedBy plan', rfl⟩)
    refine ⟨all, hbuilt, fun K D hsame => ?_⟩
    obtain ⟨hfirst, hrest⟩ := List.forall_mem_cons.mp hsame
    rw [heq K D hrest, List.foldl_append, plan.foldl_updatedBy plan' hfirst, List.flatten_cons,
      List.foldl_append, List.foldl_append]

/-- All peers are replaced by one, whose networks stay as they are. -/
def sampleReset : WireguardParsed where
  ifaceName := some "wg0"
  fwmark := some 7
  peers := some [{ publicKey := some (encodeKey sampleKey), flags := some [.updateOnly] }]
  flags := some [.replacePeers]

def resetMessages : List WireguardMessage :=
  [⟨.setDevice, [.ifName "wg0", .fwmark 7, .flags .replacePeers,
    .peers [⟨[.publicKey sampleKey, .flags .updateOnly]⟩]]⟩]

omit [Base64.Engine] in
theorem built_reset : @buildMessages Base64.standard (@sampleReset Base64.standard) .setDevice =
    .ok resetMessages := by
  decide +kernel

omit [Base64.Engine] in
theorem buildMessages_updatedBy_sample :
    let later := [@sampleMove Base64.standard]
    ∃ all, @buildMessages Base64.standard
        (later.foldl updatedBy (@sampleReset Base64.standard)) .setDevice = .ok all ∧
      ∀ (K : Kernel) (D : Device),
        (∀ d ∈ later, d.Names D ↔ (@sampleReset Base64.standard).Names D) →
          all.foldl K.setDevice D = (resetMessages ++ [moveMessages].flatten).foldl K.setDevice D :=
  letI := Base64.standard
  buildMessages_updatedBy built_reset (.cons built_move .nil)

end WireguardParsed

end NlWireguard
