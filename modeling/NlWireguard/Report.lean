import NlWireguard.Meaning
import NlWireguard.Validation

/-!
# What a dump says about a device

Reading a dump gives a configuration which lists the device: all its peers and
networks, each one once. Such a configuration can be kept, and configures any
interface like the device it was taken from.
-/

namespace NlWireguard

open Folds

variable {K : Kernel} {D E : Device} [Base64.Engine]

-- ---------------------------------------------------------------------------
-- Reading peers
-- ---------------------------------------------------------------------------

namespace WireguardPeerParsed

/-- The entry lists the peer `key` of the device, with all its networks. -/
structure Lists (p : WireguardPeerParsed) (D : Device) (key : Key) : Prop where
  state : ∃ s, D.peers key = some s ∧ p = { s.parsed key with allowedIps := p.allowedIps }
  networks : ∀ addr len, ⟨len, addr, none⟩ ∈ p.allowedIps.getD [] ↔ D.owner (addr, len) = some key
  flags : ∀ ip ∈ p.allowedIps.getD [], ip.flags = none

theorem Lists.publicKey (h : Lists p D key) : p.publicKey = some (encodeKey key) := by
  obtain ⟨⟨s, -, hp⟩, -, -⟩ := h
  rw [hp]
  rfl

end WireguardPeerParsed

theorem PeerReport.lists (h : PeerReport D key peer) :
    (WireguardPeerParsed.ofPeer peer).Lists D key := by
  obtain ⟨s, nets, ips, hs, hnets, hread, hips⟩ := h.ofPeer
  rw [hread]
  refine ⟨⟨s, hs, rfl⟩, fun addr len => ?_, fun ip hip => ?_⟩
  · simp [hips, ← hnets]
  · simp only [hips, List.mem_map] at hip
    obtain ⟨net, -, rfl⟩ := hip
    rfl

-- ---------------------------------------------------------------------------
-- Reading devices
-- ---------------------------------------------------------------------------

namespace WireguardParsed

/-- The configuration lists the device: its properties, and every peer once. -/
structure Describes (c : WireguardParsed) (K : Kernel) (D : Device) : Prop where
  device : c = { D.parsed K with peers := c.peers }
  keys : ((c.peers.getD []).map (·.publicKey)).Nodup
  listed : ∀ p ∈ c.peers.getD [], ∃ key, p.Lists D key
  complete : ∀ key, (D.peers key).isSome → ∃ p ∈ c.peers.getD [], p.Lists D key

theorem describes_of_forall₂ {keys : List Key} {peers : List WireguardPeerParsed} (hkeys : keys.Nodup)
    (hall : ∀ key, key ∈ keys ↔ (D.peers key).isSome)
    (hpeers : List.Forall₂ (fun key p => p.Lists D key) keys peers) :
    { D.parsed K with peers := some peers }.Describes K D where
  device := rfl
  keys := by
    have hmap : peers.map (·.publicKey) = keys.map (fun key => some (encodeKey key)) := by
      clear hkeys hall
      induction hpeers with
      | nil => rfl
      | cons hpeer _ ih => rw [List.map_cons, List.map_cons, ih, hpeer.publicKey]
    rw [Option.getD_some, hmap]
    exact hkeys.map fun _ _ h => encodeKey_injective (Option.some.inj h)
  listed p hp := by
    obtain ⟨key, -, hlists⟩ := exists_of_forall₂ hpeers.flip p hp
    exact ⟨key, hlists⟩
  complete key hkey := exists_of_forall₂ hpeers key ((hall key).mpr hkey)

/-- However a dump is cut and ordered, what is read from it is the device. -/
theorem describes_of_dumps (h : K.Dumps D ms) : (ofMessages ms).Describes K D := by
  cases h with
  | @peers keys entries u _ hkeys hall hentries hu hcut =>
    have hdump : Dump u entries := dump_report hkeys hentries hu
    rw [hdump.ofMessages_of_cut hcut, hdump.ofMessage hu, D.foldl_read_report]
    refine describes_of_forall₂ hkeys hall ?_
    rw [List.forall₂_map_right_iff]
    exact hentries.imp fun _ _ hpeer => hpeer.lists
  | noPeers hall hm =>
    rw [Device.ofMessages_report hm]
    exact ⟨rfl, .nil, by simp, by simp [hall]⟩

end WireguardParsed

-- ---------------------------------------------------------------------------
-- Listed peers
-- ---------------------------------------------------------------------------

/-- What is left of a peer's state when it is configured anew. -/
def PeerState.restored (s : PeerState) : PeerState where
  presharedKey := s.presharedKey
  endpoint := s.endpoint
  persistentKeepalive := s.persistentKeepalive

namespace WireguardPeerParsed

variable {p : WireguardPeerParsed}

theorem Lists.ip_eq (h : p.Lists D key) (hip : ip ∈ p.allowedIps.getD []) :
    ip = ⟨ip.prefixLength, ip.ipAddr, none⟩ ∧ D.owner (ip.ipAddr, ip.prefixLength) = some key := by
  have heq : ip = ⟨ip.prefixLength, ip.ipAddr, none⟩ := by
    rw [← h.flags ip hip]
  exact ⟨heq, (h.networks _ _).mp (heq ▸ hip)⟩

theorem Lists.not_removes (h : p.Lists D key) (hip : ip ∈ p.allowedIps.getD []) : ¬ip.Removes := by
  have hflags : (ip.toAllowedIp.attributes.findSome? (·.flags?)).getD 0 = 0 := by
    rw [(h.ip_eq hip).1]
    rfl
  unfold WireguardIpAddress.Removes WireguardAllowedIp.Removes
  rw [hflags]
  decide

theorem Lists.networkIn (hvalid : D.Valid K) (h : p.Lists D key) (hip : ip ∈ p.allowedIps.getD []) :
    ip.networkIn K = (ip.ipAddr, ip.prefixLength) := by
  have hnet := hvalid.network _ _ (h.ip_eq hip).2
  rw [WireguardIpAddress.networkIn, hnet]

/-- The networks of the entry are the ones of the peer. -/
theorem Lists.mem_networks (hvalid : D.Valid K) (h : p.Lists D key) :
    net ∈ p.networks K ↔ D.owner net = some key := by
  constructor
  · intro hnet
    obtain ⟨ip, hip, rfl⟩ := List.mem_map.mp hnet
    rw [h.networkIn hvalid hip]
    exact (h.ip_eq hip).2
  · intro howner
    have hip := (h.networks net.1 net.2).mpr howner
    exact List.mem_map.mpr ⟨_, hip, h.networkIn hvalid hip⟩

theorem Lists.outcome (h : p.Lists D key) :
    p.outcome none = (D.peers key).map PeerState.restored := by
  obtain ⟨⟨s, hs, hp⟩, -, -⟩ := h
  have hnone : p.flags = none := by rw [hp]; rfl
  have hkept : ¬(p.Removes ∨ (none = (none : Option PeerState) ∧ p.UpdatesOnly)) := by
    unfold Removes UpdatesOnly
    rw [hnone]
    decide
  have hkey : keyOf p.presharedKey = (some s.presharedKey).filter (· ≠ .zero) := by
    have haccepted := (s.accepted key (some []) (by simp)).presharedKey
    rw [hp, ← keyOf_encodeKey (Option.filter _ _)]
    exact congrArg keyOf haccepted
  have hpsk : (keyOf p.presharedKey).getD .zero = s.presharedKey := by
    rw [hkey, Option.filter_some]
    by_cases hzero : s.presharedKey = .zero <;> simp [hzero]
  have hendpoint : p.endpoint = s.endpoint := by rw [hp]; rfl
  have hkeepalive : p.persistentKeepalive = some s.persistentKeepalive := by rw [hp]; rfl
  rw [WireguardPeerParsed.outcome, if_neg hkept, hs, settings, Option.getD_none, hpsk, hendpoint,
    hkeepalive]
  simp [PeerState.restored]

end WireguardPeerParsed

-- ---------------------------------------------------------------------------
-- Restoring a device
-- ---------------------------------------------------------------------------

/-- The interface `E`, configured like `D`. A device without a private key says
nothing about it. -/
def Device.restored (D E : Device) : Device :=
  { E with
    privateKey := D.privateKey.or E.privateKey
    listenPort := D.listenPort
    fwmark := D.fwmark
    peers := fun key => (D.peers key).map PeerState.restored
    owner := D.owner }

namespace WireguardParsed

variable {c : WireguardParsed}

/-- The configuration for another interface, to replace whatever it has. -/
def restoring (c : WireguardParsed) (ifaceName : String) : WireguardParsed :=
  { c with ifaceName := some ifaceName, flags := some [.replacePeers] }

omit [Base64.Engine] in
theorem restoring_replaces (c : WireguardParsed) (ifaceName : String) :
    (c.restoring ifaceName).ReplacesPeers := by
  have hflags : WireguardParsedDeviceFlags.bitsOf ((c.restoring ifaceName).flags.getD []) =
      WireguardDeviceFlags.replacePeers := rfl
  unfold ReplacesPeers
  rw [hflags]
  decide

theorem Describes.distinct (hvalid : D.Valid K) (h : c.Describes K D) (ifaceName : String) :
    (c.restoring ifaceName).Distinct K where
  keys := h.keys
  networks := by
    refine (List.pairwise_map.mp h.keys).imp_of_mem fun {p q} hp hq hne => ?_
    obtain ⟨key, hp⟩ := h.listed p hp
    obtain ⟨other, hq⟩ := h.listed q hq
    intro net hnet hnet'
    have hkey := ((hp.mem_networks hvalid).mp hnet).symm.trans ((hq.mem_networks hvalid).mp hnet')
    exact hne (hp.publicKey.trans (Option.some.inj hkey ▸ hq.publicKey.symm))
  consistent p hp ip hip other hother _ := by
    obtain ⟨key, hlists⟩ := h.listed p hp
    exact iff_of_false (hlists.not_removes hip) (hlists.not_removes hother)

theorem Describes.nonempty_plan {ifaceName : String} (hvalid : D.Valid K) (h : c.Describes K D)
    (hlen : ifaceName.utf8ByteSize < ifnamsiz) (hnul : Char.ofNat 0 ∉ ifaceName.toList) :
    Nonempty (c.restoring ifaceName).Plan := by
  refine WireguardParsed.nonempty_plan.mpr
    ⟨⟨.inl ⟨ifaceName, rfl, hlen, hnul⟩, fun p hp => ?_⟩, ⟨?_, ?_, fun p hp => ?_⟩⟩
  · obtain ⟨key, hlists⟩ := h.listed p hp
    refine ⟨by simp [hlists.publicKey], fun ip hip => ?_⟩
    exact hvalid.prefixLength _ _ (hlists.ip_eq hip).2
  · have hkey : c.publicKey = (D.privateKey.map K.derive).map encodeKey := by
      rw [h.device, Option.map_map]
      rfl
    exact exists_keys.mp ⟨_, hkey⟩
  · have hkey : c.privateKey = D.privateKey.map encodeKey := by
      rw [h.device]
      rfl
    exact exists_keys.mp ⟨_, hkey⟩
  · obtain ⟨key, hlists⟩ := h.listed p hp
    obtain ⟨s, -, hp⟩ := hlists.state
    have haccepted : { s.parsed key with allowedIps := p.allowedIps }.Accepted (s.keys key) :=
      s.accepted key _ fun ip hip => hvalid.prefixLength _ _ (hlists.ip_eq hip).2
    rw [← hp] at haccepted
    exact (WireguardPeerParsed.exists_accepted.mp ⟨_, haccepted⟩).2

theorem Describes.mentions (h : c.Describes K D) : c.Mentions key ↔ (D.peers key).isSome := by
  constructor
  · rintro ⟨p, hp, hkey⟩
    obtain ⟨other, hlists⟩ := h.listed p hp
    obtain ⟨s, hs, -⟩ := hlists.state
    obtain rfl : key = other := encodeKey_injective (Option.some.inj (hkey.symm.trans hlists.publicKey))
    simp [hs]
  · intro hkey
    obtain ⟨p, hp, hlists⟩ := h.complete key hkey
    exact ⟨p, hp, hlists.publicKey⟩

theorem Describes.updatesWhole (h : c.Describes K D) (ifaceName : String) (E : Device) :
    (c.restoring ifaceName).UpdatesWhole E := by
  intro p hp hu
  obtain ⟨key, ⟨⟨s, -, heq⟩, -, -⟩⟩ := h.listed p hp
  have hnone : p.flags = none := by rw [heq]; rfl
  unfold WireguardPeerParsed.UpdatesOnly at hu
  rw [hnone] at hu
  exact absurd hu (by decide)

/-- The peers which are listed for a device have its networks. -/
theorem Describes.givesTo (hvalid : D.Valid K) (howned : D.Owned) (h : c.Describes K D)
    (hE : ∀ key, E.peers key = none) :
    GivesTo (c.peers.getD []) K E net key ↔ D.owner net = some key := by
  constructor
  · rintro ⟨p, hp, hkey, -, ip, hip, hnet, -⟩
    obtain ⟨other, hlists⟩ := h.listed p hp
    obtain rfl : key = other := encodeKey_injective (Option.some.inj (hkey.symm.trans hlists.publicKey))
    exact (hlists.mem_networks hvalid).mp (hnet ▸ List.mem_map_of_mem hip)
  · intro howner
    obtain ⟨p, hp, hlists⟩ := h.complete key (howned net key howner)
    have hip := (hlists.networks net.1 net.2).mpr howner
    have hsome : (p.outcome (E.peers key)).isSome := by
      rw [hE, hlists.outcome, Option.isSome_map]
      exact howned net key howner
    exact ⟨p, hp, hlists.publicKey, hsome, _, hip, hlists.networkIn hvalid hip,
      hlists.not_removes hip⟩

omit [Base64.Engine] in
theorem ext_fields (hname : D.ifName = E.ifName) (hindex : D.ifIndex = E.ifIndex)
    (hkey : D.privateKey = E.privateKey) (hport : D.listenPort = E.listenPort)
    (hmark : D.fwmark = E.fwmark) (hpeers : D.peers = E.peers) (howner : D.owner = E.owner) : D = E := by
  cases D
  cases E
  simp_all

/-- A configuration which lists a device, applied to any interface, makes it
the same device. -/
theorem Describes.restored (hK : K.ignores = WireguardPeerAttribute.isReported)
    (hD : D.Sound K) (h : c.Describes K D) (hE : E.Sound K) :
    ∃ sent, (c.restoring E.ifName).buildMessages .setDevice = .ok sent ∧
      sent.foldl K.setDevice E = D.restored E := by
  obtain ⟨plan⟩ := h.nonempty_plan hD.toValid hE.ifName_length hE.ifName_nul
  have hF : (c.restoring E.ifName).Configures K E ((plan.messages .setDevice).foldl K.setDevice E) :=
    plan.configures hK (.inl rfl) hE.owned (h.distinct hD.toValid _) (h.updatesWhole _ E)
  have hbase : (c.restoring E.ifName).base E = E.removePeers := if_pos (c.restoring_replaces _)
  have hdevice : keyOf c.privateKey = D.privateKey ∧ c.listenPort = some D.listenPort ∧
      c.fwmark = some D.fwmark := by
    rw [h.device]
    exact ⟨keyOf_encodeKey _, rfl, rfl⟩
  refine ⟨_, buildMessages_plan.mpr ⟨plan, rfl⟩, ext_fields hF.ifName hF.ifIndex ?_ ?_ ?_
    (funext fun key => ?_) (funext fun net => Option.ext fun key => ?_)⟩
  · rw [hF.privateKey]
    exact congrArg (Option.or · _) hdevice.1
  · rw [hF.listenPort]
    exact congrArg (Option.getD · _) hdevice.2.1
  · rw [hF.fwmark]
    exact congrArg (Option.getD · _) hdevice.2.2
  · by_cases hkey : (D.peers key).isSome
    · obtain ⟨p, hp, hlists⟩ := h.complete key hkey
      rw [hF.listed p hp key hlists.publicKey, hbase]
      exact hlists.outcome
    · rw [hF.others key fun hmentions => hkey (h.mentions.mp hmentions), hbase]
      simp only [Option.not_isSome_iff_eq_none] at hkey
      simp [Device.restored, Device.removePeers, hkey]
  · have hgives : GivesTo (c.peers.getD []) K E.removePeers net key ↔ D.owner net = some key :=
      h.givesTo hD.toValid hD.owned fun _ => rfl
    have howner := hF.owner net key
    rw [hbase] at howner
    refine howner.trans ((or_congr hgives .rfl).trans ?_)
    simp [Device.restored, Device.removePeers]

/-- Whatever an interface was, configuring it with the dump of another one makes
it the same device. -/
theorem buildMessages_restores (hK : K.ignores = WireguardPeerAttribute.isReported)
    (hD : D.Sound K) (h : K.Dumps D ms) (hE : E.Sound K) :
    ∃ sent, ((ofMessages ms).restoring E.ifName).buildMessages .setDevice = .ok sent ∧
      sent.foldl K.setDevice E = D.restored E :=
  (describes_of_dumps h).restored hK hD hE

/-- Another interface, without peers. -/
def emptyDevice : Device where
  ifName := "wg1"
  ifIndex := 8

omit [Base64.Engine] in
theorem sound_empty : emptyDevice.Sound .sample where
  ifName_length := by decide
  ifName_nul := by decide
  prefixLength _ _ h := nomatch h
  network _ _ h := nomatch h
  owned _ _ h := nomatch h

omit [Base64.Engine] in
theorem buildMessages_restores_sample :
    ∃ sent, @buildMessages Base64.standard
        ((@ofMessages Base64.standard sampleDumped).restoring emptyDevice.ifName) .setDevice = .ok sent ∧
      sent.foldl Kernel.sample.setDevice emptyDevice = sampleDevice.restored emptyDevice :=
  @buildMessages_restores Kernel.sample sampleDevice emptyDevice Base64.standard sampleDumped
    ignores_sample sound_sample dumps_sample sound_empty

end WireguardParsed

end NlWireguard
