import NlWireguard.Apply
import NlWireguard.Cut
import NlWireguard.Handshake

/-!
# Applying a dump to the device it was taken from

Whatever the kernel reports about a device, read and built again, is accepted
and changes nothing. Keys and times which mean that there is none are not sent
at all; everything else is sent as it is.
-/

namespace NlWireguard

open Folds

-- ---------------------------------------------------------------------------
-- Dumps
-- ---------------------------------------------------------------------------

/-- What the kernel guarantees about a device. -/
structure Device.Valid (K : Kernel) (D : Device) : Prop where
  ifName_length : D.ifName.utf8ByteSize < ifnamsiz
  ifName_nul : Char.ofNat 0 ∉ D.ifName.toList
  prefixLength : ∀ net key, D.owner net = some key → net.2 ≤ if net.1.isIpv4 then 32 else 128
  network : ∀ net key, D.owner net = some key → K.network net.1 net.2 = net.1

def Network.report (net : Network) : WireguardAllowedIp :=
  ⟨[.cidr net.2, .family (if net.1.isIpv4 then .ipv4 else .ipv6), .ipAddr net.1]⟩

def PeerState.report (s : PeerState) (key : Key) : List WireguardPeerAttribute :=
  [.publicKey key, .presharedKey s.presharedKey, .persistentKeepalive s.persistentKeepalive,
    .lastHandshake s.lastHandshake, .rxBytes s.rxBytes, .txBytes s.txBytes,
    .protocolVersion s.protocolVersion] ++ emit s.endpoint .endpoint

def Device.report (K : Kernel) (D : Device) : List WireguardAttribute :=
  [.ifName D.ifName, .ifIndex D.ifIndex, .listenPort D.listenPort, .fwmark D.fwmark] ++
    emit D.privateKey .privateKey ++ emit D.privateKey fun key => .publicKey (K.derive key)

/-- The peer `key` in a dump, its attributes in any order. Without allowed IPs
the attribute for them may be left out. -/
inductive PeerReport (D : Device) (key : Key) : WireguardPeer → Prop
  | intro {s : PeerState} {nets : List Network} {ips : Option (List WireguardAllowedIp)}
      {peer : WireguardPeer} (hs : D.peers key = some s)
      (hnets : ∀ net, net ∈ nets ↔ D.owner net = some key)
      (hips : ips.getD [] = nets.map Network.report)
      (hpeer : peer.attributes.Perm (s.report key ++ emit ips .allowedIps)) : PeerReport D key peer

/-- The replies to a dump of the device: all its peers once, in any order, cut
in any way. -/
inductive Kernel.Dumps (K : Kernel) (D : Device) : List WireguardMessage → Prop
  | peers {keys : List Key} {entries : List WireguardPeer} {u : WireguardMessage}
      {ms : List WireguardMessage} (hkeys : keys.Nodup)
      (hall : ∀ key, key ∈ keys ↔ (D.peers key).isSome)
      (hentries : List.Forall₂ (PeerReport D) keys entries)
      (hu : u.attributes.Perm (D.report K ++ [.peers entries])) (hcut : Cut u entries ms) :
      Dumps K D ms
  | noPeers {m : WireguardMessage} (hall : ∀ key, D.peers key = none)
      (hm : m.attributes.Perm (D.report K)) : Dumps K D [m]

variable {K : Kernel} {D : Device}

theorem PeerReport.kinds (h : PeerReport D key peer) :
    (peer.attributes.map WireguardPeerAttribute.kind).Nodup := by
  obtain ⟨-, -, -, hpeer⟩ := h
  rw [(hpeer.map _).nodup_iff]
  rename_i s nets ips
  cases ips <;> cases hs : s.endpoint <;>
    simp [PeerState.report, hs, WireguardPeerAttribute.kind]

theorem PeerReport.publicKey? (h : PeerReport D key peer) : peer.publicKey? = some key := by
  obtain ⟨-, -, -, hpeer⟩ := h
  have hmem : .publicKey key ∈ peer.attributes := hpeer.mem_iff.mpr (by simp [PeerState.report])
  have hsome : peer.publicKey?.isSome := List.findSome?_isSome_iff.mpr ⟨_, hmem, rfl⟩
  obtain ⟨k, hk⟩ := Option.isSome_iff_exists.mp hsome
  have honly := hpeer.mem_iff.mp (peer.publicKey_mem hk)
  rw [hk]
  simpa [PeerState.report, mem_emit] using honly

theorem Device.kinds_report (K : Kernel) (D : Device) (entries : List WireguardPeer) :
    ((D.report K ++ [WireguardAttribute.peers entries]).map WireguardAttribute.kind).Nodup := by
  cases hkey : D.privateKey <;> simp [Device.report, hkey, WireguardAttribute.kind]

theorem publicKeys_report (h : List.Forall₂ (PeerReport D) keys entries) :
    entries.map WireguardPeer.publicKey? = keys.map some := by
  induction h with
  | nil => rfl
  | cons hpeer _ ih => rw [List.map_cons, List.map_cons, hpeer.publicKey?, ih]

theorem dump_report {u : WireguardMessage} (hkeys : keys.Nodup)
    (hentries : List.Forall₂ (PeerReport D) keys entries)
    (hu : u.attributes.Perm (D.report K ++ [.peers entries])) : Dump u entries where
  kinds := by
    rw [(hu.map _).nodup_iff]
    exact D.kinds_report K entries
  peerKinds := by
    clear hu hkeys
    induction hentries with
    | nil => simp
    | cons hpeer _ ih => exact List.forall_mem_cons.mpr ⟨hpeer.kinds, ih⟩
  publicKey peer hpeer := by
    have hmem : peer.publicKey? ∈ keys.map some :=
      publicKeys_report hentries ▸ List.mem_map_of_mem hpeer
    obtain ⟨key, -, hkey⟩ := List.mem_map.mp hmem
    rw [← hkey, Option.isSome_some]
  separate := by
    have hchain : (entries.map WireguardPeer.publicKey?).IsChain (· ≠ ·) := by
      rw [publicKeys_report hentries]
      exact (hkeys.map fun _ _ => Option.some.inj).isChain
    exact (List.isChain_map _).mp hchain

-- ---------------------------------------------------------------------------
-- Reading a dump
-- ---------------------------------------------------------------------------

variable [Base64.Engine]

def PeerState.parsed (s : PeerState) (key : Key) : WireguardPeerParsed where
  endpoint := s.endpoint
  publicKey := some (encodeKey key)
  presharedKey := (some (encodeKey s.presharedKey)).filter (· ≠ encodeKey .zero)
  persistentKeepalive := some s.persistentKeepalive
  lastHandshake := WireguardPeerParsed.readLastHandshake none s.lastHandshake
  rxBytes := some s.rxBytes
  txBytes := some s.txBytes
  protocolVersion := some s.protocolVersion

theorem PeerState.ofPeer_report (s : PeerState) (key : Key) :
    .ofPeer ⟨s.report key⟩ = s.parsed key := by
  simp only [WireguardPeerParsed.ofPeer, report, List.foldl_append, List.foldl_cons, List.foldl_nil,
    WireguardPeerParsed.read_presharedKey]
  cases hendpoint : s.endpoint <;> simp [parsed, hendpoint, WireguardPeerParsed.read]

omit [Base64.Engine] in
theorem readIps_report (nets : List Network) :
    readIps (nets.map Network.report) = nets.map fun net => ⟨net.2, net.1, none⟩ := by
  induction nets with
  | nil => rfl
  | cons net nets ih =>
    rw [List.map_cons, List.map_cons, ← ih]
    rfl

/-- What is read from a reported peer: its state and all its networks. -/
theorem PeerReport.ofPeer (h : PeerReport D key peer) :
    ∃ (s : PeerState) (nets : List Network) (ips : Option (List WireguardIpAddress)),
      D.peers key = some s ∧ (∀ net, net ∈ nets ↔ D.owner net = some key) ∧
      WireguardPeerParsed.ofPeer peer = { s.parsed key with allowedIps := ips } ∧
      ips.getD [] = nets.map fun net => ⟨net.2, net.1, none⟩ := by
  cases h with
  | @intro s nets ips _ hs hnets hips hpeer =>
    have hkinds : ((s.report key ++ [WireguardPeerAttribute.allowedIps []]).map
        WireguardPeerAttribute.kind).Nodup := by
      cases hendpoint : s.endpoint <;>
        simp [PeerState.report, hendpoint, WireguardPeerAttribute.kind]
    refine ⟨s, nets, ips.map readIps, hs, hnets, ?_, ?_⟩
    · rw [← s.ofPeer_report key]
      exact WireguardPeerParsed.ofPeer_emit hpeer hkinds
    · rw [← readIps_report, ← hips]
      cases ips <;> rfl

def Device.parsed (K : Kernel) (D : Device) : WireguardParsed where
  ifaceName := some D.ifName
  ifaceIndex := some D.ifIndex
  publicKey := D.privateKey.map fun key => encodeKey (K.derive key)
  privateKey := D.privateKey.map encodeKey
  listenPort := some D.listenPort
  fwmark := some D.fwmark

theorem Device.foldl_read_report (K : Kernel) (D : Device) :
    (D.report K).foldl WireguardParsed.read {} = D.parsed K := by
  cases hkey : D.privateKey <;> simp [report, parsed, hkey, WireguardParsed.read]

/-- What is read from the dump of a device without peers. -/
theorem Device.ofMessages_report {m : WireguardMessage} (hm : m.attributes.Perm (D.report K)) :
    .ofMessages [m] = { D.parsed K with peers := none } := by
  have hkinds : (m.attributes.map WireguardAttribute.kind).Nodup := by
    have hnodup := D.kinds_report K []
    rw [List.map_append] at hnodup
    exact (hm.map _).nodup_iff.mpr hnodup.of_append_left
  exact (foldl_perm_of_kinds WireguardParsed.read_comm hm hkinds {}).trans (D.foldl_read_report K)

-- ---------------------------------------------------------------------------
-- Sending what is there
-- ---------------------------------------------------------------------------

omit [Base64.Engine] in
/-- A peer which is there is kept by an entry with its own properties and
allowed IPs. -/
theorem setPeer_fixed (hkey : peer.publicKey? = some key) (hs : D.peers key = some s)
    (hflags : peer.flags = 0) (hset : ∀ attr ∈ peer.attributes, s.set attr = s)
    (hips : ∀ ip ∈ peer.allowedIps, K.setAllowedIp key D.owner ip = D.owner) :
    K.setPeer D peer = D := by
  have hkept : ¬peer.Has .removeMe := WireguardPeer.not_has hflags (by decide)
  have hadded : ¬peer.Has .replaceAllowedIps := WireguardPeer.not_has hflags (by decide)
  have hstate : peer.attributes.foldl K.setPeerAttribute s = s := by
    refine foldl_fixed fun attr hattr => ?_
    rw [Kernel.setPeerAttribute, hset attr hattr, ite_self]
  rw [setPeer_present hkey hs, if_neg hkept, Kernel.updatePeer, hstate, if_neg hadded,
    foldl_fixed hips, ← hs, Function.update_eq_self]

omit [Base64.Engine] in
theorem setAllowedIp_fixed (hvalid : D.Valid K) (hnet : D.owner net = some key) :
    K.setAllowedIp key D.owner (WireguardIpAddress.toAllowedIp ⟨net.2, net.1, none⟩) = D.owner := by
  have hzero : ¬Bitflags.Contains 0#32 WireguardAllowedIpFlags.removeMe := by decide
  simp [Kernel.setAllowedIp, WireguardIpAddress.toAllowedIp, WireguardAllowedIpAttr.ipAddr?,
    WireguardAllowedIpAttr.cidr?, WireguardAllowedIpAttr.flags?, hvalid.network net key hnet, hzero,
    ← hnet]

omit [Base64.Engine] in
theorem lastHandshake_sent (h : WireguardPeerParsed.readLastHandshake none t = some d) :
    WireguardTimeSpec.mk d.asSecs.toInt64 d.subsecNanos.toUInt64.toInt64 = t :=
  (WireguardTimeSpec.readLastHandshake_some.mp h).2

-- ---------------------------------------------------------------------------
-- Reported peers
-- ---------------------------------------------------------------------------

namespace PeerState

variable (s : PeerState) (key : Key) (ips : Option (List WireguardIpAddress))

/-- The keys which are sent for a reported peer: an all-zero preshared key is not. -/
def keys : WireguardPeerParsed.Keys := ⟨key, (some s.presharedKey).filter (· ≠ .zero)⟩

theorem accepted (hvalid : ∀ ip ∈ ips.getD [], ip.Valid) :
    { s.parsed key with allowedIps := ips }.Accepted (s.keys key) where
  publicKey := rfl
  presharedKey := by
    by_cases hzero : s.presharedKey = .zero
    · simp [parsed, keys, hzero, Option.filter_some]
    · have hne : encodeKey s.presharedKey ≠ encodeKey .zero := fun h => hzero (encodeKey_injective h)
      simp [parsed, keys, hzero, hne, Option.filter_some]
  allowedIps := hvalid

theorem set_attributes
    (hattr : attr ∈ { s.parsed key with allowedIps := ips }.attributes (s.keys key)) :
    s.set attr = s := by
  simp only [WireguardPeerParsed.attributes, WireguardPeerParsed.attributesBefore,
    WireguardPeerParsed.attributesAfter, WireguardPeerParsed.ipAttributes, List.mem_append,
    List.mem_singleton, mem_emit, parsed, keys, Option.filter_eq_some_iff] at hattr
  rcases hattr with (((((((⟨v, hv, rfl⟩ | rfl) | ⟨v, ⟨hv, -⟩, rfl⟩) | ⟨v, hv, rfl⟩) | ⟨v, hv, rfl⟩) |
    ⟨v, hv, rfl⟩) | ⟨v, hv, rfl⟩) | ⟨v, hv, rfl⟩) | ⟨v, hv, rfl⟩ | ⟨v, hv, rfl⟩
  · simp [set, ← hv]
  · rfl
  · cases hv
    rfl
  · cases hv
    rfl
  · simp [set, lastHandshake_sent hv]
  · cases hv
    rfl
  · cases hv
    rfl
  · rfl
  · cases hv
    rfl
  · rfl

end PeerState

namespace PeerReport

/-- A reported peer is accepted, and sending it changes nothing. -/
theorem entry (hvalid : D.Valid K) (h : PeerReport D key peer) :
    ∃ e : WireguardPeerParsed.Checked, e.peer = .ofPeer peer ∧ ¬e.peer.UpdatesOnly ∧
      K.setPeer D e.whole = D := by
  obtain ⟨s, nets, ips, hs, hnets, hread, hips⟩ := h.ofPeer
  have haccepted : ∀ ip ∈ ips.getD [], ip.Valid := by
    rw [hips]
    intro ip hip
    obtain ⟨net, hnet, rfl⟩ := List.mem_map.mp hip
    exact hvalid.prefixLength net key ((hnets net).mp hnet)
  refine ⟨⟨_, s.keys key, s.accepted key _ haccepted⟩, hread.symm, ?_, ?_⟩
  · change ¬Bitflags.Contains (WireguardParsedPeerFlags.bitsOf []) WireguardPeerFlags.updateOnly
    decide
  · refine setPeer_fixed (WireguardPeerParsed.Checked.publicKey?_whole _) hs ?_ ?_ ?_
    · exact WireguardPeerParsed.Checked.flags_whole _
    · exact fun attr => s.set_attributes key _
    · rw [WireguardPeerParsed.Checked.allowedIps_whole, hips, List.map_map]
      intro ip hip
      obtain ⟨net, hnet, rfl⟩ := List.mem_map.mp hip
      exact setAllowedIp_fixed hvalid ((hnets net).mp hnet)

end PeerReport

theorem entries_report (hvalid : D.Valid K) (h : List.Forall₂ (PeerReport D) keys entries) :
    ∃ checked : List WireguardPeerParsed.Checked, entries.map .ofPeer = checked.map (·.peer) ∧
      ∀ e ∈ checked, ¬e.peer.UpdatesOnly ∧ K.setPeer D e.whole = D := by
  induction h with
  | nil => exact ⟨[], rfl, by simp⟩
  | cons hpeer _ ih =>
    obtain ⟨e, he, hkept⟩ := hpeer.entry hvalid
    obtain ⟨checked, hchecked, hall⟩ := ih
    exact ⟨e :: checked, by simp [he, hchecked], List.forall_mem_cons.mpr ⟨hkept, hall⟩⟩

-- ---------------------------------------------------------------------------
-- Reported devices
-- ---------------------------------------------------------------------------

/-- A device is accepted as it is read, and sending it with peers which change
nothing changes nothing. -/
theorem Device.parsed_applied (hvalid : D.Valid K) {checked : List WireguardPeerParsed.Checked}
    (hchecked : ∀ e ∈ checked, ¬e.peer.UpdatesOnly ∧ K.setPeer D e.whole = D)
    {peers : Option (List WireguardPeerParsed)} (hpeers : peers.getD [] = checked.map (·.peer)) :
    ∃ sent, { D.parsed K with peers := peers }.buildMessages .setDevice = .ok sent ∧
      sent.foldl K.setDevice D = D := by
  let plan : { D.parsed K with peers := peers }.Plan :=
    { iface := .ifName D.ifName
      keys := ⟨D.privateKey.map K.derive, D.privateKey⟩
      accepted :=
        { iface := WireguardParsed.ifaceAttribute_name rfl hvalid.ifName_length hvalid.ifName_nul
          publicKey := by
            rw [Option.map_map]
            rfl
          privateKey := rfl }
      entries := checked
      peers_eq := hpeers }
  have hattrs : ∀ attr ∈ { D.parsed K with peers := peers }.attributes plan.iface plan.keys,
      attr.flags? = none ∧ D.setAttribute attr = D := by
    intro attr hattr
    simp only [WireguardParsed.attributes, List.mem_append, List.mem_singleton, mem_emit, parsed,
      plan] at hattr
    rcases hattr with ((((rfl | ⟨v, hv, rfl⟩) | ⟨v, hv, rfl⟩) | ⟨v, hv, rfl⟩) | ⟨v, hv, rfl⟩) |
      ⟨v, hv, rfl⟩
    · exact ⟨rfl, rfl⟩
    · exact ⟨rfl, rfl⟩
    · exact ⟨rfl, by simp [setAttribute, ← hv]⟩
    · cases hv
      exact ⟨rfl, rfl⟩
    · cases hv
      exact ⟨rfl, rfl⟩
    · cases hv
  have hchunks : plan.chunks.foldl K.setPeer D = D := by
    rw [plan.foldl_chunks K D fun e he => (hchecked e he).1, List.foldl_map]
    exact foldl_fixed fun e he => (hchecked e he).2
  refine ⟨_, WireguardParsed.buildMessages_plan.mpr ⟨plan, rfl⟩, ?_⟩
  rw [plan.foldl_setDevice, setAttributes_fixed hattrs, hchunks, ite_self]

namespace WireguardParsed

/-- Configuring a device with its own dump changes nothing. -/
theorem buildMessages_dump (hvalid : D.Valid K) (h : K.Dumps D ms) :
    ∃ sent, (ofMessages ms).buildMessages .setDevice = .ok sent ∧ sent.foldl K.setDevice D = D := by
  cases h with
  | @peers keys entries u _ hkeys hall hentries hu hcut =>
    have hdump : Dump u entries := dump_report hkeys hentries hu
    obtain ⟨checked, hpeers, hchecked⟩ := entries_report hvalid hentries
    rw [hdump.ofMessages_of_cut hcut, hdump.ofMessage hu, D.foldl_read_report]
    exact D.parsed_applied hvalid hchecked hpeers
  | noPeers hall hm =>
    have hnone : ∀ e ∈ ([] : List WireguardPeerParsed.Checked),
        ¬e.peer.UpdatesOnly ∧ K.setPeer D e.whole = D := by simp
    rw [Device.ofMessages_report hm]
    exact D.parsed_applied hvalid hnone rfl

def sampleDevice : Device where
  ifName := "wg0"
  ifIndex := 7
  privateKey := some .zero
  peers key := if key = sampleKey then some {} else none
  owner net := if net = (.v4 0x0a000000, 24) then some sampleKey else none

def reportedPeer (ips : List WireguardPeerAttribute) : WireguardPeer :=
  ⟨PeerState.report {} sampleKey ++ ips⟩

def sampleDumped : List WireguardMessage :=
  let networks := .allowedIps [Network.report (.v4 0x0a000000, 24)]
  [⟨.getDevice, sampleDevice.report .sample ++ [.peers [reportedPeer []]]⟩,
   ⟨.getDevice, [.peers [⟨[.publicKey sampleKey, networks]⟩]]⟩]

omit [Base64.Engine] in
theorem valid_sample : sampleDevice.Valid .sample where
  ifName_length := by decide
  ifName_nul := by decide
  prefixLength net key h := by
    obtain ⟨rfl, -⟩ := ite_eq_iff.mp h |>.resolve_right fun h => nomatch h.2
    decide
  network net key h := by
    obtain ⟨rfl, -⟩ := ite_eq_iff.mp h |>.resolve_right fun h => nomatch h.2
    decide

omit [Base64.Engine] in
theorem dumps_sample : Kernel.sample.Dumps sampleDevice sampleDumped := by
  let nets : List Network := [(.v4 0x0a000000, 24)]
  let whole := reportedPeer [.allowedIps (nets.map Network.report)]
  have hreport : PeerReport sampleDevice sampleKey whole :=
    @PeerReport.intro _ _ {} nets (some (nets.map Network.report)) _ rfl
      (fun net => by simp [nets, sampleDevice, eq_comm]) rfl (.refl _)
  have hcut : PeerCut whole
      [reportedPeer [], ⟨[.publicKey sampleKey, .allowedIps (nets.map Network.report)]⟩] :=
    @PeerCut.parts _ (PeerState.report {} sampleKey) [] _ sampleKey _ _ none
      [nets.map Network.report] rfl (by simp [whole, reportedPeer, PeerState.report])
      (.refl _) (.cons (.refl _) .nil) rfl (by simp)
  exact @Kernel.Dumps.peers _ _ [sampleKey] [whole]
    ⟨.getDevice, sampleDevice.report .sample ++ [.peers [whole]]⟩ _ (by simp)
    (fun key => by simp [sampleDevice]) (.cons hreport .nil) (.refl _)
    (@Cut.intro _ _ (sampleDevice.report .sample) [] _ [_] [[_]] _ _ rfl (.cons hcut .nil) rfl
      (.refl _) (.cons ⟨[], rfl, by simp⟩ .nil))

omit [Base64.Engine] in
theorem buildMessages_dump_sample :
    ∃ sent, @buildMessages Base64.standard (@ofMessages Base64.standard sampleDumped) .setDevice =
        .ok sent ∧
      sent.foldl Kernel.sample.setDevice sampleDevice = sampleDevice :=
  @buildMessages_dump Kernel.sample sampleDevice Base64.standard sampleDumped valid_sample dumps_sample

end WireguardParsed

end NlWireguard
