import Mathlib.Logic.Function.Basic
import NlWireguard.Lib.Folds
import NlWireguard.Packet

/-!
# Devices in the kernel

How the kernel applies the messages it is sent. This is not part of the crate
but what its comments assume: a message configures the interface it names,
peers are found by their public key, and an allowed IP belongs to one peer.

Messages which the crate does not build, such as a peer without a public key,
change nothing here.
-/

namespace NlWireguard

/-- What the crate does not depend on: how addresses are cut to their network,
how public keys are derived, and which properties of a peer can not be set. -/
structure Kernel where
  network : IpAddr → UInt8 → IpAddr
  derive : Key → Key
  ignores : WireguardPeerAttribute → Bool

structure PeerState where
  presharedKey : Key := .zero
  endpoint : Option SocketAddr := none
  persistentKeepalive : UInt16 := 0
  lastHandshake : WireguardTimeSpec := ⟨0, 0⟩
  rxBytes : UInt64 := 0
  txBytes : UInt64 := 0
  protocolVersion : UInt32 := 1
  deriving DecidableEq, Repr

abbrev Network := IpAddr × UInt8

/-- The peers are found by key, and the peer a network belongs to by network. -/
structure Device where
  ifName : String
  ifIndex : UInt32
  privateKey : Option Key := none
  listenPort : UInt16 := 0
  fwmark : UInt32 := 0
  peers : Key → Option PeerState := fun _ => none
  owner : Network → Option Key := fun _ => none

-- ---------------------------------------------------------------------------
-- Reading messages
-- ---------------------------------------------------------------------------

namespace WireguardPeer

def flags (peer : WireguardPeer) : WireguardPeerFlags :=
  (peer.attributes.findSome? (·.flags?)).getD 0

def Has (peer : WireguardPeer) (flag : WireguardPeerFlags) : Prop :=
  Bitflags.Contains peer.flags flag

instance (peer : WireguardPeer) (flag : WireguardPeerFlags) : Decidable (peer.Has flag) :=
  inferInstanceAs (Decidable (_ = _))

end WireguardPeer

-- ---------------------------------------------------------------------------
-- Peers
-- ---------------------------------------------------------------------------

def PeerState.set (s : PeerState) : WireguardPeerAttribute → PeerState
  | .presharedKey key => { s with presharedKey := key }
  | .endpoint addr => { s with endpoint := some addr }
  | .persistentKeepalive seconds => { s with persistentKeepalive := seconds }
  | .lastHandshake time => { s with lastHandshake := time }
  | .rxBytes bytes => { s with rxBytes := bytes }
  | .txBytes bytes => { s with txBytes := bytes }
  | .protocolVersion version => { s with protocolVersion := version }
  | .publicKey _ | .allowedIps _ | .flags _ | .other .. => s

/-- The networks without the ones of `key`. -/
def release (owner : Network → Option Key) (key : Key) : Network → Option Key :=
  fun net => if owner net = some key then none else owner net

namespace Device

def removePeer (D : Device) (key : Key) : Device :=
  { D with peers := Function.update D.peers key none, owner := release D.owner key }

def removePeers (D : Device) : Device :=
  { D with peers := fun _ => none, owner := fun _ => none }

end Device

namespace Kernel

variable (K : Kernel)

def setPeerAttribute (s : PeerState) (attr : WireguardPeerAttribute) : PeerState :=
  if K.ignores attr then s else s.set attr

/-- Move a network to the peer `key`, or take it away from this peer. -/
def setAllowedIp (key : Key) (owner : Network → Option Key) (ip : WireguardAllowedIp) :
    Network → Option Key :=
  match ip.attributes.findSome? (·.ipAddr?), ip.attributes.findSome? (·.cidr?) with
  | some addr, some prefixLength =>
    let net : Network := (K.network addr prefixLength, prefixLength)
    let flags := (ip.attributes.findSome? (·.flags?)).getD 0
    if Bitflags.Contains flags WireguardAllowedIpFlags.removeMe then
      if owner net = some key then Function.update owner net none else owner
    else Function.update owner net (some key)
  | _, _ => owner

/-- Configure the peer `key`, which is in the state `s`. -/
def updatePeer (D : Device) (key : Key) (s : PeerState) (peer : WireguardPeer) : Device :=
  let owner :=
    if peer.Has .replaceAllowedIps then release D.owner key else D.owner
  { D with
    peers := Function.update D.peers key (some (peer.attributes.foldl K.setPeerAttribute s))
    owner := peer.allowedIps.foldl (K.setAllowedIp key) owner }

def setPeer (D : Device) (peer : WireguardPeer) : Device :=
  match peer.publicKey? with
  | none => D
  | some key =>
    match D.peers key with
    | none =>
      if peer.Has .removeMe ∨ peer.Has .updateOnly then D else K.updatePeer D key {} peer
    | some s => if peer.Has .removeMe then D.removePeer key else K.updatePeer D key s peer

end Kernel

-- ---------------------------------------------------------------------------
-- Devices
-- ---------------------------------------------------------------------------

namespace Device

def answers (D : Device) : WireguardAttribute → Bool
  | .ifName name => name = D.ifName
  | .ifIndex index => index = D.ifIndex
  | _ => false

def setAttribute (D : Device) : WireguardAttribute → Device
  | .privateKey key => { D with privateKey := some key }
  | .listenPort port => { D with listenPort := port }
  | .fwmark mark => { D with fwmark := mark }
  -- The public key follows from the private key.
  | .ifIndex _ | .ifName _ | .publicKey _ | .peers _ | .flags _ | .other .. => D

def setAttributes (D : Device) (attrs : List WireguardAttribute) : Device :=
  let flags := (attrs.findSome? (·.flags?)).getD 0
  attrs.foldl setAttribute
    (if Bitflags.Contains flags WireguardDeviceFlags.replacePeers then D.removePeers else D)

end Device

namespace Kernel

variable (K : Kernel)

def setDevice (D : Device) (m : WireguardMessage) : Device :=
  if m.attributes.any D.answers then
    (m.attributes.filterMap (·.peers?)).flatten.foldl K.setPeer (D.setAttributes m.attributes)
  else D

end Kernel

-- ---------------------------------------------------------------------------
-- A kernel and a device
-- ---------------------------------------------------------------------------

/-- The address with all bits behind the prefix cleared. -/
def IpAddr.mask : IpAddr → UInt8 → IpAddr
  | .v4 octets, len => .v4 (octets &&& BitVec.allOnes 32 <<< (32 - len.toNat))
  | .v6 segments, len => .v6 (segments &&& BitVec.allOnes 128 <<< (128 - len.toNat))

/-- A kernel which only reports times, counters and the protocol version. -/
def Kernel.sample : Kernel where
  network := IpAddr.mask
  derive := id
  ignores
    | .lastHandshake _ | .rxBytes _ | .txBytes _ | .protocolVersion _ => true
    | _ => false

def Device.sample : Device where
  ifName := "wg0"
  ifIndex := 7

-- ---------------------------------------------------------------------------
-- Cases of a change
-- ---------------------------------------------------------------------------

variable {K : Kernel} {D : Device} {peer : WireguardPeer}

theorem WireguardPeer.not_has (hflags : peer.flags = 0) (h : ¬Bitflags.Contains 0 flag) :
    ¬peer.Has flag := by
  rwa [Has, hflags]

theorem setPeer_absent (hkey : peer.publicKey? = some key) (habsent : D.peers key = none) :
    K.setPeer D peer =
      if peer.Has .removeMe ∨ peer.Has .updateOnly then D else K.updatePeer D key {} peer := by
  simp [Kernel.setPeer, hkey, habsent]

theorem setPeer_present (hkey : peer.publicKey? = some key) (hpresent : D.peers key = some s) :
    K.setPeer D peer =
      if peer.Has .removeMe then D.removePeer key else K.updatePeer D key s peer := by
  simp [Kernel.setPeer, hkey, hpresent]

/-- Everything a peer of a message can do to the device. -/
theorem setPeer_cases (hkey : peer.publicKey? = some key) :
    (D.peers key = none ∧ (peer.Has .removeMe ∨ peer.Has .updateOnly) ∧ K.setPeer D peer = D) ∨
    ((D.peers key).isSome ∧ peer.Has .removeMe ∧ K.setPeer D peer = D.removePeer key) ∨
    (¬peer.Has .removeMe ∧ (D.peers key = none → ¬peer.Has .updateOnly) ∧
      K.setPeer D peer = K.updatePeer D key ((D.peers key).getD {}) peer) := by
  cases hpeers : D.peers key with
  | none =>
    rw [setPeer_absent hkey hpeers]
    by_cases h : peer.Has .removeMe ∨ peer.Has .updateOnly
    · exact .inl ⟨rfl, h, if_pos h⟩
    · exact .inr (.inr ⟨fun hr => h (.inl hr), fun _ hu => h (.inr hu), if_neg h⟩)
  | some s =>
    rw [setPeer_present hkey hpeers]
    by_cases h : peer.Has .removeMe
    · exact .inr (.inl ⟨rfl, h, if_pos h⟩)
    · exact .inr (.inr ⟨h, by simp, if_neg h⟩)

theorem setPeer_frame (K : Kernel) (D : Device) (peer : WireguardPeer) :
    ∃ peers owner, K.setPeer D peer = { D with peers := peers, owner := owner } := by
  cases hkey : peer.publicKey? with
  | none => exact ⟨D.peers, D.owner, by simp [Kernel.setPeer, hkey]⟩
  | some key =>
    rcases setPeer_cases (K := K) (D := D) hkey with ⟨-, -, h⟩ | ⟨-, -, h⟩ | ⟨-, -, h⟩
    · exact ⟨D.peers, D.owner, h⟩
    · exact ⟨_, _, h⟩
    · exact ⟨_, _, h⟩

theorem setPeer_answers (K : Kernel) (D : Device) (peer : WireguardPeer) :
    (K.setPeer D peer).answers = D.answers := by
  obtain ⟨peers, owner, h⟩ := setPeer_frame K D peer
  funext attr
  rw [h]
  cases attr <;> rfl

theorem foldl_setPeer_answers (K : Kernel) (D : Device) (entries : List WireguardPeer) :
    (entries.foldl K.setPeer D).answers = D.answers :=
  Folds.foldl_frame Device.answers (fun D peer _ => setPeer_answers K D peer) D

end NlWireguard
