import NlWireguard.Lib.Bitflags
import NlWireguard.Lib.NextFit
import NlWireguard.Net

/-!
# Netlink messages

The message types of the netlink packet crates, as far as this crate builds
and reads them, and the encoded length of each attribute. An attribute kind
which those crates do not know stays an `other`.
-/

namespace NlWireguard

-- ---------------------------------------------------------------------------
-- Encoded lengths
-- ---------------------------------------------------------------------------

def nlaHeaderSize : Nat := 4

def nlaAlignto : Nat := 4

def nlaAlign (len : Nat) : Nat := (len + nlaAlignto - 1) / nlaAlignto * nlaAlignto

class Nla (α : Type) where
  valueLen : α → Nat

/-- The bytes an attribute takes: its header and its padded value. -/
def bufferLen [Nla α] (nla : α) : Nat := nlaHeaderSize + nlaAlign (Nla.valueLen nla)

-- ---------------------------------------------------------------------------
-- Allowed IPs
-- ---------------------------------------------------------------------------

inductive WireguardAddressFamily
  | ipv4
  | ipv6
  | other (family : UInt16)
  deriving DecidableEq, Repr

abbrev WireguardAllowedIpFlags := BitVec 32

def WireguardAllowedIpFlags.removeMe : WireguardAllowedIpFlags := 1

def WireguardAllowedIpFlags.named : List WireguardAllowedIpFlags := [.removeMe]

def WireguardAllowedIpFlags.iter (flags : WireguardAllowedIpFlags) : List WireguardAllowedIpFlags :=
  Bitflags.iter named flags

inductive WireguardAllowedIpAttr
  | family (family : WireguardAddressFamily)
  | ipAddr (addr : IpAddr)
  | cidr (prefixLength : UInt8)
  | flags (flags : WireguardAllowedIpFlags)
  | other (kind : UInt16) (value : List UInt8)
  deriving DecidableEq, Repr

instance : Nla WireguardAllowedIpAttr where
  valueLen
    | .family _ => 2
    | .ipAddr addr => if addr.isIpv4 then 4 else 16
    | .cidr _ => 1
    | .flags _ => 4
    | .other _ value => value.length

structure WireguardAllowedIp where
  attributes : List WireguardAllowedIpAttr
  deriving DecidableEq, Repr

instance : Nla WireguardAllowedIp where
  valueLen ip := NextFit.total bufferLen ip.attributes

-- ---------------------------------------------------------------------------
-- Peers
-- ---------------------------------------------------------------------------

def wgKeyLen : Nat := 32

structure Key where
  bytes : List UInt8
  length_bytes : bytes.length = wgKeyLen
  deriving DecidableEq, Repr

@[ext] theorem Key.ext {a b : Key} (h : a.bytes = b.bytes) : a = b := by
  cases a
  cases b
  simp_all

def Key.zero : Key := ⟨List.replicate wgKeyLen 0, by simp⟩

structure WireguardTimeSpec where
  seconds : Int64
  nanoSeconds : Int64
  deriving DecidableEq, Repr

abbrev WireguardPeerFlags := BitVec 32

namespace WireguardPeerFlags

def removeMe : WireguardPeerFlags := 1

def replaceAllowedIps : WireguardPeerFlags := 2

def updateOnly : WireguardPeerFlags := 4

def named : List WireguardPeerFlags := [removeMe, replaceAllowedIps, updateOnly]

def iter (flags : WireguardPeerFlags) : List WireguardPeerFlags := Bitflags.iter named flags

end WireguardPeerFlags

inductive WireguardPeerAttribute
  | publicKey (key : Key)
  | presharedKey (key : Key)
  | endpoint (addr : SocketAddr)
  | persistentKeepalive (seconds : UInt16)
  | lastHandshake (time : WireguardTimeSpec)
  | rxBytes (bytes : UInt64)
  | txBytes (bytes : UInt64)
  | allowedIps (ips : List WireguardAllowedIp)
  | protocolVersion (version : UInt32)
  | flags (flags : WireguardPeerFlags)
  | other (kind : UInt16) (value : List UInt8)
  deriving DecidableEq, Repr

instance : Nla WireguardPeerAttribute where
  valueLen
    | .publicKey _ | .presharedKey _ => wgKeyLen
    | .endpoint addr => if addr.isIpv4 then 16 else 28
    | .persistentKeepalive _ => 2
    | .lastHandshake _ => 16
    | .rxBytes _ | .txBytes _ => 8
    | .allowedIps ips => NextFit.total bufferLen ips
    | .protocolVersion _ | .flags _ => 4
    | .other _ value => value.length

structure WireguardPeer where
  attributes : List WireguardPeerAttribute
  deriving DecidableEq, Repr

instance : Nla WireguardPeer where
  valueLen peer := NextFit.total bufferLen peer.attributes

-- ---------------------------------------------------------------------------
-- Devices
-- ---------------------------------------------------------------------------

abbrev WireguardDeviceFlags := BitVec 32

def WireguardDeviceFlags.replacePeers : WireguardDeviceFlags := 1

def WireguardDeviceFlags.named : List WireguardDeviceFlags := [.replacePeers]

def WireguardDeviceFlags.iter (flags : WireguardDeviceFlags) : List WireguardDeviceFlags :=
  Bitflags.iter named flags

inductive WireguardAttribute
  | ifIndex (index : UInt32)
  | ifName (name : String)
  | privateKey (key : Key)
  | publicKey (key : Key)
  | listenPort (port : UInt16)
  | fwmark (mark : UInt32)
  | peers (peers : List WireguardPeer)
  | flags (flags : WireguardDeviceFlags)
  | other (kind : UInt16) (value : List UInt8)
  deriving DecidableEq, Repr

instance : Nla WireguardAttribute where
  valueLen
    | .ifIndex _ => 4
    | .ifName name => name.utf8ByteSize + 1
    | .privateKey _ | .publicKey _ => wgKeyLen
    | .listenPort _ => 2
    | .fwmark _ => 4
    | .peers peers => NextFit.total bufferLen peers
    | .flags _ => 4
    | .other _ value => value.length

inductive WireguardCmd
  | getDevice
  | setDevice
  | other (value : UInt8)
  deriving DecidableEq, Repr

def WireguardCmd.toU8 : WireguardCmd → UInt8
  | .getDevice => 0
  | .setDevice => 1
  | .other value => value

structure WireguardMessage where
  cmd : WireguardCmd
  attributes : List WireguardAttribute
  deriving DecidableEq, Repr

-- ---------------------------------------------------------------------------
-- The value of an attribute of one kind
-- ---------------------------------------------------------------------------

namespace WireguardAllowedIpAttr

def ipAddr? : WireguardAllowedIpAttr → Option IpAddr
  | ipAddr addr => some addr
  | _ => none

def cidr? : WireguardAllowedIpAttr → Option UInt8
  | cidr prefixLength => some prefixLength
  | _ => none

def flags? : WireguardAllowedIpAttr → Option WireguardAllowedIpFlags
  | flags bits => some bits
  | _ => none

end WireguardAllowedIpAttr

namespace WireguardPeerAttribute

def publicKey? : WireguardPeerAttribute → Option Key
  | publicKey key => some key
  | _ => none

def presharedKey? : WireguardPeerAttribute → Option Key
  | presharedKey key => some key
  | _ => none

def allowedIps? : WireguardPeerAttribute → Option (List WireguardAllowedIp)
  | allowedIps ips => some ips
  | _ => none

def flags? : WireguardPeerAttribute → Option WireguardPeerFlags
  | flags bits => some bits
  | _ => none

def isAllowedIps : WireguardPeerAttribute → Bool
  | allowedIps _ => true
  | _ => false

@[simp] theorem allowedIps?_allowedIps (ips : List WireguardAllowedIp) :
    (allowedIps ips).allowedIps? = some ips := rfl

end WireguardPeerAttribute

def WireguardPeer.publicKey? (peer : WireguardPeer) : Option Key :=
  peer.attributes.findSome? (·.publicKey?)

theorem WireguardPeer.publicKey_mem {peer : WireguardPeer} (h : peer.publicKey? = some key) :
    .publicKey key ∈ peer.attributes := by
  obtain ⟨attr, hattr, hview⟩ := List.exists_of_findSome?_eq_some h
  cases attr with
  | publicKey k =>
    cases hview
    exact hattr
  | _ => exact nomatch hview

namespace WireguardAttribute

def privateKey? : WireguardAttribute → Option Key
  | privateKey key => some key
  | _ => none

def peers? : WireguardAttribute → Option (List WireguardPeer)
  | peers entries => some entries
  | _ => none

def flags? : WireguardAttribute → Option WireguardDeviceFlags
  | flags bits => some bits
  | _ => none

def isIface : WireguardAttribute → Bool
  | ifName _ | ifIndex _ => true
  | _ => false

@[simp] theorem peers?_peers (entries : List WireguardPeer) : (peers entries).peers? = some entries :=
  rfl

end WireguardAttribute

def WireguardPeer.allowedIps (peer : WireguardPeer) : List WireguardAllowedIp :=
  (peer.attributes.filterMap (·.allowedIps?)).flatten

def WireguardMessage.rawPeers (m : WireguardMessage) : List WireguardPeer :=
  (m.attributes.filterMap (·.peers?)).flatten

-- ---------------------------------------------------------------------------
-- Netlink and generic netlink
-- ---------------------------------------------------------------------------

structure NetlinkHeader where
  length : UInt32 := 0
  messageType : UInt16 := 0
  flags : UInt16 := 0
  sequenceNumber : UInt32 := 0
  portNumber : UInt32 := 0
  deriving DecidableEq, Repr

structure GenlHeader where
  cmd : UInt8
  version : UInt8
  deriving DecidableEq, Repr

structure GenlMessage where
  header : GenlHeader
  payload : WireguardMessage
  resolvedFamilyId : UInt16 := 0
  deriving DecidableEq, Repr

def GenlMessage.fromPayload (payload : WireguardMessage) : GenlMessage where
  header := { cmd := payload.cmd.toU8, version := 1 }
  payload := payload

structure NonZeroI32 where
  code : Int32
  ne_zero : code ≠ 0
  deriving DecidableEq, Repr

/-- `code` is absent in an acknowledgement; `header` is the kernel's raw copy
of the request. -/
structure ErrorMessage where
  code : Option NonZeroI32
  header : List UInt8
  deriving DecidableEq, Repr

structure DoneMessage where
  code : Int32
  extendedAck : List UInt8
  deriving DecidableEq, Repr

inductive NetlinkPayload
  | done (done : DoneMessage)
  | error (err : ErrorMessage)
  | noop
  | overrun (bytes : List UInt8)
  | innerMessage (message : GenlMessage)
  deriving DecidableEq, Repr

structure NetlinkMessage where
  header : NetlinkHeader
  payload : NetlinkPayload
  deriving DecidableEq, Repr

def NetlinkMessage.fromGenl (message : GenlMessage) : NetlinkMessage where
  header := {}
  payload := .innerMessage message

def nlmFRequest : UInt16 := 1

def nlmFAck : UInt16 := 4

def nlmFDump : UInt16 := 0x300

end NlWireguard
