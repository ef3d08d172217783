import NlWireguard.Error
import NlWireguard.Lib.Base64

/-!
# Peers of a configuration

`WireguardPeerParsed` and its allowed IPs, converted from and to the netlink
attributes of a peer. Keys are base64 texts here and bytes there. What the
crate writes to its log is left out.
-/

namespace NlWireguard

variable [Base64.Engine]

def encodeKey (key : Key) : String := Base64.Engine.encode key.bytes

def decodeKey (propName keyStr : String) : Except WireguardError Key :=
  match Base64.Engine.decode keyStr with
  | .error e =>
    .error (.new .invalidKey
      s!"Invalid {propName}: not a valid base64 encoded string: {e.display}" none)
  | .ok key =>
    if h : key.length = wgKeyLen then .ok ⟨key, h⟩
    else
      .error (.new .invalidKey
        s!"Invalid {propName}: {wgKeyLen} bytes expected, but the base64 encoded string holds {key.length} bytes"
        none)

/-- The attribute of an optional property, if there is one. -/
def emit (property : Option α) (attr : α → β) : List β := property.toList.map attr

/-- `emit` for a property which is checked on the way. -/
def emitM (property : Option α) (attr : α → Except ε β) : Except ε (List β) :=
  property.toList.mapM attr

-- ---------------------------------------------------------------------------
-- Allowed IPs
-- ---------------------------------------------------------------------------

inductive WireguardParsedAllowedIpFlags
  | removeMe
  | other (bits : BitVec 32)
  deriving DecidableEq, Repr

namespace WireguardParsedAllowedIpFlags

def toFlags : WireguardParsedAllowedIpFlags → WireguardAllowedIpFlags
  | removeMe => WireguardAllowedIpFlags.removeMe
  | other bits => bits

def ofFlags (flag : WireguardAllowedIpFlags) : WireguardParsedAllowedIpFlags :=
  if flag = WireguardAllowedIpFlags.removeMe then removeMe else other flag

end WireguardParsedAllowedIpFlags

structure WireguardIpAddress where
  prefixLength : UInt8
  ipAddr : IpAddr
  flags : Option (List WireguardParsedAllowedIpFlags)
  deriving DecidableEq, Repr

namespace WireguardIpAddress

def maxPrefixLength (self : WireguardIpAddress) : UInt8 := if self.ipAddr.isIpv4 then 32 else 128

def validate (self : WireguardIpAddress) : Except WireguardError Unit :=
  if self.maxPrefixLength < self.prefixLength then
    .error (.new .invalidInput
      s!"`prefix_length` {self.prefixLength.toNat} is too large for {self.ipAddr.display}, expecting at most {self.maxPrefixLength.toNat}"
      none)
  else .ok ()

/-- What the attributes read so far say about an allowed IP. -/
structure Parts where
  ipAddr : Option IpAddr := none
  prefixLength : Option UInt8 := none
  flags : Option (List WireguardParsedAllowedIpFlags) := none

def Parts.read (parts : Parts) : WireguardAllowedIpAttr → Parts
  | .ipAddr v => { parts with ipAddr := some v }
  | .cidr v => { parts with prefixLength := some v }
  | .family _ => parts
  | .flags flagBits =>
    { parts with flags := some (flagBits.iter.map WireguardParsedAllowedIpFlags.ofFlags) }
  | .other .. => parts

def tryFrom (attrs : WireguardAllowedIp) : Except WireguardError WireguardIpAddress :=
  let parts := attrs.attributes.foldl Parts.read {}
  match parts.ipAddr with
  | some ipAddr =>
    match parts.prefixLength with
    | some prefixLength => .ok { ipAddr, prefixLength, flags := parts.flags }
    | none =>
      .error (.new .decodeError
        "WireguardAllowedIp does not have WireguardAllowedIpAttr::Cidr defined" none)
  | none =>
    .error (.new .decodeError
      "WireguardAllowedIp does not have WireguardAllowedIpAttr::IpAddr defined" none)

def toAllowedIp (ip : WireguardIpAddress) : WireguardAllowedIp :=
  ⟨[.cidr ip.prefixLength, .family (if ip.ipAddr.isIpv4 then .ipv4 else .ipv6), .ipAddr ip.ipAddr] ++
    emit ip.flags fun flags => .flags (Bitflags.union (flags.map WireguardParsedAllowedIpFlags.toFlags))⟩

end WireguardIpAddress

-- ---------------------------------------------------------------------------
-- Peers
-- ---------------------------------------------------------------------------

inductive WireguardParsedPeerFlags
  | removeMe
  | replaceAllowedIps
  | updateOnly
  | other (bits : BitVec 32)
  deriving DecidableEq, Repr

namespace WireguardParsedPeerFlags

def toFlags : WireguardParsedPeerFlags → WireguardPeerFlags
  | removeMe => WireguardPeerFlags.removeMe
  | replaceAllowedIps => WireguardPeerFlags.replaceAllowedIps
  | updateOnly => WireguardPeerFlags.updateOnly
  | other bits => bits

def ofFlags (flag : WireguardPeerFlags) : WireguardParsedPeerFlags :=
  if flag = WireguardPeerFlags.removeMe then removeMe
  else if flag = WireguardPeerFlags.replaceAllowedIps then replaceAllowedIps
  else if flag = WireguardPeerFlags.updateOnly then updateOnly
  else other flag

def bitsOf (flags : List WireguardParsedPeerFlags) : WireguardPeerFlags :=
  Bitflags.union (flags.map toFlags)

end WireguardParsedPeerFlags

structure WireguardPeerParsed where
  endpoint : Option SocketAddr := none
  publicKey : Option String := none
  presharedKey : Option String := none
  persistentKeepalive : Option UInt16 := none
  lastHandshake : Option Duration := none
  rxBytes : Option UInt64 := none
  txBytes : Option UInt64 := none
  allowedIps : Option (List WireguardIpAddress) := none
  protocolVersion : Option UInt32 := none
  flags : Option (List WireguardParsedPeerFlags) := none
  deriving DecidableEq, Repr

namespace WireguardPeerParsed

def nanosPerSecond : Int64 := 1000000000

/-- The last handshake after reading one more attribute for it; a time which
`Duration` can not hold is ignored. -/
def readLastHandshake (before : Option Duration) (v : WireguardTimeSpec) : Option Duration :=
  if v.seconds = 0 ∧ v.nanoSeconds = 0 then none
  else if 0 ≤ v.seconds ∧ 0 ≤ v.nanoSeconds ∧ v.nanoSeconds < nanosPerSecond then
    some (.new v.seconds.toUInt64 v.nanoSeconds.toUInt64.toUInt32)
  else before

def read (ret : WireguardPeerParsed) : WireguardPeerAttribute → WireguardPeerParsed
  | .publicKey v => { ret with publicKey := some (encodeKey v) }
  | .presharedKey v =>
    { ret with presharedKey := if v.bytes.all (· == 0) then none else some (encodeKey v) }
  | .endpoint v => { ret with endpoint := some v }
  | .persistentKeepalive v => { ret with persistentKeepalive := some v }
  | .lastHandshake v => { ret with lastHandshake := readLastHandshake ret.lastHandshake v }
  | .rxBytes v => { ret with rxBytes := some v }
  | .txBytes v => { ret with txBytes := some v }
  | .protocolVersion v => { ret with protocolVersion := some v }
  | .allowedIps wgIps =>
    { ret with allowedIps := some (wgIps.filterMap fun ip => (WireguardIpAddress.tryFrom ip).toOption) }
  | .flags flagBits =>
    { ret with flags := some (flagBits.iter.map WireguardParsedPeerFlags.ofFlags) }
  | .other .. => ret

def ofPeer (attrs : WireguardPeer) : WireguardPeerParsed := attrs.attributes.foldl read {}

def remove (publicKey : String) : WireguardPeerParsed where
  publicKey := some publicKey
  flags := some [.removeMe]

def mergeContinuation (self continuation : WireguardPeerParsed) : WireguardPeerParsed where
  allowedIps :=
    match continuation.allowedIps with
    | some more =>
      match self.allowedIps with
      | some allowedIps => some (allowedIps ++ more)
      | none => some more
    | none => self.allowedIps
  publicKey := self.publicKey.or continuation.publicKey
  presharedKey := self.presharedKey.or continuation.presharedKey
  endpoint := self.endpoint.or continuation.endpoint
  persistentKeepalive := self.persistentKeepalive.or continuation.persistentKeepalive
  lastHandshake := self.lastHandshake.or continuation.lastHandshake
  rxBytes := self.rxBytes.or continuation.rxBytes
  txBytes := self.txBytes.or continuation.txBytes
  protocolVersion := self.protocolVersion.or continuation.protocolVersion
  flags :=
    match continuation.flags with
    | some flags => some (self.flags.getD [] ++ flags)
    | none => self.flags

def build (self : WireguardPeerParsed) : Except WireguardError WireguardPeer := do
  if self.publicKey.isNone then
    throw (.new .invalidInput "Peer is missing `public_key` which the kernel requires" none)
  let endpoint := emit self.endpoint .endpoint
  let publicKey ← emitM self.publicKey fun v => .publicKey <$> decodeKey "peer.public_key" v
  let presharedKey ← emitM self.presharedKey fun v =>
    .presharedKey <$> decodeKey "peer.preshared_key" v
  let persistentKeepalive := emit self.persistentKeepalive .persistentKeepalive
  let lastHandshake := emit self.lastHandshake fun v =>
    .lastHandshake ⟨v.asSecs.toInt64, v.subsecNanos.toUInt64.toInt64⟩
  let rxBytes := emit self.rxBytes .rxBytes
  let txBytes := emit self.txBytes .txBytes
  let allowedIps ← emitM self.allowedIps fun ips => do
    ips.forM fun ip => ip.validate
    return .allowedIps (ips.map WireguardIpAddress.toAllowedIp)
  let protocolVersion := emit self.protocolVersion .protocolVersion
  let flags := emit self.flags fun flags => .flags (WireguardParsedPeerFlags.bitsOf flags)
  return ⟨endpoint ++ publicKey ++ presharedKey ++ persistentKeepalive ++ lastHandshake ++
    rxBytes ++ txBytes ++ allowedIps ++ protocolVersion ++ flags⟩

end WireguardPeerParsed

end NlWireguard
