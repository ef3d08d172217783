import NlWireguard.PeerParsed

/-!
# Configurations

`WireguardParsed` is what a device is configured with and what a dump of it
reports. `ofMessage` and `ofMessages` read netlink messages, `buildMessages`
writes them: a configuration which does not fit into one message is split over
several, and a peer which does not fit into one attribute over several chunks.
-/

namespace NlWireguard

variable [Base64.Engine]

inductive WireguardParsedDeviceFlags
  | replacePeers
  | other (bits : BitVec 32)
  deriving DecidableEq, Repr

namespace WireguardParsedDeviceFlags

def toFlags : WireguardParsedDeviceFlags → WireguardDeviceFlags
  | replacePeers => WireguardDeviceFlags.replacePeers
  | other bits => bits

def ofFlags (flag : WireguardDeviceFlags) : WireguardParsedDeviceFlags :=
  if flag = WireguardDeviceFlags.replacePeers then replacePeers else other flag

def bitsOf (flags : List WireguardParsedDeviceFlags) : WireguardDeviceFlags :=
  Bitflags.union (flags.map toFlags)

end WireguardParsedDeviceFlags

structure WireguardParsed where
  ifaceName : Option String := none
  ifaceIndex : Option UInt32 := none
  publicKey : Option String := none
  privateKey : Option String := none
  listenPort : Option UInt16 := none
  fwmark : Option UInt32 := none
  peers : Option (List WireguardPeerParsed) := none
  flags : Option (List WireguardParsedDeviceFlags) := none
  deriving DecidableEq, Repr

-- ---------------------------------------------------------------------------
-- Reading messages
-- ---------------------------------------------------------------------------

/-- Append `peer`, or merge it into the last entry when the kernel split one
peer over several messages. -/
def pushPeer (peers : List WireguardPeerParsed) (peer : WireguardPeerParsed) :
    List WireguardPeerParsed :=
  match peers.getLast? with
  | some last =>
    if peer.publicKey.isSome ∧ last.publicKey = peer.publicKey then
      peers.dropLast ++ [last.mergeContinuation peer]
    else peers ++ [peer]
  | none => peers ++ [peer]

namespace WireguardParsed

/-- The loop body of the conversion of a single message. -/
def readSingle (ret : WireguardParsed) : WireguardAttribute → WireguardParsed
  | .ifName v => { ret with ifaceName := some v }
  | .ifIndex v => { ret with ifaceIndex := some v }
  | .privateKey v => { ret with privateKey := some (encodeKey v) }
  | .publicKey v => { ret with publicKey := some (encodeKey v) }
  | .listenPort v => { ret with listenPort := some v }
  | .fwmark v => { ret with fwmark := some v }
  | .peers peers => { ret with peers := some (peers.map .ofPeer) }
  | .flags flagBits =>
    { ret with flags := some (flagBits.iter.map WireguardParsedDeviceFlags.ofFlags) }
  | .other .. => ret

def ofMessage (msg : WireguardMessage) : WireguardParsed := msg.attributes.foldl readSingle {}

/-- The loop body of the conversion of the replies to a dump. Peers and flags
add to what earlier replies hold. -/
def read (ret : WireguardParsed) : WireguardAttribute → WireguardParsed
  | .ifName v => { ret with ifaceName := some v }
  | .ifIndex v => { ret with ifaceIndex := some v }
  | .privateKey v => { ret with privateKey := some (encodeKey v) }
  | .publicKey v => { ret with publicKey := some (encodeKey v) }
  | .listenPort v => { ret with listenPort := some v }
  | .fwmark v => { ret with fwmark := some v }
  | .peers peerAttributes =>
    { ret with
      peers := some (peerAttributes.foldl (fun peers peer => pushPeer peers (.ofPeer peer))
        (ret.peers.getD [])) }
  | .flags flagBits =>
    { ret with
      flags := some (ret.flags.getD [] ++ flagBits.iter.map WireguardParsedDeviceFlags.ofFlags) }
  | .other .. => ret

def readMessage (ret : WireguardParsed) (msg : WireguardMessage) : WireguardParsed :=
  msg.attributes.foldl read ret

def ofMessages (msgs : List WireguardMessage) : WireguardParsed := msgs.foldl readMessage {}

end WireguardParsed

-- ---------------------------------------------------------------------------
-- Splitting a peer
-- ---------------------------------------------------------------------------

def maxNlaValueLen : Nat := 65535 - nlaHeaderSize - (nlaAlignto - 1)

/-- The loop of `takeAllowedIpsBatch`: the running length, and how many allowed
IPs it has taken. -/
def fillBatch (ips : List WireguardAllowedIp) (prefixLen : Nat) : NextFit.Bin :=
  NextFit.fill bufferLen maxNlaValueLen ⟨prefixLen + nlaHeaderSize, 0⟩ ips

/-- The allowed IPs which fit into a peer whose other attributes take
`prefixLen` bytes, and the ones left. -/
def takeAllowedIpsBatch (ips : List WireguardAllowedIp) (prefixLen : Nat) :
    List WireguardAllowedIp × List WireguardAllowedIp :=
  let count := (fillBatch ips prefixLen).count
  (ips.take count, ips.drop count)

omit [Base64.Engine] in
theorem takeAllowedIpsBatch_lt (h : ips ≠ []) :
    (takeAllowedIpsBatch ips prefixLen).2.length < ips.length := by
  have hpos : 0 < (fillBatch ips prefixLen).count := NextFit.fill_pos h
  have hlen := List.length_pos_iff.mpr h
  simp only [takeAllowedIpsBatch, List.length_drop]
  omega

/-- The chunks which follow the first one, one for each round of the loop. -/
def continuationChunks (publicKey : WireguardPeerAttribute) (continuationLen : Nat)
    (allowedIps : List WireguardAllowedIp) : List WireguardPeer :=
  if _h : allowedIps = [] then []
  else
    ⟨[publicKey, .allowedIps (takeAllowedIpsBatch allowedIps continuationLen).1]⟩ ::
      continuationChunks publicKey continuationLen (takeAllowedIpsBatch allowedIps continuationLen).2
termination_by allowedIps.length
decreasing_by exact takeAllowedIpsBatch_lt _h

/-- What `peerChunks` finds in the attributes of a peer. -/
structure PeerSplit where
  stateAttributes : List WireguardPeerAttribute := []
  allowedIps : Option (List WireguardAllowedIp) := none
  removeMe : Bool := false

def PeerSplit.add (split : PeerSplit) : WireguardPeerAttribute → PeerSplit
  | .allowedIps ips => { split with allowedIps := some ips }
  | .flags flags =>
    { split with
      removeMe := Bitflags.Contains flags WireguardPeerFlags.removeMe
      stateAttributes := split.stateAttributes ++ [.flags flags] }
  | attr => { split with stateAttributes := split.stateAttributes ++ [attr] }

def isPublicKey : WireguardPeerAttribute → Bool
  | .publicKey _ => true
  | _ => false

/-- The bytes of the first chunk which are not allowed IPs. -/
def stateLen (stateAttributes : List WireguardPeerAttribute) : Nat :=
  nlaHeaderSize + NextFit.total bufferLen stateAttributes

/-- The same of the chunks behind it. -/
def continuationLen (publicKey : WireguardPeerAttribute) : Nat := nlaHeaderSize + bufferLen publicKey

def peerChunks (peer : WireguardPeerParsed) : Except WireguardError (List WireguardPeer) := do
  let split := (← peer.build).attributes.foldl PeerSplit.add {}
  match split.allowedIps with
  | none => return [⟨split.stateAttributes⟩]
  | some allowedIps =>
    -- The kernel ignores the allowed IPs of a peer which is being removed.
    if split.removeMe then return [⟨split.stateAttributes⟩]
    else if allowedIps = [] then
      return [⟨split.stateAttributes ++ [.allowedIps allowedIps]⟩]
    else
      match split.stateAttributes.find? isPublicKey with
      | none =>
        throw (.new .invalidInput
          "`peer.public_key` is required for splitting a peer over several netlink messages" none)
      | some publicKey =>
        let (firstBatch, allowedIps) := takeAllowedIpsBatch allowedIps (stateLen split.stateAttributes)
        return ⟨split.stateAttributes ++ [.allowedIps firstBatch]⟩ ::
          continuationChunks publicKey (continuationLen publicKey) allowedIps

-- ---------------------------------------------------------------------------
-- Building messages
-- ---------------------------------------------------------------------------

def ifnamsiz : Nat := 16

/-- The messages built so far, and the chunks of the next one. -/
structure Splitter where
  messages : List WireguardMessage := []
  peers : List WireguardPeer := []
  peersLen : Nat := 0

namespace WireguardParsed

def ifaceAttribute (self : WireguardParsed) : Except WireguardError WireguardAttribute :=
  match self.ifaceName, self.ifaceIndex with
  | some ifaceName, _ =>
    if ifnamsiz ≤ ifaceName.utf8ByteSize then
      .error (.new .invalidInput
        s!"`iface_name` can not be longer than {ifnamsiz - 1} bytes, but `{ifaceName}` holds {ifaceName.utf8ByteSize} bytes"
        none)
    else if Char.ofNat 0 ∈ ifaceName.toList then
      .error (.new .invalidInput
        "`iface_name` can not hold a NUL byte, the kernel would use the name in front of it" none)
    else .ok (.ifName ifaceName)
  | none, some ifaceIndex => .ok (.ifIndex ifaceIndex)
  | none, none =>
    .error (.new .invalidInput "Neither `iface_name` nor `iface_index` is defined" none)

def deviceAttributes (self : WireguardParsed) : Except WireguardError (List WireguardAttribute) := do
  let iface ← self.ifaceAttribute
  let publicKey ← emitM self.publicKey fun v => .publicKey <$> decodeKey "public_key" v
  let privateKey ← emitM self.privateKey fun v => .privateKey <$> decodeKey "private_key" v
  let listenPort := emit self.listenPort .listenPort
  let fwmark := emit self.fwmark .fwmark
  let flags := emit self.flags fun flags => .flags (WireguardParsedDeviceFlags.bitsOf flags)
  return [iface] ++ publicKey ++ privateKey ++ listenPort ++ fwmark ++ flags

def buildMessage (self : WireguardParsed) (cmd : WireguardCmd) (first : Bool)
    (peers : List WireguardPeer) : Except WireguardError WireguardMessage := do
  let attributes ← if first then self.deviceAttributes else List.singleton <$> self.ifaceAttribute
  return ⟨cmd, if self.peers.isSome then attributes ++ [.peers peers] else attributes⟩

def flush (self : WireguardParsed) (cmd : WireguardCmd) (s : Splitter) :
    Except WireguardError Splitter := do
  let message ← self.buildMessage cmd s.messages.isEmpty s.peers
  return { messages := s.messages ++ [message] }

def pushChunk (self : WireguardParsed) (cmd : WireguardCmd) (s : Splitter) (chunk : WireguardPeer) :
    Except WireguardError Splitter := do
  let chunkLen := bufferLen chunk
  let s ← if s.peers ≠ [] ∧ maxNlaValueLen < s.peersLen + chunkLen then self.flush cmd s else pure s
  return { s with peers := s.peers ++ [chunk], peersLen := s.peersLen + chunkLen }

def pushPeerChunks (self : WireguardParsed) (cmd : WireguardCmd) (s : Splitter)
    (peer : WireguardPeerParsed) : Except WireguardError Splitter := do
  (← peerChunks peer).foldlM (self.pushChunk cmd) s

def buildMessages (self : WireguardParsed) (cmd : WireguardCmd) :
    Except WireguardError (List WireguardMessage) := do
  let s ← (self.peers.getD []).foldlM (self.pushPeerChunks cmd) {}
  let s ← if s.peers ≠ [] ∨ s.messages = [] then self.flush cmd s else pure s
  return s.messages

def build (self : WireguardParsed) (cmd : WireguardCmd) : Except WireguardError WireguardMessage := do
  match ← self.buildMessages cmd with
  | [message] => return message
  | messages =>
    throw (.new .invalidInput
      s!"The configuration requires {messages.length} netlink messages, please use `WireguardHandle::set()`"
      none)

end WireguardParsed

end NlWireguard
