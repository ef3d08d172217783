import NlWireguard.Lib.ExceptLaws
import NlWireguard.Parsed

/-!
# Requests and replies

The asynchronous part of the crate, with a finished stream as a list. The
other end of the netlink socket is a parameter: for the requests it has seen
and the next one it either fails to be reached or answers with any finite
list of replies.
-/

namespace NlWireguard

variable [Base64.Engine]

/-- How the operating system describes an error number. -/
class OsError where
  describe : Int32 → String

/-- Linux, as far as the samples need it. -/
@[reducible] def OsError.linux : OsError where
  describe errno :=
    if errno = 1 then "Operation not permitted (os error 1)"
    else s!"Unknown error {errno.toInt} (os error {errno.toInt})"

variable [OsError]

/-- A reply which could not be decoded, as its rendering. -/
structure ReplyDecodeError where
  text : String
  deriving DecidableEq, Repr

abbrev Reply := Except ReplyDecodeError NetlinkMessage

abbrev Item := Except WireguardError WireguardMessage

/-- A failed send, as its rendering, or all replies of the stream. -/
abbrev Link := (sent : List NetlinkMessage) → (request : NetlinkMessage) → Except String (List Reply)

def netlinkErrorMessage (err : ErrorMessage) : String :=
  match err.code with
  | some code => s!"Netlink error: {OsError.describe (-code.code)}"
  | none => "Netlink error: no error code"

/-- The item a reply becomes. The payload types are the ones the netlink crate
has, so the source's arm for any other type has no counterpart here. -/
def parseReply (nlMsg : NetlinkMessage) : Reply → Option Item
  | .ok ⟨_, .innerMessage genlMsg⟩ => some (.ok genlMsg.payload)
  | .ok ⟨_, .error err⟩ =>
    if err.code.isNone then none
    else some (.error (.new .netlinkError (netlinkErrorMessage err) (some nlMsg)))
  | .ok ⟨_, .done done⟩ =>
    if done.code = 0 then none
    else
      some (.error (.new .netlinkError
        s!"Netlink dump failed: {OsError.describe (-done.code)}" (some nlMsg)))
  | .ok ⟨_, .noop⟩ => none
  | .ok ⟨_, .overrun _⟩ =>
    some (.error (.new .bug "Netlink message overrun, messages were lost" (some nlMsg)))
  | .error e => some (.error (.new .decodeError s!"netlink decode error: {e.text}" (some nlMsg)))

def parseNlMsgStream (nlMsg : NetlinkMessage) (stream : List Reply) : List Item :=
  stream.filterMap (parseReply nlMsg)

def requestMessage (nlHeaderFlags : UInt16) (message : WireguardMessage) : NetlinkMessage :=
  let nlMsg := NetlinkMessage.fromGenl (.fromPayload message)
  { nlMsg with header := { nlMsg.header with flags := nlHeaderFlags } }

def requestFailure (nlMsg : NetlinkMessage) (e : String) : WireguardError :=
  .new .netlinkError s!"Netlink request failed: {e}" (some nlMsg)

def request (link : Link) (sent : List NetlinkMessage) (nlHeaderFlags : UInt16)
    (message : WireguardMessage) : Except WireguardError (List Item) :=
  let nlMsg := requestMessage nlHeaderFlags message
  match link sent nlMsg with
  | .ok stream => .ok (parseNlMsgStream nlMsg stream)
  | .error e => .error (requestFailure nlMsg e)

-- ---------------------------------------------------------------------------
-- Reading a device
-- ---------------------------------------------------------------------------

def getByName (link : Link) (ifaceName : String) : Except WireguardError WireguardParsed := do
  let msg ← WireguardParsed.build { ifaceName := some ifaceName } .getDevice
  let stream ← request link [] (nlmFRequest ||| nlmFAck ||| nlmFDump) msg
  let msgs ← ExceptLaws.drain [] stream
  if msgs = [] then
    throw (.new .bug "Got no reply from kernel for request"
      (some (.fromGenl (.fromPayload msg))))
  return .ofMessages msgs

-- ---------------------------------------------------------------------------
-- Configuring a device
-- ---------------------------------------------------------------------------

/-- What `request` does, as the caller of a sequence of requests sees it. -/
abbrev Requester := (sent : List WireguardMessage) → WireguardMessage →
  Except WireguardError (List Item)

def itemError : Item → Option WireguardError
  | .ok _ => none
  | .error e => some e

def partError (index total : Nat) (e : WireguardError) : WireguardError :=
  let msg :=
    if 1 < total then
      s!"Failed to apply part {index + 1}/{total} of the configuration: {e.msg}"
    else e.msg
  .new e.kind msg e.netlinkMsg

/-- The requests sent, a failed send included, and the result. -/
structure SetRun where
  sent : List WireguardMessage
  result : Except WireguardError Unit

def setLoop (request : Requester) (total : Nat) :
    (index : Nat) → (sent messages : List WireguardMessage) → SetRun
  | _, sent, [] => ⟨sent, .ok ()⟩
  | index, sent, msg :: messages =>
    match request sent msg with
    | .error e => ⟨sent ++ [msg], .error e⟩
    | .ok stream =>
      match stream.findSome? itemError with
      | some e => ⟨sent ++ [msg], .error (partError index total e)⟩
      | none => setLoop request total (index + 1) (sent ++ [msg]) messages

def setWith (request : Requester) (parsed : WireguardParsed) : SetRun :=
  match parsed.buildMessages .setDevice with
  | .error e => ⟨[], .error e⟩
  | .ok messages => setLoop request messages.length 0 [] messages

def Link.requester (link : Link) : Requester := fun sent message =>
  request link (sent.map (requestMessage (nlmFRequest ||| nlmFAck))) (nlmFRequest ||| nlmFAck) message

def set (link : Link) (parsed : WireguardParsed) : SetRun := setWith link.requester parsed

def removePeer (link : Link) (ifaceName publicKey : String) : SetRun :=
  set link { ifaceName := some ifaceName, peers := some [.remove publicKey] }

end NlWireguard
