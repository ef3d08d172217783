import NlWireguard.Handshake
import NlWireguard.Replies

/-!
# Arithmetic on what the kernel sends

The processing of replies once more, with every operation on a number of the
kernel checked: a negation or a cast which changes the number is a `Trap`, and
so are nanoseconds of a second or more. Conversions of messages never trap.
Negating an error code does, for the least one.
-/

namespace NlWireguard

open ExceptLaws

inductive Trap
  | negation (n : Int32)
  | cast (n : Int64)
  | duration (nanos : UInt32)
  deriving DecidableEq, Repr

def Reply.code? : Reply → Option Int32
  | .ok ⟨_, .error err⟩ => err.code.map (·.code)
  | .ok ⟨_, .done done⟩ => some done.code
  | _ => none

namespace Exact

-- ---------------------------------------------------------------------------
-- Checked operations
-- ---------------------------------------------------------------------------

def neg (n : Int32) : Except Trap Int32 :=
  if (-n).toInt = -n.toInt then .ok (-n) else .error (.negation n)

def asU64 (n : Int64) : Except Trap UInt64 :=
  if (n.toUInt64.toNat : Int) = n.toInt then .ok n.toUInt64 else .error (.cast n)

def asU32 (n : Int64) : Except Trap UInt32 :=
  if (n.toUInt64.toUInt32.toNat : Int) = n.toInt then .ok n.toUInt64.toUInt32
  else .error (.cast n)

def durationNew (secs : UInt64) (nanos : UInt32) : Except Trap Duration :=
  if nanos.toNat < 1000000000 then .ok (.new secs nanos) else .error (.duration nanos)

/-- Only the least number has no negation. -/
theorem toInt_neg_iff (n : Int32) : (-n).toInt = -n.toInt ↔ n ≠ Int32.minValue := by
  constructor
  · rintro h rfl
    exact absurd h (by decide)
  · intro h
    have hmin : n.toInt ≠ -2 ^ 31 := fun heq => h (Int32.toInt_inj.mp heq)
    have hle := n.le_toInt
    have hlt := n.toInt_lt
    rw [Int32.toInt_neg]
    exact Int.bmod_eq_of_le (by omega) (by omega)

theorem neg_eq (h : n ≠ Int32.minValue) : neg n = .ok (-n) := if_pos ((toInt_neg_iff n).mpr h)

theorem neg_minValue : neg Int32.minValue = .error (.negation Int32.minValue) := rfl

theorem asU64_ok (h : 0 ≤ n) : asU64 n = .ok n.toUInt64 :=
  if_pos (toNat_toUInt64 n h)

-- ---------------------------------------------------------------------------
-- Conversion of messages
-- ---------------------------------------------------------------------------

open WireguardPeerParsed (nanosPerSecond)

def readLastHandshake (before : Option Duration) (v : WireguardTimeSpec) :
    Except Trap (Option Duration) :=
  if v.seconds = 0 ∧ v.nanoSeconds = 0 then .ok none
  else if 0 ≤ v.seconds ∧ 0 ≤ v.nanoSeconds ∧ v.nanoSeconds < nanosPerSecond then do
    let secs ← asU64 v.seconds
    let nanos ← asU32 v.nanoSeconds
    some <$> durationNew secs nanos
  else .ok before

/-- The guards of a time are enough for its casts and for `Duration::new`. -/
theorem readLastHandshake_eq (before : Option Duration) (v : WireguardTimeSpec) :
    readLastHandshake before v = .ok (WireguardPeerParsed.readLastHandshake before v) := by
  unfold readLastHandshake WireguardPeerParsed.readLastHandshake
  by_cases hzero : v.seconds = 0 ∧ v.nanoSeconds = 0
  · rw [if_pos hzero, if_pos hzero]
  rw [if_neg hzero, if_neg hzero]
  by_cases hrange : 0 ≤ v.seconds ∧ 0 ≤ v.nanoSeconds ∧ v.nanoSeconds < nanosPerSecond
  · have ht : v.InRange := ⟨hrange.1, hrange.2.1, hrange.2.2, hzero⟩
    have hsubsec : asU32 v.nanoSeconds = .ok v.nanoSeconds.toUInt64.toUInt32 := if_pos ht.toNat_subsec
    have hnew : durationNew v.seconds.toUInt64 v.nanoSeconds.toUInt64.toUInt32 =
        .ok (.new v.seconds.toUInt64 v.nanoSeconds.toUInt64.toUInt32) := if_pos ht.subsec_lt
    rw [if_pos hrange, if_pos hrange, asU64_ok ht.seconds, ok_bind, hsubsec, ok_bind, hnew, ok_map]
  · rw [if_neg hrange, if_neg hrange]

variable [Base64.Engine]

/-- The other attributes of a peer hold no number which is calculated with. -/
def read (ret : WireguardPeerParsed) : WireguardPeerAttribute → Except Trap WireguardPeerParsed
  | .lastHandshake v => do
    let lastHandshake ← readLastHandshake ret.lastHandshake v
    return { ret with lastHandshake }
  | attr => .ok (ret.read attr)

def ofPeer (attrs : WireguardPeer) : Except Trap WireguardPeerParsed :=
  attrs.attributes.foldlM read {}

def readDevice (ret : WireguardParsed) : WireguardAttribute → Except Trap WireguardParsed
  | .peers peerAttributes => do
    let peers ← peerAttributes.foldlM (fun peers peer => pushPeer peers <$> ofPeer peer)
      (ret.peers.getD [])
    return { ret with peers := some peers }
  | attr => .ok (ret.read attr)

def readMessage (ret : WireguardParsed) (msg : WireguardMessage) : Except Trap WireguardParsed :=
  msg.attributes.foldlM readDevice ret

def ofMessages (msgs : List WireguardMessage) : Except Trap WireguardParsed :=
  msgs.foldlM readMessage {}

theorem read_eq (ret : WireguardPeerParsed) (attr : WireguardPeerAttribute) :
    read ret attr = .ok (ret.read attr) := by
  cases attr with
  | lastHandshake v => rw [read, readLastHandshake_eq, ok_bind]; rfl
  | _ => rfl

theorem ofPeer_eq (attrs : WireguardPeer) : ofPeer attrs = .ok (.ofPeer attrs) :=
  foldlM_total read_eq _ _

theorem readDevice_eq (ret : WireguardParsed) (attr : WireguardAttribute) :
    readDevice ret attr = .ok (ret.read attr) := by
  cases attr with
  | peers entries =>
    have hpush (peers : List WireguardPeerParsed) (peer : WireguardPeer) :
        pushPeer peers <$> ofPeer peer = .ok (pushPeer peers (.ofPeer peer)) := by
      rw [ofPeer_eq, ok_map]
    rw [readDevice, foldlM_total hpush, ok_bind]
    rfl
  | _ => rfl

theorem readMessage_eq (ret : WireguardParsed) (msg : WireguardMessage) :
    readMessage ret msg = .ok (ret.readMessage msg) :=
  foldlM_total readDevice_eq _ _

theorem ofMessages_eq (msgs : List WireguardMessage) :
    ofMessages msgs = .ok (.ofMessages msgs) :=
  foldlM_total readMessage_eq _ _

-- ---------------------------------------------------------------------------
-- Processing replies
-- ---------------------------------------------------------------------------

variable [OsError]

def netlinkErrorMessage (err : ErrorMessage) : Except Trap String :=
  match err.code with
  | some code => do
    let errno ← neg code.code
    return s!"Netlink error: {OsError.describe errno}"
  | none => .ok "Netlink error: no error code"

def parseReply (nlMsg : NetlinkMessage) : Reply → Except Trap (Option Item)
  | .ok ⟨_, .error err⟩ =>
    if err.code.isNone then .ok none
    else do
      let msg ← netlinkErrorMessage err
      return some (.error (.new .netlinkError msg (some nlMsg)))
  | .ok ⟨_, .done done⟩ =>
    if done.code = 0 then .ok none
    else do
      let errno ← neg done.code
      return some (.error (.new .netlinkError
        s!"Netlink dump failed: {OsError.describe errno}" (some nlMsg)))
  | reply => .ok (NlWireguard.parseReply nlMsg reply)

def parseNlMsgStream (nlMsg : NetlinkMessage) (stream : List Reply) : Except Trap (List Item) :=
  stream.filterMapM (parseReply nlMsg)

/-- All items of a stream, and what its messages say about the device. -/
def processReplies (nlMsg : NetlinkMessage) (stream : List Reply) :
    Except Trap (List Item × WireguardParsed) := do
  let items ← parseNlMsgStream nlMsg stream
  let parsed ← ofMessages (items.filterMap (·.toOption))
  return (items, parsed)

omit [Base64.Engine] in
theorem parseReply_ok (nlMsg : NetlinkMessage) (reply : Reply) (item : Option Item) :
    parseReply nlMsg reply = .ok item ↔
      reply.code? ≠ some Int32.minValue ∧ item = NlWireguard.parseReply nlMsg reply := by
  match reply with
  | .ok ⟨_, .error ⟨none, _⟩⟩ => simp [parseReply, Reply.code?, NlWireguard.parseReply, eq_comm]
  | .ok ⟨_, .error ⟨some code, _⟩⟩ =>
    by_cases hmin : code.code = Int32.minValue
    · simp [parseReply, netlinkErrorMessage, hmin, neg_minValue, Reply.code?]
    · simp [parseReply, netlinkErrorMessage, neg_eq hmin, Reply.code?, NlWireguard.parseReply,
        NlWireguard.netlinkErrorMessage, hmin, pure, Except.pure, eq_comm]
  | .ok ⟨_, .done done⟩ =>
    by_cases hzero : done.code = 0
    · have hne : (0 : Int32) ≠ Int32.minValue := by decide
      simp [parseReply, hzero, Reply.code?, NlWireguard.parseReply, hne, eq_comm]
    by_cases hmin : done.code = Int32.minValue
    · have hne : Int32.minValue ≠ 0 := by decide
      simp [parseReply, hmin, hne, neg_minValue, Reply.code?]
    · simp [parseReply, hzero, neg_eq hmin, Reply.code?, NlWireguard.parseReply, hmin, pure,
        Except.pure, eq_comm]
  | .ok ⟨_, .innerMessage _⟩ => simp [parseReply, Reply.code?, eq_comm]
  | .ok ⟨_, .noop⟩ => simp [parseReply, Reply.code?, eq_comm]
  | .ok ⟨_, .overrun _⟩ => simp [parseReply, Reply.code?, eq_comm]
  | .error _ => simp [parseReply, Reply.code?, eq_comm]

omit [Base64.Engine] in
theorem parseNlMsgStream_ok : parseNlMsgStream nlMsg replies = .ok items ↔
    (∀ reply ∈ replies, Reply.code? reply ≠ some Int32.minValue) ∧
      items = NlWireguard.parseNlMsgStream nlMsg replies :=
  filterMapM_ok (parseReply_ok nlMsg)

/-- Processing replies is processing them without the checks, unless one of
them comes with the least code. -/
theorem processReplies_ok {replies : List Reply} {items : List Item} {parsed : WireguardParsed} :
    processReplies nlMsg replies = .ok (items, parsed) ↔
      (∀ reply ∈ replies, reply.code? ≠ some Int32.minValue) ∧
        items = NlWireguard.parseNlMsgStream nlMsg replies ∧
        parsed = .ofMessages (items.filterMap (·.toOption)) := by
  simp only [processReplies, bind_ok, parseNlMsgStream_ok, ofMessages_eq, pure_ok]
  constructor
  · rintro ⟨_, ⟨hcodes, rfl⟩, _, hparsed, hresult⟩
    cases hparsed
    cases hresult
    exact ⟨hcodes, rfl, rfl⟩
  · rintro ⟨hcodes, rfl, rfl⟩
    exact ⟨_, ⟨hcodes, rfl⟩, _, rfl, rfl⟩

end Exact

variable [Base64.Engine] [OsError]

/-- All replies to a request are processed without an overflow, a cast which
changes a number, or a panic. -/
def NeverTraps (nlMsg : NetlinkMessage) (replies : List Reply) : Prop :=
  ∃ result, Exact.processReplies nlMsg replies = .ok result

theorem neverTraps_iff (nlMsg : NetlinkMessage) (replies : List Reply) :
    NeverTraps nlMsg replies ↔ ∀ reply ∈ replies, reply.code? ≠ some Int32.minValue := by
  constructor
  · rintro ⟨⟨items, parsed⟩, h⟩
    exact (Exact.processReplies_ok.mp h).1
  · intro h
    exact ⟨_, Exact.processReplies_ok.mpr ⟨h, rfl, rfl⟩⟩

def leastError : Reply := .ok ⟨{}, .error ⟨some ⟨Int32.minValue, by decide⟩, []⟩⟩

omit [Base64.Engine] [OsError] in
theorem not_neverTraps :
    ¬@NeverTraps Base64.standard OsError.linux (dumpRequest "wg0") [leastError] := fun h =>
  (@neverTraps_iff Base64.standard OsError.linux _ _).mp h leastError (by simp) rfl

end NlWireguard
