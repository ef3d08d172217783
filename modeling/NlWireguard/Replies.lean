import NlWireguard.Handle
import NlWireguard.ParsedLaws

/-!
# Replies to a dump

`getByName` succeeds on every list of replies which holds a message and no
failure. It does not look for the end of the dump, so a dump which breaks off
after a message is taken for a whole one.
-/

namespace NlWireguard

open ExceptLaws

-- ---------------------------------------------------------------------------
-- What a reply is
-- ---------------------------------------------------------------------------

namespace Reply

def IsDone : Reply → Prop
  | .ok ⟨_, .done done⟩ => done.code = 0
  | _ => False

/-- An acknowledgement: the request was carried out. -/
def Acks : Reply → Prop
  | .ok ⟨_, .error err⟩ => err.code = none
  | _ => False

def Fails : Reply → Prop
  | .ok ⟨_, .error err⟩ => err.code.isSome
  | .ok ⟨_, .done done⟩ => done.code ≠ 0
  | .ok ⟨_, .overrun _⟩ => True
  | .ok _ => False
  | .error _ => True

def failKind? : Reply → Option ErrorKind
  | .ok ⟨_, .error err⟩ => if err.code.isSome then some .netlinkError else none
  | .ok ⟨_, .done done⟩ => if done.code ≠ 0 then some .netlinkError else none
  | .ok ⟨_, .overrun _⟩ => some .bug
  | .ok _ => none
  | .error _ => some .decodeError

def inner? : Reply → Option WireguardMessage
  | .ok ⟨_, .innerMessage genlMsg⟩ => some genlMsg.payload
  | _ => none

end Reply

theorem Reply.failKind?_eq_none (reply : Reply) : reply.failKind? = none ↔ ¬reply.Fails := by
  match reply with
  | .ok ⟨_, .innerMessage _⟩ => exact iff_of_true rfl id
  | .ok ⟨_, .error err⟩ => cases hcode : err.code <;> simp [failKind?, Fails, hcode]
  | .ok ⟨_, .done done⟩ => by_cases hcode : done.code = 0 <;> simp [failKind?, Fails, hcode]
  | .ok ⟨_, .noop⟩ => exact iff_of_true rfl id
  | .ok ⟨_, .overrun _⟩ => exact iff_of_false (fun h => nomatch h) (not_not_intro trivial)
  | .error _ => exact iff_of_false (fun h => nomatch h) (not_not_intro trivial)

variable [OsError]

/-- A reply is a message, a failure which attaches the request, or nothing at
all. -/
theorem parseReply_cases (nlMsg : NetlinkMessage) (reply : Reply) :
    (∃ m, reply.inner? = some m ∧ ¬reply.Fails ∧ reply.failKind? = none ∧
      parseReply nlMsg reply = some (.ok m)) ∨
    (reply.inner? = none ∧ reply.Fails ∧ ∃ kind msg, reply.failKind? = some kind ∧
      parseReply nlMsg reply = some (.error (.new kind msg (some nlMsg)))) ∨
    (reply.inner? = none ∧ ¬reply.Fails ∧ reply.failKind? = none ∧
      parseReply nlMsg reply = none) := by
  match reply with
  | .ok ⟨_, .innerMessage genlMsg⟩ => exact .inl ⟨_, rfl, id, rfl, rfl⟩
  | .ok ⟨_, .error err⟩ =>
    cases hcode : err.code with
    | none =>
      exact .inr (.inr ⟨rfl, by simp [Reply.Fails, hcode], by simp [Reply.failKind?, hcode],
        by simp [parseReply, hcode]⟩)
    | some code =>
      exact .inr (.inl ⟨rfl, by simp [Reply.Fails, hcode], .netlinkError, _,
        by simp [Reply.failKind?, hcode], by simp [parseReply, hcode]; rfl⟩)
  | .ok ⟨_, .done done⟩ =>
    by_cases hcode : done.code = 0
    · exact .inr (.inr ⟨rfl, not_not_intro hcode, if_neg (not_not_intro hcode), if_pos hcode⟩)
    · exact .inr (.inl ⟨rfl, hcode, _, _, if_pos hcode, if_neg hcode⟩)
  | .ok ⟨_, .noop⟩ => exact .inr (.inr ⟨rfl, id, rfl, rfl⟩)
  | .ok ⟨_, .overrun _⟩ => exact .inr (.inl ⟨rfl, trivial, _, _, rfl, rfl⟩)
  | .error _ => exact .inr (.inl ⟨rfl, trivial, _, _, rfl, rfl⟩)

theorem parseNlMsgStream_ok : parseNlMsgStream nlMsg replies = msgs.map .ok ↔
    (∀ reply ∈ replies, ¬Reply.Fails reply) ∧ msgs = replies.filterMap Reply.inner? := by
  induction replies generalizing msgs with
  | nil => simp [parseNlMsgStream, eq_comm]
  | cons reply replies ih =>
    unfold parseNlMsgStream at ih ⊢
    rw [List.forall_mem_cons]
    rcases parseReply_cases nlMsg reply with ⟨m, hinner, hkept, -, h⟩ |
      ⟨hinner, hfails, _, _, -, h⟩ | ⟨hinner, hkept, -, h⟩
    · rw [List.filterMap_cons_some h, List.filterMap_cons_some hinner]
      cases msgs with
      | nil => simp
      | cons msg msgs =>
        simp only [List.map_cons, List.cons.injEq, Except.ok.injEq, ih, hkept, not_false_eq_true,
          true_and, eq_comm (b := m)]
        exact and_left_comm
    · rw [List.filterMap_cons_some h]
      cases msgs <;> simp [hfails]
    · rw [List.filterMap_cons_none h, List.filterMap_cons_none hinner, ih]
      simp only [hkept, not_false_eq_true, true_and]

theorem drain_failing (nlMsg : NetlinkMessage) (taken : List WireguardMessage)
    (h : replies.findSome? Reply.failKind? = some kind) :
    ∃ e, drain taken (parseNlMsgStream nlMsg replies) = .error e ∧ e.kind = kind := by
  unfold parseNlMsgStream
  induction replies generalizing taken with
  | nil => exact nomatch h
  | cons reply replies ih =>
    rcases parseReply_cases nlMsg reply with ⟨m, -, -, hkind, hitem⟩ |
      ⟨-, -, _, _, hkind, hitem⟩ | ⟨-, -, hkind, hitem⟩
    · rw [List.findSome?_cons_of_isNone (by simp [hkind])] at h
      rw [List.filterMap_cons_some hitem]
      exact ih (taken ++ [m]) h
    · rw [List.findSome?_cons_of_isSome (by simp [hkind]), hkind] at h
      rw [List.filterMap_cons_some hitem]
      exact ⟨_, rfl, Option.some.inj h⟩
    · rw [List.findSome?_cons_of_isNone (by simp [hkind])] at h
      rw [List.filterMap_cons_none hitem]
      exact ih taken h

-- ---------------------------------------------------------------------------
-- Dumping a device
-- ---------------------------------------------------------------------------

def NameRejected (ifaceName : String) : Prop :=
  ifnamsiz ≤ ifaceName.utf8ByteSize ∨ Char.ofNat 0 ∈ ifaceName.toList

def dumpMessage (ifaceName : String) : WireguardMessage := ⟨.getDevice, [.ifName ifaceName]⟩

def dumpRequest (ifaceName : String) : NetlinkMessage :=
  requestMessage (nlmFRequest ||| nlmFAck ||| nlmFDump) (dumpMessage ifaceName)

variable [Base64.Engine]

omit [OsError] in
theorem build_dump {ifaceName : String}
    (h : WireguardParsed.ifaceAttribute { ifaceName := some ifaceName } = .ok iface) :
    WireguardParsed.build { ifaceName := some ifaceName } .getDevice = .ok ⟨.getDevice, [iface]⟩ := by
  simp [WireguardParsed.build, WireguardParsed.buildMessages, WireguardParsed.flush,
    WireguardParsed.buildMessage, WireguardParsed.deviceAttributes, h, pure, Except.pure]

omit [OsError] in
theorem build_dump_ok : WireguardParsed.build { ifaceName := some ifaceName } .getDevice = .ok msg ↔
    ¬NameRejected ifaceName ∧ msg = dumpMessage ifaceName := by
  constructor
  · intro h
    obtain ⟨ms, hms, -⟩ := bind_ok.mp h
    obtain ⟨plan, -⟩ := WireguardParsed.buildMessages_plan.mp hms
    rw [build_dump plan.accepted.iface] at h
    rcases WireguardParsed.ifaceAttribute_cases plan.accepted.iface with
      ⟨name, hname, hiface, hlen, hnul⟩ | ⟨_, hname, -⟩
    · cases hname
      rw [hiface] at h
      exact ⟨not_or.mpr ⟨Nat.not_le.mpr hlen, hnul⟩, (Except.ok.inj h).symm⟩
    · exact nomatch hname
  · rintro ⟨hname, rfl⟩
    obtain ⟨hlen, hnul⟩ := not_or.mp hname
    exact build_dump (WireguardParsed.ifaceAttribute_name rfl (Nat.not_le.mp hlen) hnul)

omit [Base64.Engine] in
theorem request_dump_ok :
    request link [] (nlmFRequest ||| nlmFAck ||| nlmFDump) (dumpMessage ifaceName) = .ok items ↔
      ∃ replies, link [] (dumpRequest ifaceName) = .ok replies ∧
        items = parseNlMsgStream (dumpRequest ifaceName) replies := by
  unfold request
  rw [← dumpRequest]
  cases hlink : link [] (dumpRequest ifaceName) <;> simp [hlink, eq_comm]

/-- A dump is reported for every stream with a message and without failures. -/
theorem getByName_ok : getByName link ifaceName = .ok parsed ↔
    ¬NameRejected ifaceName ∧ ∃ replies, link [] (dumpRequest ifaceName) = .ok replies ∧
      (∀ reply ∈ replies, ¬Reply.Fails reply) ∧ replies.filterMap Reply.inner? ≠ [] ∧
      parsed = .ofMessages (replies.filterMap Reply.inner?) := by
  simp only [getByName, bind_ok, build_dump_ok, guard_ok, pure_ok]
  constructor
  · rintro ⟨msg, ⟨hname, rfl⟩, items, hitems, msgs, hdrain, hne, rfl⟩
    obtain ⟨replies, hlink, rfl⟩ := request_dump_ok.mp hitems
    obtain ⟨_, hall, rfl⟩ := drain_ok.mp hdrain
    obtain ⟨hkept, rfl⟩ := parseNlMsgStream_ok.mp hall
    exact ⟨hname, replies, hlink, hkept, hne, rfl⟩
  · rintro ⟨hname, replies, hlink, hkept, hne, rfl⟩
    exact ⟨_, ⟨hname, rfl⟩, _, request_dump_ok.mpr ⟨replies, hlink, rfl⟩, _,
      drain_ok.mpr ⟨_, parseNlMsgStream_ok.mpr ⟨hkept, rfl⟩, rfl⟩, hne, rfl⟩

/-- A dump whose request is sent is decided by its replies. -/
theorem getByName_eq (hname : ¬NameRejected ifaceName)
    (hlink : link [] (dumpRequest ifaceName) = .ok replies) :
    getByName link ifaceName = do
      let msgs ← drain [] (parseNlMsgStream (dumpRequest ifaceName) replies)
      if msgs = [] then
        throw (.new .bug "Got no reply from kernel for request"
          (some (.fromGenl (.fromPayload (dumpMessage ifaceName)))))
      return .ofMessages msgs := by
  rw [getByName, build_dump_ok.mpr ⟨hname, rfl⟩, ok_bind,
    request_dump_ok.mpr ⟨replies, hlink, rfl⟩, ok_bind]

/-- The result of a dump with these replies: the first failing reply, or all
messages in the order of their arrival. -/
structure Reports (replies : List Reply) (result : Except WireguardError WireguardParsed) : Prop where
  failing : ∀ kind, replies.findSome? Reply.failKind? = some kind →
    ∃ e, result = .error e ∧ e.kind = kind
  whole : replies.findSome? Reply.failKind? = none → (∃ reply ∈ replies, Reply.IsDone reply) →
    replies.filterMap Reply.inner? ≠ [] →
    result = .ok (.ofMessages (replies.filterMap Reply.inner?))
  empty : replies.findSome? Reply.failKind? = none → replies.filterMap Reply.inner? = [] →
    ∃ e, result = .error e ∧ e.kind = .bug

/-- The replies to a dump which is sent determine its result. -/
theorem getByName_reports (hname : ¬NameRejected ifaceName)
    (hlink : link [] (dumpRequest ifaceName) = .ok replies) :
    Reports replies (getByName link ifaceName) := by
  have hkept (hnone : replies.findSome? Reply.failKind? = none) :
      ∀ reply ∈ replies, ¬Reply.Fails reply := fun reply hreply =>
    reply.failKind?_eq_none.mp (List.findSome?_eq_none_iff.mp hnone reply hreply)
  refine ⟨fun kind hkind => ?_, fun hnone _ hne => ?_, fun hnone hnil => ?_⟩
  · obtain ⟨e, he, hkind⟩ := drain_failing (dumpRequest ifaceName) [] hkind
    exact ⟨e, by rw [getByName_eq hname hlink, he]; rfl, hkind⟩
  · exact getByName_ok.mpr ⟨hname, replies, hlink, hkept hnone, hne, rfl⟩
  · have hdrain : drain [] (parseNlMsgStream (dumpRequest ifaceName) replies) = .ok [] :=
      drain_ok.mpr ⟨[], parseNlMsgStream_ok.mpr ⟨hkept hnone, hnil.symm⟩, rfl⟩
    rw [getByName_eq hname hlink, hdrain]
    exact ⟨_, rfl, rfl⟩

/-- One message, the end of the dump, and an error behind it. -/
def refusedDump : List Reply :=
  [.ok ⟨{}, .innerMessage (.fromPayload ⟨.getDevice, [.ifName "wg0"]⟩)⟩, .ok ⟨{}, .done ⟨0, []⟩⟩,
    .ok ⟨{}, .error ⟨some ⟨-2, by decide⟩, []⟩⟩]

omit [OsError] [Base64.Engine] in
theorem getByName_reports_sample :
    @Reports Base64.standard refusedDump
      (@getByName Base64.standard OsError.linux (fun _ _ => .ok refusedDump) "wg0") :=
  @getByName_reports OsError.linux Base64.standard "wg0" _ _ (not_or.mpr ⟨by decide, by decide⟩) rfl

/-- What is reported is never the beginning of a dump which broke off. -/
def ReportsWhole (link : Link) (ifaceName : String) : Prop :=
  ∀ parsed, getByName link ifaceName = .ok parsed →
    ∃ replies, link [] (dumpRequest ifaceName) = .ok replies ∧ ∃ reply ∈ replies, Reply.IsDone reply

/-- Only a failure, or that there is no message at all, is noticed: not that
the end of the dump is missing. -/
theorem reportsWhole_iff (link : Link) (ifaceName : String) :
    ReportsWhole link ifaceName ↔
      NameRejected ifaceName ∨ ∀ replies, link [] (dumpRequest ifaceName) = .ok replies →
        (∃ reply ∈ replies, Reply.IsDone reply) ∨ (∃ reply ∈ replies, Reply.Fails reply) ∨
          ∀ reply ∈ replies, Reply.inner? reply = none := by
  constructor
  · intro h
    by_contra hnot
    push Not at hnot
    obtain ⟨hname, replies, hlink, hdone, hkept, hmessage⟩ := hnot
    have hne : replies.filterMap Reply.inner? ≠ [] := fun hnil =>
      let ⟨reply, hreply, hinner⟩ := hmessage
      hinner (List.filterMap_eq_nil_iff.mp hnil reply hreply)
    obtain ⟨replies', hlink', reply, hreply, hisdone⟩ :=
      h _ (getByName_ok.mpr ⟨hname, replies, hlink, hkept, hne, rfl⟩)
    cases hlink.symm.trans hlink'
    exact hdone reply hreply hisdone
  · rintro h parsed hok
    obtain ⟨hname, replies, hlink, hkept, hne, -⟩ := getByName_ok.mp hok
    rcases h.resolve_left hname replies hlink with hdone | ⟨reply, hreply, hfails⟩ | hnone
    · exact ⟨replies, hlink, hdone⟩
    · exact absurd hfails (hkept reply hreply)
    · exact absurd (List.filterMap_eq_nil_iff.mpr hnone) hne

/-- The connection is closed after the first message of a dump. -/
def closedLink : Link := fun _ _ =>
  .ok [.ok ⟨{}, .innerMessage (.fromPayload ⟨.getDevice, [.ifName "wg0", .peers []]⟩)⟩]

omit [OsError] [Base64.Engine] in
theorem not_reportsWhole : ¬@ReportsWhole OsError.linux Base64.standard closedLink "wg0" := by
  intro h
  have hname : ¬NameRejected "wg0" := not_or.mpr ⟨by decide, by decide⟩
  obtain ⟨replies, hlink, reply, hreply, hdone⟩ := h _ ((@getByName_ok OsError.linux Base64.standard
    closedLink "wg0" _).mpr ⟨hname, _, rfl, by simp [Reply.Fails], by simp [Reply.inner?], rfl⟩)
  cases hlink
  obtain rfl := List.mem_singleton.mp hreply
  exact hdone

end NlWireguard
