import NlWireguard.Handle

/-!
# Applying a configuration message by message

`setWith` sends the messages of a configuration one after the other and stops
at the first failure, whatever the other end answers and however this depends
on what it was sent before.
-/

namespace NlWireguard

-- ---------------------------------------------------------------------------
-- One request
-- ---------------------------------------------------------------------------

/-- The request is sent, and no item of its stream is an error. -/
def Succeeds (request : Requester) (sent : List WireguardMessage) (msg : WireguardMessage) : Prop :=
  ∃ stream, request sent msg = .ok stream ∧ ∀ e, .error e ∉ stream

/-- The request can not be sent, or `e` is the first error of its stream. -/
inductive FailsWith (request : Requester) (sent : List WireguardMessage) (msg : WireguardMessage) :
    WireguardError → Prop
  | send (h : request sent msg = .error e) : FailsWith request sent msg e
  | item {before after : List Item} (h : request sent msg = .ok (before ++ .error e :: after))
      (hbefore : ∀ e', .error e' ∉ before) : FailsWith request sent msg e

variable {request : Requester}

theorem FailsWith.not_succeeds (h : FailsWith request sent msg e) : ¬Succeeds request sent msg := by
  rintro ⟨stream, hstream, hall⟩
  cases h with
  | send h => exact nomatch hstream.symm.trans h
  | item h hbefore =>
    cases hstream.symm.trans h
    exact hall e (by simp)

def AllSucceed (request : Requester) (sent messages : List WireguardMessage) : Prop :=
  ∀ before msg after, messages = before ++ msg :: after → Succeeds request (sent ++ before) msg

theorem allSucceed_nil (request : Requester) (sent : List WireguardMessage) :
    AllSucceed request sent [] :=
  fun _ _ _ h => nomatch (List.append_eq_nil_iff.mp h.symm).2

theorem allSucceed_cons (h : Succeeds request sent msg)
    (hrest : AllSucceed request (sent ++ [msg]) messages) :
    AllSucceed request sent (msg :: messages) := by
  intro before other after heq
  cases before with
  | nil =>
    cases heq
    simpa using h
  | cons first before =>
    obtain ⟨rfl, rfl⟩ := List.cons.inj heq
    simpa using hrest before other after rfl

-- ---------------------------------------------------------------------------
-- All requests
-- ---------------------------------------------------------------------------

theorem findSome?_itemError_none {stream : List Item} :
    stream.findSome? itemError = none ↔ ∀ e, .error e ∉ stream := by
  rw [List.findSome?_eq_none_iff]
  constructor
  · intro h e he
    exact nomatch h _ he
  · intro h item hitem
    cases item with
    | ok m => rfl
    | error e => exact absurd hitem (h e)

theorem setLoop_cons (request : Requester) (total index : Nat) (sent messages : List WireguardMessage)
    (msg : WireguardMessage) :
    (∃ e error, FailsWith request sent msg e ∧ error.kind = e.kind ∧ error.netlinkMsg = e.netlinkMsg ∧
      setLoop request total index sent (msg :: messages) = ⟨sent ++ [msg], .error error⟩) ∨
    (Succeeds request sent msg ∧
      setLoop request total index sent (msg :: messages) =
        setLoop request total (index + 1) (sent ++ [msg]) messages) := by
  cases hsend : request sent msg with
  | error e => exact .inl ⟨e, e, .send hsend, rfl, rfl, by rw [setLoop, hsend]⟩
  | ok stream =>
    cases hfirst : stream.findSome? itemError with
    | none =>
      exact .inr ⟨⟨stream, hsend, findSome?_itemError_none.mp hfirst⟩,
        by simp only [setLoop, hsend, hfirst]⟩
    | some e =>
      obtain ⟨before, item, after, rfl, hitem, hbefore⟩ := List.findSome?_eq_some_iff.mp hfirst
      have hitem : item = .error e := by
        cases item with
        | ok m => exact nomatch hitem
        | error e' => exact congrArg Except.error (Option.some.inj hitem)
      subst hitem
      refine .inl ⟨e, partError index total e,
        .item hsend (findSome?_itemError_none.mp (List.findSome?_eq_none_iff.mpr hbefore)), rfl,
        e.redacted, ?_⟩
      simp only [setLoop, hsend, hfirst]

/-- The loop sends everything, or it stops behind the first failure. -/
theorem setLoop_cases (request : Requester) (total index : Nat)
    (sent messages : List WireguardMessage) :
    (AllSucceed request sent messages ∧
      setLoop request total index sent messages = ⟨sent ++ messages, .ok ()⟩) ∨
    ∃ before msg after e error, messages = before ++ msg :: after ∧ AllSucceed request sent before ∧
      FailsWith request (sent ++ before) msg e ∧ error.kind = e.kind ∧
      error.netlinkMsg = e.netlinkMsg ∧
      setLoop request total index sent messages = ⟨sent ++ before ++ [msg], .error error⟩ := by
  induction messages generalizing index sent with
  | nil => exact .inl ⟨allSucceed_nil request sent, by simp [setLoop]⟩
  | cons msg messages ih =>
    rcases setLoop_cons request total index sent messages msg with
      ⟨e, error, hfails, hkind, hmsg, h⟩ | ⟨hsucceeds, h⟩
    · exact .inr ⟨[], msg, messages, e, error, rfl, allSucceed_nil request sent, by simpa using hfails,
        hkind, hmsg, by simpa using h⟩
    · rcases ih (index + 1) (sent ++ [msg]) with
        ⟨hall, hrun⟩ | ⟨before, other, after, e, error, rfl, hall, hfails, hkind, hmsg, hrun⟩
      · exact .inl ⟨allSucceed_cons hsucceeds hall, by simpa [h] using hrun⟩
      · exact .inr ⟨msg :: before, other, after, e, error, rfl, allSucceed_cons hsucceeds hall,
          by simpa using hfails, hkind, hmsg, by simpa [h] using hrun⟩

variable [Base64.Engine]

structure Drives (request : Requester) (messages : List WireguardMessage) (run : SetRun) : Prop where
  /-- In order, and each one once. -/
  sent : run.sent <+: messages
  ok : run.result = .ok () ↔ run.sent = messages ∧ AllSucceed request [] messages
  error : ∀ error, run.result = .error error → ∃ before msg e, run.sent = before ++ [msg] ∧
    AllSucceed request [] before ∧ FailsWith request before msg e ∧ error.kind = e.kind ∧
    error.netlinkMsg = e.netlinkMsg

/-- A configuration is sent in order up to the first failure, which is
reported; nothing is sent if it can not be built. -/
theorem setWith_drives (request : Requester) (parsed : WireguardParsed) :
    match parsed.buildMessages .setDevice with
    | .error e => setWith request parsed = ⟨[], .error e⟩
    | .ok messages => Drives request messages (setWith request parsed) := by
  unfold setWith
  cases parsed.buildMessages .setDevice with
  | error e => rfl
  | ok messages =>
    rcases setLoop_cases request messages.length 0 [] messages with
      ⟨hall, h⟩ | ⟨before, msg, after, e, error, rfl, hall, hfails, hkind, hmsg, h⟩
    · simp only [h]
      exact
        { sent := List.prefix_refl _
          ok := ⟨fun _ => ⟨rfl, hall⟩, fun _ => rfl⟩
          error := fun _ h => nomatch h }
    · simp only [h]
      refine
        { sent := ⟨after, by simp⟩
          ok := ⟨fun h => (nomatch h), fun ⟨_, hsucceed⟩ => ?_⟩
          error := fun error' h => ?_ }
      · exact absurd (hsucceed before msg after rfl) hfails.not_succeeds
      · cases h
        exact ⟨before, msg, e, rfl, hall, hfails, hkind, hmsg⟩

end NlWireguard
