import NlWireguard.Again
import NlWireguard.Drive
import NlWireguard.Replies

/-!
# A link to a kernel

What `set` does when the other end of the link is a kernel: a request which was
acknowledged was applied, any other one may have been applied in part. `set`
reports success if no reply fails, and does not look for acknowledgements. The
state of the kernel is what it was sent so far, so its device is a function of
the requests.
-/

namespace NlWireguard

open ExceptLaws

variable {K : Kernel} {m : WireguardMessage} {ms : List WireguardMessage}

-- ---------------------------------------------------------------------------
-- Links
-- ---------------------------------------------------------------------------

def setRequest (m : WireguardMessage) : NetlinkMessage := requestMessage (nlmFRequest ||| nlmFAck) m

def SetRun.requests (run : SetRun) : List NetlinkMessage := run.sent.map setRequest

/-- The link as it is behind these requests. -/
def Link.after (link : Link) (before : List NetlinkMessage) : Link := fun sent request =>
  link (before ++ sent) request

/-- The replies to the request hold an acknowledgement. -/
def Link.Acknowledges (link : Link) (sent : List NetlinkMessage) (request : NetlinkMessage) : Prop :=
  ∃ replies, link sent request = .ok replies ∧ ∃ reply ∈ replies, Reply.Acks reply

/-- The messages are sent behind the ones before, and all of them are acknowledged. -/
def Link.AcknowledgesAll (link : Link) (before ms : List WireguardMessage) : Prop :=
  ∀ more m after, ms = more ++ m :: after →
    link.Acknowledges ((before ++ more).map setRequest) (setRequest m)

/-- All requests of the run are acknowledged. -/
def SetRun.Acknowledged (run : SetRun) (link : Link) : Prop := link.AcknowledgesAll [] run.sent

/-- The other end of the link is a kernel with a device. -/
structure Link.Serves (link : Link) (K : Kernel) (device : List NetlinkMessage → Device) : Prop where
  /-- Every request to configure the device is applied, or given up. -/
  part : ∀ sent m, m.cmd = .setDevice →
    K.AppliesPart (device sent) m (device (sent ++ [setRequest m]))
  /-- What is acknowledged, and does not fail, was applied. -/
  whole : ∀ sent m replies, m.cmd = .setDevice → link sent (setRequest m) = .ok replies →
    (∃ reply ∈ replies, Reply.Acks reply) → (∀ reply ∈ replies, ¬Reply.Fails reply) →
    device (sent ++ [setRequest m]) = K.setDevice (device sent) m

variable {link : Link} {device : List NetlinkMessage → Device}

theorem Link.Serves.after (h : link.Serves K device) (before : List NetlinkMessage) :
    (link.after before).Serves K fun sent => device (before ++ sent) where
  part sent m hm := by
    rw [← List.append_assoc]
    exact h.part (before ++ sent) m hm
  whole sent m replies hm hreplies hacks hkept := by
    rw [← List.append_assoc]
    exact h.whole (before ++ sent) m replies hm hreplies hacks hkept

variable [OsError]

theorem parseNlMsgStream_noError :
    (∀ e, .error e ∉ parseNlMsgStream nlMsg replies) ↔ ∀ reply ∈ replies, ¬Reply.Fails reply := by
  constructor
  · intro h reply hreply hfails
    rcases parseReply_cases nlMsg reply with ⟨_, -, hkept, -⟩ | ⟨-, -, _, _, -, hitem⟩ | ⟨-, hkept, -⟩
    · exact hkept hfails
    · exact h _ (List.mem_filterMap.mpr ⟨reply, hreply, hitem⟩)
    · exact hkept hfails
  · intro h e he
    obtain ⟨reply, hreply, hitem⟩ := List.mem_filterMap.mp he
    rcases parseReply_cases nlMsg reply with ⟨_, -, -, -, hm⟩ | ⟨-, hfails, -⟩ | ⟨-, -, -, hnone⟩
    · exact nomatch hm.symm.trans hitem
    · exact h reply hreply hfails
    · exact nomatch hnone.symm.trans hitem

theorem request_replies {sent : List NetlinkMessage}
    (h : link sent (requestMessage flags m) = .ok replies) :
    request link sent flags m = .ok (parseNlMsgStream (requestMessage flags m) replies) := by
  simp only [request, h]

theorem request_fails {sent : List NetlinkMessage}
    (h : link sent (requestMessage flags m) = .error e) :
    request link sent flags m = .error (requestFailure (requestMessage flags m) e) := by
  simp only [request, h]

theorem requester_ok {before : List WireguardMessage} :
    link.requester before m = .ok items ↔ ∃ replies,
      link (before.map setRequest) (setRequest m) = .ok replies ∧
        items = parseNlMsgStream (setRequest m) replies := by
  cases hlink : link (before.map setRequest) (setRequest m) with
  | ok stream =>
    have hrequest : link.requester before m = .ok (parseNlMsgStream (setRequest m) stream) :=
      request_replies hlink
    simp [hrequest, eq_comm]
  | error e =>
    have hrequest : link.requester before m = .error (requestFailure (setRequest m) e) :=
      request_fails hlink
    simp [hrequest]

/-- A request succeeds if it can be sent and has no failing reply. -/
theorem succeeds_link {before : List WireguardMessage} :
    Succeeds link.requester before m ↔ ∃ replies,
      link (before.map setRequest) (setRequest m) = .ok replies ∧
        ∀ reply ∈ replies, ¬Reply.Fails reply := by
  constructor
  · rintro ⟨items, hitems, hnone⟩
    obtain ⟨replies, hreplies, rfl⟩ := requester_ok.mp hitems
    exact ⟨replies, hreplies, parseNlMsgStream_noError.mp hnone⟩
  · rintro ⟨replies, hreplies, hkept⟩
    exact ⟨_, requester_ok.mpr ⟨replies, hreplies, rfl⟩, parseNlMsgStream_noError.mpr hkept⟩

-- ---------------------------------------------------------------------------
-- One call
-- ---------------------------------------------------------------------------

omit [OsError] in
theorem AllSucceed.tail {request : Requester} (h : AllSucceed request before (m :: ms)) :
    Succeeds request before m ∧ AllSucceed request (before ++ [m]) ms := by
  refine ⟨by simpa using h [] m ms rfl, fun more other after heq => ?_⟩
  simpa using h (m :: more) other after (congrArg (m :: ·) heq)

omit [OsError] in
theorem Link.AcknowledgesAll.tail {before : List WireguardMessage}
    (h : link.AcknowledgesAll before (m :: ms)) :
    link.Acknowledges (before.map setRequest) (setRequest m) ∧
      link.AcknowledgesAll (before ++ [m]) ms := by
  refine ⟨by simpa using h [] m ms rfl, fun more other after heq => ?_⟩
  simpa using h (m :: more) other after (congrArg (m :: ·) heq)

omit [OsError] in
theorem parts_of_serves (hserves : link.Serves K device) (before : List WireguardMessage)
    (hcmd : ∀ m ∈ ms, m.cmd = .setDevice) :
    K.AppliesParts ms (device (before.map setRequest)) (device ((before ++ ms).map setRequest)) := by
  induction ms generalizing before with
  | nil =>
    rw [List.append_nil]
    exact .nil
  | cons m ms ih =>
    obtain ⟨hm, hms⟩ := List.forall_mem_cons.mp hcmd
    have hrest := ih (before ++ [m]) hms
    rw [List.append_assoc, List.singleton_append] at hrest
    refine .cons (hserves.part (before.map setRequest) m hm) ?_
    simpa using hrest

theorem device_of_allSucceed (hserves : link.Serves K device) (before : List WireguardMessage)
    (hall : AllSucceed link.requester before ms) (hacks : link.AcknowledgesAll before ms)
    (hcmd : ∀ m ∈ ms, m.cmd = .setDevice) :
    device ((before ++ ms).map setRequest) = ms.foldl K.setDevice (device (before.map setRequest)) := by
  induction ms generalizing before with
  | nil => rw [List.append_nil, List.foldl_nil]
  | cons m ms ih =>
    obtain ⟨hfirst, hrest⟩ := hall.tail
    obtain ⟨⟨stream, hstream, hack⟩, hacks⟩ := hacks.tail
    obtain ⟨hm, hms⟩ := List.forall_mem_cons.mp hcmd
    obtain ⟨replies, hreplies, hkept⟩ := succeeds_link.mp hfirst
    obtain rfl := Except.ok.inj (hstream.symm.trans hreplies)
    have hstep := hserves.whole _ m stream hm hreplies hack hkept
    rw [List.foldl_cons, ← hstep, ← List.singleton_append, ← List.append_assoc, ih _ hrest hacks hms]
    simp

variable [Base64.Engine] {c : WireguardParsed}

omit [OsError] in
theorem cmd_of_buildMessages (h : c.buildMessages cmd = .ok ms) : ∀ m ∈ ms, m.cmd = cmd := by
  obtain ⟨plan, rfl⟩ := WireguardParsed.buildMessages_plan.mp h
  exact fun m hm => (plan.mem_messages (D := Device.sample) hm).1

/-- A call of `set` is an attempt to apply its messages. One that reports success
has applied them all if they were acknowledged. -/
theorem set_served (hserves : link.Serves K device) (h : c.buildMessages .setDevice = .ok ms) :
    K.Attempts ms (device []) (device (set link c).requests) ∧
      ((set link c).result = .ok () → (set link c).Acknowledged link →
        device (set link c).requests = ms.foldl K.setDevice (device [])) := by
  have hcmd := cmd_of_buildMessages h
  have hrun : set link c = setLoop link.requester ms.length 0 [] ms := by
    rw [set, setWith, h]
  rw [hrun]
  rcases setLoop_cases link.requester ms.length 0 [] ms with
    ⟨hall, hend⟩ | ⟨before, m, after, e, error, rfl, -, -, -, -, hend⟩
  · rw [hend]
    exact ⟨⟨ms, List.prefix_refl ms, parts_of_serves hserves [] hcmd⟩,
      fun _ hacks => device_of_allSucceed hserves [] hall hacks hcmd⟩
  · have hsent : before ++ [m] <+: before ++ m :: after := ⟨after, by simp⟩
    rw [hend]
    exact ⟨⟨_, hsent, parts_of_serves hserves [] fun m' hm' => hcmd m' (hsent.subset hm')⟩,
      fun hok => nomatch hok⟩

-- ---------------------------------------------------------------------------
-- Calls until one succeeds
-- ---------------------------------------------------------------------------

/-- The requests of calls of `set` with one configuration: any number, whatever
they report, and one which reports success and was acknowledged. -/
inductive Retried (c : WireguardParsed) : Link → List NetlinkMessage → Prop
  | done {link : Link} (h : (set link c).result = .ok ()) (hacks : (set link c).Acknowledged link) :
      Retried c link (set link c).requests
  | again {link : Link} {more : List NetlinkMessage}
      (hmore : Retried c (link.after (set link c).requests) more) :
      Retried c link ((set link c).requests ++ more)

theorem set_rejected (h : c.buildMessages .setDevice = .error e) (link : Link) :
    set link c = ⟨[], .error e⟩ := by
  rw [set, setWith, h]

theorem retried_device (hserves : link.Serves K device) (howned : (device []).Owned)
    (hrepeat : c.Repeatable) (h : Retried c link requests) (hms : c.buildMessages .setDevice = .ok ms) :
    device requests = ms.foldl K.setDevice (device []) := by
  induction h generalizing device with
  | done hok hacks => exact (set_served hserves hms).2 hok hacks
  | @again link more _ ih =>
    obtain ⟨plan, rfl⟩ := WireguardParsed.buildMessages_plan.mp hms
    have hattempt : K.Attempts (plan.messages .setDevice) (device []) (device (set link c).requests) :=
      (set_served hserves hms).1
    have hmore := ih (hserves.after (set link c).requests)
      (by simpa using hattempt.owned howned)
    rw [hmore, List.append_nil, plan.again hrepeat howned hattempt]

theorem Retried.built (h : Retried c link requests) : ∃ ms, c.buildMessages .setDevice = .ok ms := by
  induction h with
  | @done link hok _ =>
    cases hms : c.buildMessages .setDevice with
    | ok ms => exact ⟨ms, rfl⟩
    | error e =>
      rw [set_rejected hms] at hok
      exact absurd hok.symm ExceptLaws.ok_ne_error
  | again _ ih => exact ih

/-- However many calls it takes until one succeeds, and whatever the others left
behind, the device is the one of a single undisturbed call. -/
theorem set_converges (hserves : link.Serves K device) (howned : (device []).Owned)
    (hrepeat : c.Repeatable) (h : Retried c link requests) :
    ∃ ms, c.buildMessages .setDevice = .ok ms ∧
      device requests = ms.foldl K.setDevice (device []) := by
  obtain ⟨ms, hms⟩ := h.built
  exact ⟨ms, hms, retried_device hserves howned hrepeat h hms⟩

-- ---------------------------------------------------------------------------
-- A busy link
-- ---------------------------------------------------------------------------

def Kernel.receive (K : Kernel) (D : Device) (request : NetlinkMessage) : Device :=
  match request.payload with
  | .innerMessage genlMsg => K.setDevice D genlMsg.payload
  | _ => D

def acknowledgement : Reply := .ok ⟨{}, .error ⟨none, []⟩⟩

/-- The first request can not be sent, the others are acknowledged. -/
def busyLink : Link
  | [], _ => .error "No buffer space available (os error 105)"
  | _ :: _, _ => .ok [acknowledgement]

def busyDevice (K : Kernel) (D : Device) (sent : List NetlinkMessage) : Device :=
  (sent.drop 1).foldl K.receive D

omit [OsError] [Base64.Engine] in
theorem busyLink_serves (K : Kernel) (D : Device) : busyLink.Serves K (busyDevice K D) where
  part sent m _ := by
    cases sent with
    | nil => exact ⟨[], List.nil_prefix, rfl⟩
    | cons first sent =>
      refine ⟨_, List.prefix_refl _, ?_⟩
      rw [← setDevice_changes]
      exact List.foldl_append
  whole sent m replies _ hreplies _ _ := by
    cases sent with
    | nil => exact nomatch hreplies
    | cons first sent => exact List.foldl_append

theorem set_busy (hms : c.buildMessages .setDevice = .ok (m :: ms)) : set busyLink c =
    ⟨[m], .error (requestFailure (setRequest m) "No buffer space available (os error 105)")⟩ := by
  rw [set, setWith, hms]
  rfl

/-- A link which acknowledges everything. -/
theorem set_acknowledged (hlink : ∀ sent, ∀ m ∈ ms, link sent (setRequest m) = .ok [acknowledgement])
    (hms : c.buildMessages .setDevice = .ok ms) :
    set link c = ⟨ms, .ok ()⟩ ∧ (set link c).Acknowledged link := by
  have hkept : ∀ reply ∈ [acknowledgement], ¬Reply.Fails reply := by
    simp [acknowledgement, Reply.Fails]
  have hrun : set link c = ⟨ms, .ok ()⟩ := by
    rw [set, setWith, hms]
    rcases setLoop_cases link.requester ms.length 0 [] ms with
      ⟨-, h⟩ | ⟨before, m, after, e, _, heq, -, hfails, -⟩
    · exact h
    · have hm : m ∈ ms := heq ▸ List.mem_append_right _ List.mem_cons_self
      exact absurd (succeeds_link.mpr ⟨_, hlink _ m hm, hkept⟩) hfails.not_succeeds
  refine ⟨hrun, fun more m after heq =>
    ⟨_, hlink _ m ?_, acknowledgement, List.mem_singleton_self _, rfl⟩⟩
  rw [hrun] at heq
  exact (show ms = _ from heq) ▸ List.mem_append_right _ List.mem_cons_self

/-- A call whose first request can not be sent, and one which succeeds. -/
theorem retried_busy (hms : c.buildMessages .setDevice = .ok ms) :
    Retried c busyLink ((ms.take 1 ++ ms).map setRequest) := by
  obtain ⟨m, ms, rfl⟩ := List.exists_cons_of_ne_nil (WireguardParsed.messages_ne_nil hms)
  have hbusy : set busyLink c = _ := set_busy hms
  obtain ⟨hrun, hacks⟩ := @set_acknowledged (m :: ms) (busyLink.after [setRequest m]) _ _ c
    (fun _ _ _ => rfl) hms
  have hdone : Retried c (busyLink.after [setRequest m]) _ := .done (by rw [hrun]) hacks
  rw [hrun] at hdone
  have hretried := @Retried.again _ _ c busyLink ((m :: ms).map setRequest) (hbusy ▸ hdone)
  rwa [hbusy] at hretried

omit [OsError] [Base64.Engine] in
theorem set_converges_sample :
    let sent := @WireguardParsed.Plan.messages Base64.standard _
      (@WireguardParsed.largePlan Base64.standard [] 3000) .setDevice
    ∃ ms, @WireguardParsed.buildMessages Base64.standard
        (@WireguardParsed.largeConfig Base64.standard [] 3000) .setDevice = .ok ms ∧
      busyDevice .sample WireguardParsed.sampleDevice ((sent.take 1 ++ sent).map setRequest) =
        ms.foldl Kernel.sample.setDevice WireguardParsed.sampleDevice :=
  letI := Base64.standard
  letI := OsError.linux
  set_converges (busyLink_serves .sample WireguardParsed.sampleDevice) sound_sample.owned
    (.inr fun _ hp => List.mem_singleton.mp hp ▸ WireguardPeerParsed.not_updatesOnly_large 3000)
    (retried_busy (WireguardParsed.built_large [] 3000 .setDevice))

end NlWireguard
