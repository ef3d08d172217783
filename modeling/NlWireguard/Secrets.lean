import NlWireguard.Lib.Folds
import NlWireguard.Replies

/-!
# Errors do not tell keys apart

Two exchanges which only differ in private and preshared keys, and in the raw
bytes the kernel echoes, fail with the same errors. An attached message is the
request with exactly these keys zeroed.
-/

namespace NlWireguard

-- ---------------------------------------------------------------------------
-- Equal up to keys
-- ---------------------------------------------------------------------------

inductive WireguardPeerAttribute.SameButKeys : WireguardPeerAttribute → WireguardPeerAttribute → Prop
  | presharedKey (a b : Key) : SameButKeys (.presharedKey a) (.presharedKey b)
  | refl (attr : WireguardPeerAttribute) : SameButKeys attr attr

def WireguardPeer.SameButKeys (p q : WireguardPeer) : Prop :=
  List.Forall₂ WireguardPeerAttribute.SameButKeys p.attributes q.attributes

inductive WireguardAttribute.SameButKeys : WireguardAttribute → WireguardAttribute → Prop
  | privateKey (a b : Key) : SameButKeys (.privateKey a) (.privateKey b)
  | peers (h : List.Forall₂ WireguardPeer.SameButKeys ps qs) : SameButKeys (.peers ps) (.peers qs)
  | refl (attr : WireguardAttribute) : SameButKeys attr attr

structure GenlMessage.SameButKeys (g g' : GenlMessage) : Prop where
  header : g.header = g'.header
  resolvedFamilyId : g.resolvedFamilyId = g'.resolvedFamilyId
  cmd : g.payload.cmd = g'.payload.cmd
  attributes : List.Forall₂ WireguardAttribute.SameButKeys g.payload.attributes g'.payload.attributes

/-- Raw bytes may be anything. -/
inductive NetlinkPayload.SameButKeys : NetlinkPayload → NetlinkPayload → Prop
  | innerMessage (h : g.SameButKeys g') : SameButKeys (.innerMessage g) (.innerMessage g')
  | error (code : Option NonZeroI32) (raw raw' : List UInt8) :
      SameButKeys (.error ⟨code, raw⟩) (.error ⟨code, raw'⟩)
  | overrun (raw raw' : List UInt8) : SameButKeys (.overrun raw) (.overrun raw')
  | refl (payload : NetlinkPayload) : SameButKeys payload payload

inductive Reply.SameButKeys : Reply → Reply → Prop
  | ok (header : NetlinkHeader) (h : p.SameButKeys q) : SameButKeys (.ok ⟨header, p⟩) (.ok ⟨header, q⟩)
  | error (e : ReplyDecodeError) : SameButKeys (.error e) (.error e)

-- ---------------------------------------------------------------------------
-- Keys zeroed
-- ---------------------------------------------------------------------------

inductive WireguardPeerAttribute.Zeroed : WireguardPeerAttribute → WireguardPeerAttribute → Prop
  | presharedKey (key : Key) : Zeroed (.presharedKey key) (.presharedKey .zero)
  | other (h : attr.presharedKey? = none) : Zeroed attr attr

def WireguardPeer.Zeroed (p q : WireguardPeer) : Prop :=
  List.Forall₂ WireguardPeerAttribute.Zeroed p.attributes q.attributes

inductive WireguardAttribute.Zeroed : WireguardAttribute → WireguardAttribute → Prop
  | privateKey (key : Key) : Zeroed (.privateKey key) (.privateKey .zero)
  | peers (h : List.Forall₂ WireguardPeer.Zeroed ps qs) : Zeroed (.peers ps) (.peers qs)
  | other (hkey : attr.privateKey? = none) (hpeers : attr.peers? = none) : Zeroed attr attr

/-- `m` is the request `r` with its keys zeroed and nothing else changed. -/
inductive NetlinkMessage.Zeroed : NetlinkMessage → NetlinkMessage → Prop
  | intro (header : NetlinkHeader) (g : GenlMessage) {attrs : List WireguardAttribute}
      (h : List.Forall₂ WireguardAttribute.Zeroed g.payload.attributes attrs) :
      Zeroed ⟨header, .innerMessage g⟩
        ⟨header, .innerMessage { g with payload := { g.payload with attributes := attrs } }⟩

-- ---------------------------------------------------------------------------
-- Redaction
-- ---------------------------------------------------------------------------

theorem WireguardPeerAttribute.SameButKeys.redact (h : SameButKeys a b) :
    redactPeerAttribute a = redactPeerAttribute b := by
  cases h <;> rfl

theorem WireguardPeer.SameButKeys.redact (h : SameButKeys p q) : redactPeer p = redactPeer q :=
  congrArg WireguardPeer.mk (Folds.map_congr (fun _ _ _ hab => hab.redact) h)

theorem WireguardAttribute.SameButKeys.redact (h : SameButKeys a b) :
    redactAttribute a = redactAttribute b := by
  cases h with
  | privateKey => rfl
  | peers h =>
    exact congrArg WireguardAttribute.peers (Folds.map_congr (fun _ _ _ hab => hab.redact) h)
  | refl => rfl

/-- What is attached does not depend on the keys of the request. -/
theorem GenlMessage.SameButKeys.redact (h : SameButKeys g g') (header : NetlinkHeader) :
    redactMessage ⟨header, .innerMessage g⟩ = redactMessage ⟨header, .innerMessage g'⟩ := by
  obtain ⟨genlHeader, ⟨cmd, attrs⟩, familyId⟩ := g
  obtain ⟨genlHeader', ⟨cmd', attrs'⟩, familyId'⟩ := g'
  obtain ⟨rfl, rfl, rfl, hattrs⟩ := h
  have hredact : redactAttributes attrs = redactAttributes attrs' :=
    Folds.map_congr (fun _ _ _ hab => hab.redact) hattrs
  simp [redactMessage, redactPayload, hredact]

theorem zeroed_redactPeerAttribute (attr : WireguardPeerAttribute) :
    attr.Zeroed (redactPeerAttribute attr) := by
  cases attr with
  | presharedKey key => exact .presharedKey key
  | _ => exact .other rfl

theorem zeroed_redactPeer (peer : WireguardPeer) : peer.Zeroed (redactPeer peer) := by
  rw [WireguardPeer.Zeroed, redactPeer, List.forall₂_map_right_iff, List.forall₂_same]
  exact fun attr _ => zeroed_redactPeerAttribute attr

theorem zeroed_redactAttribute (attr : WireguardAttribute) : attr.Zeroed (redactAttribute attr) := by
  cases attr with
  | privateKey key => exact .privateKey key
  | peers entries =>
    refine .peers ?_
    rw [List.forall₂_map_right_iff, List.forall₂_same]
    exact fun peer _ => zeroed_redactPeer peer
  | _ => exact .other rfl rfl

theorem zeroed_redactMessage (header : NetlinkHeader) (g : GenlMessage) :
    NetlinkMessage.Zeroed ⟨header, .innerMessage g⟩ (redactMessage ⟨header, .innerMessage g⟩) := by
  refine .intro header g ?_
  rw [redactAttributes, List.forall₂_map_right_iff, List.forall₂_same]
  exact fun attr _ => zeroed_redactAttribute attr

-- ---------------------------------------------------------------------------
-- The errors of an exchange
-- ---------------------------------------------------------------------------

variable [OsError]

def streamErrors (nlMsg : NetlinkMessage) (replies : List Reply) : List WireguardError :=
  (parseNlMsgStream nlMsg replies).filterMap itemError

def replyError (nlMsg : NetlinkMessage) (reply : Reply) : Option WireguardError :=
  (parseReply nlMsg reply).bind itemError

theorem streamErrors_eq (nlMsg : NetlinkMessage) (replies : List Reply) :
    streamErrors nlMsg replies = replies.filterMap (replyError nlMsg) :=
  List.filterMap_filterMap

/-- Every error of one request: a failed send, an item of its stream, and such
an item told apart by its part. -/
inductive ErrorOf (nlMsg : NetlinkMessage) (replies : List Reply) : WireguardError → Prop
  | send (text : String) : ErrorOf nlMsg replies (requestFailure nlMsg text)
  | item (h : e ∈ streamErrors nlMsg replies) : ErrorOf nlMsg replies e
  | part (h : e ∈ streamErrors nlMsg replies) (index total : Nat) :
      ErrorOf nlMsg replies (partError index total e)

/-- An error of a reply attaches the request, never the reply. -/
theorem replyError_netlinkMsg (h : replyError nlMsg reply = some e) :
    e.netlinkMsg = some (redactMessage nlMsg) := by
  unfold replyError at h
  rcases parseReply_cases nlMsg reply with
    ⟨m, -, -, -, hitem⟩ | ⟨-, -, kind, msg, -, hitem⟩ | ⟨-, -, -, hitem⟩
  · rw [hitem] at h
    exact nomatch h
  · rw [hitem] at h
    cases h
    rfl
  · rw [hitem] at h
    exact nomatch h

omit [OsError] in
theorem WireguardError.new_redacted (hr : redactMessage r = redactMessage r') (kind : ErrorKind)
    (msg : String) : new kind msg (some r) = new kind msg (some r') :=
  WireguardError.ext rfl rfl (congrArg some hr)

/-- The reply only decides what kind of error it is. -/
theorem replyError_same (hr : redactMessage r = redactMessage r')
    (h : Reply.SameButKeys reply reply') : replyError r reply = replyError r' reply' := by
  have hnew := WireguardError.new_redacted hr
  cases h with
  | error e => simp [replyError, parseReply, itemError, hnew]
  | @ok p _ header h =>
    cases h with
    | innerMessage h => rfl
    | error code raw raw' =>
      cases code <;> simp [replyError, parseReply, itemError, hnew, netlinkErrorMessage]
    | overrun raw raw' => simp [replyError, parseReply, itemError, hnew]
    | refl => cases p <;> simp [replyError, parseReply, hnew]

/-- Two exchanges fail alike, and the first one attaches its request without
the keys. -/
structure FailAlike (r r' : NetlinkMessage) (s s' : List Reply) : Prop where
  items : streamErrors r s = streamErrors r' s'
  parts : ∀ index total,
    (streamErrors r s).map (partError index total) = (streamErrors r' s').map (partError index total)
  sends : ∀ text, requestFailure r text = requestFailure r' text
  attached : ∀ e, ErrorOf r s e → ∃ m, e.netlinkMsg = some m ∧ r.Zeroed m ∧ redactMessage m = m

/-- Exchanges which only differ in keys and raw bytes fail alike. -/
theorem failAlike_sameButKeys (header : NetlinkHeader) (hr : GenlMessage.SameButKeys g g')
    (hs : List.Forall₂ Reply.SameButKeys s s') :
    FailAlike ⟨header, .innerMessage g⟩ ⟨header, .innerMessage g'⟩ s s' := by
  have hredact := hr.redact header
  have hitems : streamErrors ⟨header, .innerMessage g⟩ s =
      streamErrors ⟨header, .innerMessage g'⟩ s' := by
    rw [streamErrors_eq, streamErrors_eq]
    induction hs with
    | nil => rfl
    | cons hreply _ ih =>
      rw [List.filterMap_cons, List.filterMap_cons, replyError_same hredact hreply, ih]
  have hattached (e : WireguardError) (h : e ∈ streamErrors ⟨header, .innerMessage g⟩ s) :
      e.netlinkMsg = some (redactMessage ⟨header, .innerMessage g⟩) := by
    rw [streamErrors_eq] at h
    obtain ⟨reply, -, hreply⟩ := List.mem_filterMap.mp h
    exact replyError_netlinkMsg hreply
  refine
    { items := hitems
      parts := fun index total => congrArg _ hitems
      sends := fun text => WireguardError.new_redacted hredact ..
      attached := fun e he => ⟨_, ?_, zeroed_redactMessage header g, redactMessage_idem _⟩ }
  cases he with
  | send text => rfl
  | item h => exact hattached e h
  | @part e h index total => exact e.redacted.trans (hattached e h)

def secretRequest (key : Key) : GenlMessage :=
  .fromPayload ⟨.setDevice, [.ifName "wg0", .privateKey key,
    .peers [⟨[.publicKey .zero, .presharedKey key]⟩]]⟩

def refusal (raw : List UInt8) : List Reply := [.ok ⟨{}, .error ⟨some ⟨-1, by decide⟩, raw⟩⟩]

omit [OsError] in
theorem secretRequest_same (key key' : Key) :
    (secretRequest key).SameButKeys (secretRequest key') where
  header := rfl
  resolvedFamilyId := rfl
  cmd := rfl
  attributes := by
    have hpeer : WireguardPeer.SameButKeys ⟨[.publicKey .zero, .presharedKey key]⟩
        ⟨[.publicKey .zero, .presharedKey key']⟩ :=
      .cons (.refl _) (.cons (.presharedKey key key') .nil)
    exact .cons (.refl _) (.cons (.privateKey key key') (.cons (.peers (.cons hpeer .nil)) .nil))

omit [OsError] in
theorem failAlike_sample :
    @FailAlike OsError.linux ⟨{}, .innerMessage (secretRequest ⟨List.replicate 32 0x5a, rfl⟩)⟩
      ⟨{}, .innerMessage (secretRequest .zero)⟩ (refusal [0x5a]) (refusal []) :=
  letI := OsError.linux
  failAlike_sameButKeys {} (secretRequest_same _ _) (.cons (.ok _ (.error _ _ _)) .nil)

end NlWireguard
