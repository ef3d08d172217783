import NlWireguard.Leaks
import NlWireguard.Lengths
import NlWireguard.Lib.Lockstep
import NlWireguard.Secrets
import NlWireguard.Served

/-!
# Calls which do not depend on secrets

Two configurations which only differ in their private and preshared keys are
built into messages which only differ in these keys, and a call of `set` ends
alike for both: with the same number of requests, and with the same error.
-/

namespace NlWireguard

open Lockstep

-- ---------------------------------------------------------------------------
-- Messages
-- ---------------------------------------------------------------------------

structure WireguardMessage.SameButKeys (m m' : WireguardMessage) : Prop where
  cmd : m.cmd = m'.cmd
  attributes : List.Forall₂ WireguardAttribute.SameButKeys m.attributes m'.attributes

/-- Keys have one length. -/
theorem WireguardPeerAttribute.SameButKeys.bufferLen_eq (h : SameButKeys a b) :
    bufferLen a = bufferLen b := by
  cases h <;> rfl

theorem total_same (h : List.Forall₂ WireguardPeerAttribute.SameButKeys as bs) :
    NextFit.total bufferLen as = NextFit.total bufferLen bs := by
  induction h with
  | nil => rfl
  | cons hab _ ih => rw [NextFit.total_cons, NextFit.total_cons, hab.bufferLen_eq, ih]

theorem WireguardPeer.SameButKeys.bufferLen_eq {p q : WireguardPeer} (h : p.SameButKeys q) :
    bufferLen p = bufferLen q := by
  rw [bufferLen_nested rfl, bufferLen_nested rfl, total_same h]

theorem same_refl (attrs : List WireguardPeerAttribute) :
    List.Forall₂ WireguardPeerAttribute.SameButKeys attrs attrs :=
  List.forall₂_same.mpr fun attr _ => .refl attr

theorem same_append (h : List.Forall₂ WireguardPeerAttribute.SameButKeys as bs)
    (rest : List WireguardPeerAttribute) :
    List.Forall₂ WireguardPeerAttribute.SameButKeys (as ++ rest) (bs ++ rest) :=
  List.rel_append h (same_refl rest)

-- ---------------------------------------------------------------------------
-- Peers
-- ---------------------------------------------------------------------------

variable [Base64.Engine]

def WireguardParsed.SecretsValid (c : WireguardParsed) : Prop :=
  (∀ text, c.privateKey = some text → KeyText text) ∧
    ∀ p ∈ c.peers.getD [], ∀ text, p.presharedKey = some text → KeyText text

omit [Base64.Engine] in
theorem emit_same {R : β → β → Prop} {attr : Key → β} (hattr : ∀ a b, R (attr a) (attr b))
    {key key' : Option Key} (hsome : key.isSome = key'.isSome) :
    List.Forall₂ R (emit key attr) (emit key' attr) := by
  cases key with
  | none =>
    cases key' with
    | none => exact .nil
    | some b => exact nomatch hsome
  | some a =>
    cases key' with
    | none => exact nomatch hsome
    | some b => exact .cons (hattr a b) .nil

/-- A secret becomes an attribute on both sides or on none. -/
theorem emitM_same {R : β → β → Prop} {attr : Key → β} (hattr : ∀ a b, R (attr a) (attr b))
    (hsome : property.isSome = property'.isSome) (hvalid : ∀ text, property = some text → KeyText text)
    (hvalid' : ∀ text, property' = some text → KeyText text) :
    Alike (List.Forall₂ R) (emitM property fun v => attr <$> decodeKey propName v)
      (emitM property' fun v => attr <$> decodeKey propName v) := by
  obtain ⟨key, rfl⟩ := exists_keys.mpr hvalid
  obtain ⟨key', rfl⟩ := exists_keys.mpr hvalid'
  rw [emitM_decodeKey.mpr ⟨key, rfl, rfl⟩, emitM_decodeKey.mpr ⟨key', rfl, rfl⟩]
  rw [Option.isSome_map, Option.isSome_map] at hsome
  exact .ok (emit_same hattr hsome)

namespace WireguardPeerParsed

variable {p q : WireguardPeerParsed}

omit [Base64.Engine] in
theorem SameButSecret.eq (h : p.SameButSecret q) : q = { p with presharedKey := q.presharedKey } := by
  have heq := congrArg
    (fun r : WireguardPeerParsed => { r with presharedKey := q.presharedKey }) h.others
  exact heq.symm

/-- Both peers are rejected with the same error, or built alike. -/
theorem SameButSecret.build (h : p.SameButSecret q)
    (hp : ∀ text, p.presharedKey = some text → KeyText text)
    (hq : ∀ text, q.presharedKey = some text → KeyText text) :
    Alike WireguardPeer.SameButKeys p.build q.build := by
  rw [h.eq]
  have hsome := h.presharedKey
  generalize q.presharedKey = presharedKey at hq hsome
  unfold WireguardPeerParsed.build
  simp only
  by_cases hnone : p.publicKey.isNone
  · rw [if_pos hnone, if_pos hnone]
    exact .error _
  · rw [if_neg hnone, if_neg hnone]
    refine (Alike.of_eq same_refl _).bind fun as bs hpublicKey => ?_
    refine (emitM_same WireguardPeerAttribute.SameButKeys.presharedKey hsome hp hq).bind
      fun as' bs' hsecret => ?_
    refine (Alike.of_eq same_refl _).bind fun ips ips' hips => .ok ?_
    -- Everything but the preshared key is the same on both sides.
    have hpublicKey := List.rel_append (same_refl (emit p.endpoint .endpoint)) hpublicKey
    have hkeys := List.rel_append hpublicKey hsecret
    refine same_append (same_append (List.rel_append ?_ hips) _) _
    exact same_append (same_append (same_append (same_append hkeys _) _) _) _

/-- The chunks of both peers are cut at the same places. -/
theorem Accepted.chunks_same {keys keys' : Keys} (hp : p.Accepted keys) (h : p.SameButSecret q)
    (hq : q.Accepted keys') :
    List.Forall₂ WireguardPeer.SameButKeys (p.chunks keys) (q.chunks keys') := by
  obtain ⟨pub, psk⟩ := keys
  obtain ⟨pub', psk'⟩ := keys'
  obtain rfl : pub = pub' := by
    have hpub : q.publicKey = p.publicKey := by rw [h.eq]
    have hsame := hp.publicKey.symm.trans (hpub.symm.trans hq.publicKey)
    exact encodeKey_injective (Option.some.inj hsame)
  have hsome : psk.isSome = psk'.isSome := by
    have hsome := h.presharedKey
    rwa [hp.presharedKey, hq.presharedKey, Option.isSome_map, Option.isSome_map] at hsome
  have hstate : List.Forall₂ WireguardPeerAttribute.SameButKeys (p.stateAttributes ⟨pub, psk⟩)
      (p.stateAttributes ⟨pub, psk'⟩) := by
    have hkeys := List.rel_append (same_refl (emit p.endpoint .endpoint ++ [.publicKey pub]))
      (emit_same WireguardPeerAttribute.SameButKeys.presharedKey hsome)
    refine same_append ?_ _
    exact same_append (same_append (same_append (same_append hkeys _) _) _) _
  have hbatches (ips : List WireguardIpAddress) :
      p.batches ⟨pub, psk⟩ ips = p.batches ⟨pub, psk'⟩ ips := by
    have hlen : p.firstLen ⟨pub, psk⟩ = p.firstLen ⟨pub, psk'⟩ := by
      rw [firstLen, firstLen, stateLen, stateLen, total_same hstate]
    rw [batches, batches, hlen]
    rfl
  have hfirst (batch : List WireguardAllowedIp) :
      (p.firstChunk ⟨pub, psk⟩ batch).SameButKeys (p.firstChunk ⟨pub, psk'⟩ batch) :=
    same_append hstate _
  rw [h.eq]
  change List.Forall₂ _ (p.chunks ⟨pub, psk⟩) (p.chunks ⟨pub, psk'⟩)
  unfold chunks
  cases p.allowedIps with
  | none => exact .cons hstate .nil
  | some ips =>
    by_cases hremoves : p.Removes
    · simp only [if_pos hremoves]
      exact .cons hstate .nil
    · simp only [if_neg hremoves, ← hbatches]
      cases p.batches ⟨pub, psk⟩ ips with
      | nil => exact .cons (hfirst []) .nil
      | cons batch more =>
        refine .cons (hfirst batch) (List.forall₂_same.mpr fun chunk hchunk => ?_)
        exact same_refl chunk.attributes

theorem SameButSecret.peerChunks (h : p.SameButSecret q)
    (hp : ∀ text, p.presharedKey = some text → KeyText text)
    (hq : ∀ text, q.presharedKey = some text → KeyText text) :
    Alike (List.Forall₂ WireguardPeer.SameButKeys) (peerChunks p) (peerChunks q) := by
  rcases alike_iff.mp (h.build hp hq) with ⟨e, he, he'⟩ | ⟨built, built', hbuilt, hbuilt', -⟩
  · rw [NlWireguard.peerChunks, NlWireguard.peerChunks, he, he']
    exact .error e
  · obtain ⟨keys, haccepted, -⟩ := build_ok.mp hbuilt
    obtain ⟨keys', haccepted', -⟩ := build_ok.mp hbuilt'
    rw [peerChunks_eq haccepted, peerChunks_eq haccepted']
    exact .ok (haccepted.chunks_same h haccepted')

end WireguardPeerParsed

-- ---------------------------------------------------------------------------
-- Configurations
-- ---------------------------------------------------------------------------

structure Splitter.SameButKeys (s s' : Splitter) : Prop where
  messages : List.Forall₂ WireguardMessage.SameButKeys s.messages s'.messages
  peers : List.Forall₂ WireguardPeer.SameButKeys s.peers s'.peers
  peersLen : s.peersLen = s'.peersLen

omit [Base64.Engine] in
theorem nil_iff_of_forall₂ {R : α → β → Prop} (h : List.Forall₂ R as bs) : as = [] ↔ bs = [] := by
  cases h with
  | nil => exact iff_of_true rfl rfl
  | cons => exact iff_of_false (List.cons_ne_nil _ _) (List.cons_ne_nil _ _)

omit [Base64.Engine] in
theorem WireguardAttribute.same_refl (attrs : List WireguardAttribute) :
    List.Forall₂ WireguardAttribute.SameButKeys attrs attrs :=
  List.forall₂_same.mpr fun attr _ => .refl attr

namespace WireguardParsed

variable {c d : WireguardParsed}

omit [Base64.Engine] in
theorem SameButSecrets.eq (h : c.SameButSecrets d) :
    d = { c with privateKey := d.privateKey, peers := d.peers } := by
  have heq := congrArg
    (fun r : WireguardParsed => { r with privateKey := d.privateKey, peers := d.peers }) h.others
  exact heq.symm

omit [Base64.Engine] in
theorem SameButSecrets.ifaceAttribute (h : c.SameButSecrets d) :
    c.ifaceAttribute = d.ifaceAttribute := by
  rw [h.eq]
  rfl

omit [Base64.Engine] in
theorem SameButSecrets.peers_getD (h : c.SameButSecrets d) :
    List.Forall₂ WireguardPeerParsed.SameButSecret (c.peers.getD []) (d.peers.getD []) := by
  have hpeers := h.peers
  cases hc : c.peers with
  | none =>
    cases hd : d.peers with
    | none => exact .nil
    | some _ =>
      rw [hc, hd] at hpeers
      exact nomatch hpeers
  | some _ =>
    cases hd : d.peers with
    | none =>
      rw [hc, hd] at hpeers
      exact nomatch hpeers
    | some _ =>
      rw [hc, hd] at hpeers
      exact Option.rel_some_some.mp hpeers

theorem SameButSecrets.deviceAttributes (h : c.SameButSecrets d) (hc : c.SecretsValid)
    (hd : d.SecretsValid) :
    Alike (List.Forall₂ WireguardAttribute.SameButKeys) c.deviceAttributes d.deviceAttributes := by
  have hsome := h.privateKey
  obtain ⟨hc, -⟩ := hc
  obtain ⟨hd, -⟩ := hd
  rw [h.eq]
  generalize d.privateKey = privateKey at hd hsome
  unfold WireguardParsed.deviceAttributes
  refine (Alike.of_eq WireguardAttribute.SameButKeys.refl _).bind fun iface iface' hiface => ?_
  refine (Alike.of_eq WireguardAttribute.same_refl _).bind fun publicKey publicKey' hpublicKey => ?_
  refine (emitM_same WireguardAttribute.SameButKeys.privateKey hsome hc hd).bind
    fun private' private'' hprivate => .ok ?_
  have hkeys := List.rel_append (List.rel_append (.cons hiface .nil) hpublicKey) hprivate
  refine List.rel_append (List.rel_append (List.rel_append hkeys ?_) ?_) ?_ <;>
    exact WireguardAttribute.same_refl _

theorem SameButSecrets.buildMessage (h : c.SameButSecrets d) (hc : c.SecretsValid)
    (hd : d.SecretsValid) (cmd : WireguardCmd) (first : Bool)
    (hpeers : List.Forall₂ WireguardPeer.SameButKeys ps qs) :
    Alike WireguardMessage.SameButKeys (c.buildMessage cmd first ps) (d.buildMessage cmd first qs) := by
  have hsome : c.peers.isSome = d.peers.isSome := by
    have hpeers := h.peers
    cases hc : c.peers <;> cases hd : d.peers <;> rw [hc, hd] at hpeers <;>
      first | rfl | exact nomatch hpeers
  have hmessage {as bs : List WireguardAttribute}
      (hab : List.Forall₂ WireguardAttribute.SameButKeys as bs) :
      WireguardMessage.SameButKeys
        ⟨cmd, if c.peers.isSome then as ++ [.peers ps] else as⟩
        ⟨cmd, if d.peers.isSome then bs ++ [.peers qs] else bs⟩ := by
    refine ⟨rfl, ?_⟩
    rw [hsome]
    cases d.peers.isSome with
    | true => exact List.rel_append hab (.cons (.peers hpeers) .nil)
    | false => exact hab
  unfold WireguardParsed.buildMessage
  rw [← h.ifaceAttribute]
  cases first with
  | true => exact (h.deviceAttributes hc hd).bind fun _ _ hab => .ok (hmessage hab)
  | false => exact (Alike.of_eq WireguardAttribute.same_refl _).bind fun _ _ hab => .ok (hmessage hab)

theorem SameButSecrets.flush (h : c.SameButSecrets d) (hc : c.SecretsValid) (hd : d.SecretsValid)
    (cmd : WireguardCmd) {s s' : Splitter} (hs : s.SameButKeys s') :
    Alike Splitter.SameButKeys (c.flush cmd s) (d.flush cmd s') := by
  have hempty : s.messages.isEmpty = s'.messages.isEmpty := by
    rw [Bool.eq_iff_iff, List.isEmpty_iff, List.isEmpty_iff]
    exact nil_iff_of_forall₂ hs.messages
  unfold WireguardParsed.flush
  rw [hempty]
  refine (h.buildMessage hc hd cmd _ hs.peers).bind fun m m' hm => .ok ?_
  exact ⟨List.rel_append hs.messages (.cons hm .nil), .nil, rfl⟩

theorem SameButSecrets.pushChunk (h : c.SameButSecrets d) (hc : c.SecretsValid)
    (hd : d.SecretsValid) (cmd : WireguardCmd) {s s' : Splitter} (hs : s.SameButKeys s')
    {chunk chunk' : WireguardPeer} (hchunk : chunk.SameButKeys chunk') :
    Alike Splitter.SameButKeys (c.pushChunk cmd s chunk) (d.pushChunk cmd s' chunk') := by
  have hlen := hchunk.bufferLen_eq
  have hfull : (s.peers ≠ [] ∧ maxNlaValueLen < s.peersLen + bufferLen chunk) ↔
      (s'.peers ≠ [] ∧ maxNlaValueLen < s'.peersLen + bufferLen chunk') := by
    rw [hs.peersLen, hlen]
    exact and_congr_left' (nil_iff_of_forall₂ hs.peers).not
  have hadd {t t' : Splitter} (ht : t.SameButKeys t') : Splitter.SameButKeys
      { t with peers := t.peers ++ [chunk], peersLen := t.peersLen + bufferLen chunk }
      { t' with peers := t'.peers ++ [chunk'], peersLen := t'.peersLen + bufferLen chunk' } :=
    ⟨ht.messages, List.rel_append ht.peers (.cons hchunk .nil), congrArg₂ (· + ·) ht.peersLen hlen⟩
  unfold WireguardParsed.pushChunk
  refine Alike.ite hfull ?_ ?_
  · exact (h.flush hc hd cmd hs).bind fun _ _ ht => .ok (hadd ht)
  · exact .ok (hadd hs)

/-- Both configurations are rejected with the same error, or become messages
which only differ in keys. -/
theorem SameButSecrets.buildMessages (h : c.SameButSecrets d) (hc : c.SecretsValid)
    (hd : d.SecretsValid) (cmd : WireguardCmd) :
    Alike (List.Forall₂ WireguardMessage.SameButKeys) (c.buildMessages cmd) (d.buildMessages cmd) := by
  have hpeers : List.Forall₂ (fun p q => Alike (List.Forall₂ WireguardPeer.SameButKeys) (peerChunks p)
      (peerChunks q)) (c.peers.getD []) (d.peers.getD []) := by
    obtain ⟨hlen, hsame⟩ := List.forall₂_iff_zip.mp h.peers_getD
    refine List.forall₂_iff_zip.mpr ⟨hlen, fun hpq => ?_⟩
    obtain ⟨hp, hq⟩ := List.of_mem_zip hpq
    exact (hsame hpq).peerChunks (hc.2 _ hp) (hd.2 _ hq)
  have hloop : Alike Splitter.SameButKeys ((c.peers.getD []).foldlM (c.pushPeerChunks cmd) {})
      ((d.peers.getD []).foldlM (d.pushPeerChunks cmd) {}) := by
    refine Alike.foldlM (fun s s' p q hs hpq => ?_) hpeers ⟨.nil, .nil, rfl⟩
    exact hpq.bind fun chunks chunks' hchunks =>
      Alike.foldlM (fun _ _ _ _ ht hchunk => h.pushChunk hc hd cmd ht hchunk) hchunks hs
  unfold WireguardParsed.buildMessages
  refine hloop.bind fun s s' hs => ?_
  have hopen : (s.peers ≠ [] ∨ s.messages = []) ↔ (s'.peers ≠ [] ∨ s'.messages = []) :=
    or_congr (nil_iff_of_forall₂ hs.peers).not (nil_iff_of_forall₂ hs.messages)
  refine Alike.ite hopen ?_ ?_
  · exact (h.flush hc hd cmd hs).bind fun _ _ ht => .ok ht.messages
  · exact .ok hs.messages

end WireguardParsed

-- ---------------------------------------------------------------------------
-- What `Debug` shows
-- ---------------------------------------------------------------------------

def hiddenKey (key : Option String) : Option String := if key.isSome then some "(hidden)" else none

omit [Base64.Engine] in
theorem hiddenKey_inj : hiddenKey key = hiddenKey key' ↔ key.isSome = key'.isSome := by
  cases key <;> cases key' <;> simp [hiddenKey]

/-- The peer as `Debug` renders it. -/
def WireguardPeerParsed.debugView (self : WireguardPeerParsed) : WireguardPeerParsed :=
  { self with presharedKey := hiddenKey self.presharedKey }

/-- The configuration as `Debug` renders it, which renders its peers in turn. -/
def WireguardParsed.debugView (self : WireguardParsed) : WireguardParsed :=
  { self with
    privateKey := hiddenKey self.privateKey
    peers := self.peers.map (·.map WireguardPeerParsed.debugView) }

omit [Base64.Engine] in
theorem WireguardPeerParsed.debugView_inj {p q : WireguardPeerParsed} :
    p.debugView = q.debugView ↔ p.SameButSecret q := by
  constructor
  · intro h
    refine ⟨?_, hiddenKey_inj.mp (congrArg presharedKey h)⟩
    exact congrArg (fun r : WireguardPeerParsed => { r with presharedKey := none }) h
  · intro h
    rw [h.eq]
    exact congrArg (fun key => { p with presharedKey := key }) (hiddenKey_inj.mpr h.presharedKey)

omit [Base64.Engine] in
theorem peers_debugView {ps qs : Option (List WireguardPeerParsed)} :
    ps.map (·.map WireguardPeerParsed.debugView) = qs.map (·.map WireguardPeerParsed.debugView) ↔
      Option.Rel (List.Forall₂ WireguardPeerParsed.SameButSecret) ps qs := by
  have hlist (ps qs : List WireguardPeerParsed) :
      ps.map WireguardPeerParsed.debugView = qs.map WireguardPeerParsed.debugView ↔
        List.Forall₂ WireguardPeerParsed.SameButSecret ps qs := by
    rw [← List.forall₂_eq_eq_eq, List.forall₂_map_left_iff, List.forall₂_map_right_iff]
    simp only [WireguardPeerParsed.debugView_inj]
  cases ps with
  | none => cases qs <;> simp
  | some ps =>
    cases qs with
    | none => simp
    | some qs => rw [Option.map_some, Option.map_some, Option.some_inj, hlist, Option.rel_some_some]

omit [Base64.Engine] in
/-- `Debug` shows everything but the texts of secrets. -/
theorem WireguardParsed.debugView_inj {c d : WireguardParsed} :
    c.debugView = d.debugView ↔ c.SameButSecrets d := by
  constructor
  · intro h
    have hothers := congrArg (fun r : WireguardParsed => { r with privateKey := none, peers := none }) h
    exact ⟨hothers, hiddenKey_inj.mp (congrArg privateKey h), peers_debugView.mp (congrArg peers h)⟩
  · intro h
    have hkey := hiddenKey_inj.mpr h.privateKey
    have hpeers := peers_debugView.mpr h.peers
    have hview := congrArg₂ (fun key peers => { c with privateKey := key, peers := peers }) hkey hpeers
    exact hview.trans (congrArg debugView h.eq).symm

-- ---------------------------------------------------------------------------
-- Calls
-- ---------------------------------------------------------------------------

structure NetlinkMessage.SameButKeys (m m' : NetlinkMessage) : Prop where
  header : m.header = m'.header
  payload : m.payload.SameButKeys m'.payload

/-- The other end of the socket does not look into keys. -/
def Link.SameButKeys (link link' : Link) : Prop :=
  ∀ sent sent' request request', List.Forall₂ NetlinkMessage.SameButKeys sent sent' →
    NetlinkMessage.SameButKeys request request' →
    Alike (List.Forall₂ Reply.SameButKeys) (link sent request) (link' sent' request')

structure SetRun.SameButKeys (run run' : SetRun) : Prop where
  sent : List.Forall₂ WireguardMessage.SameButKeys run.sent run'.sent
  result : run.result = run'.result

variable [OsError]

omit [Base64.Engine] in
theorem streamErrors_same {r r' : NetlinkMessage} (hr : redactMessage r = redactMessage r')
    (hs : List.Forall₂ Reply.SameButKeys s s') : streamErrors r s = streamErrors r' s' := by
  rw [streamErrors_eq, streamErrors_eq]
  induction hs with
  | nil => rfl
  | cons hreply _ ih =>
    rw [List.filterMap_cons, List.filterMap_cons, replyError_same hr hreply, ih]

omit [Base64.Engine] [OsError] in
theorem WireguardMessage.SameButKeys.genl {m m' : WireguardMessage} (h : m.SameButKeys m') :
    (GenlMessage.fromPayload m).SameButKeys (.fromPayload m') where
  header := by rw [GenlMessage.fromPayload, GenlMessage.fromPayload, h.cmd]
  resolvedFamilyId := rfl
  cmd := h.cmd
  attributes := h.attributes

omit [Base64.Engine] [OsError] in
theorem WireguardMessage.SameButKeys.request {m m' : WireguardMessage} (h : m.SameButKeys m')
    (nlHeaderFlags : UInt16) :
    (requestMessage nlHeaderFlags m).SameButKeys (requestMessage nlHeaderFlags m') :=
  ⟨rfl, .innerMessage h.genl⟩

variable {link link' : Link}

omit [Base64.Engine] in
/-- Both requests can not be sent for the same reason, or their first error is
the same. -/
theorem requester_same (hlink : link.SameButKeys link') {before before' : List WireguardMessage}
    (hbefore : List.Forall₂ WireguardMessage.SameButKeys before before') {m m' : WireguardMessage}
    (hm : m.SameButKeys m') :
    Alike (fun items items' => items.findSome? itemError = items'.findSome? itemError)
      (link.requester before m) (link'.requester before' m') := by
  have hrequests : List.Forall₂ NetlinkMessage.SameButKeys
      (before.map (requestMessage (nlmFRequest ||| nlmFAck)))
      (before'.map (requestMessage (nlmFRequest ||| nlmFAck))) :=
    List.rel_map (fun _ _ h => h.request _) hbefore
  have hredact : redactMessage (requestMessage (nlmFRequest ||| nlmFAck) m) =
      redactMessage (requestMessage (nlmFRequest ||| nlmFAck) m') := hm.genl.redact _
  have hanswer := hlink _ _ _ _ hrequests (hm.request (nlmFRequest ||| nlmFAck))
  rcases alike_iff.mp hanswer with ⟨e, he, he'⟩ | ⟨replies, replies', hreplies, hreplies', hsame⟩
  · have hrefused : requestFailure (requestMessage (nlmFRequest ||| nlmFAck) m) e =
        requestFailure (requestMessage (nlmFRequest ||| nlmFAck) m') e :=
      WireguardError.new_redacted hredact ..
    rw [Link.requester, Link.requester, request_fails he, request_fails he', hrefused]
    exact .error _
  · rw [Link.requester, Link.requester, request_replies hreplies, request_replies hreplies']
    refine .ok ?_
    rw [← List.head?_filterMap, ← List.head?_filterMap]
    exact congrArg List.head? (streamErrors_same hredact hsame)

omit [Base64.Engine] in
/-- Both calls send the next request, and both go on or stop with one error. -/
theorem setLoop_same (hlink : link.SameButKeys link') (total index : Nat)
    {before before' : List WireguardMessage}
    (hbefore : List.Forall₂ WireguardMessage.SameButKeys before before')
    (hms : List.Forall₂ WireguardMessage.SameButKeys ms ms') :
    (setLoop link.requester total index before ms).SameButKeys
      (setLoop link'.requester total index before' ms') := by
  induction hms generalizing index before before' with
  | nil => exact ⟨hbefore, rfl⟩
  | @cons m m' ms ms' hm _ ih =>
    have hnext := List.rel_append hbefore (.cons hm .nil)
    have hstep := requester_same hlink hbefore hm
    unfold setLoop
    generalize link.requester before m = answer at hstep
    generalize link'.requester before' m' = answer' at hstep
    cases hstep with
    | error e => exact ⟨hnext, rfl⟩
    | @ok items items' herror =>
      simp only [herror]
      cases items'.findSome? itemError with
      | some e => exact ⟨hnext, rfl⟩
      | none => exact ih (index + 1) hnext

variable {c d : WireguardParsed}

/-- Configurations which `Debug` shows alike are applied alike. -/
theorem set_hides (hlink : link.SameButKeys link') (hview : c.debugView = d.debugView)
    (hc : c.SecretsValid) (hd : d.SecretsValid) : (set link c).SameButKeys (set link' d) := by
  have hbuilt := (WireguardParsed.debugView_inj.mp hview).buildMessages hc hd .setDevice
  unfold set setWith
  generalize c.buildMessages .setDevice = built at hbuilt
  generalize d.buildMessages .setDevice = built' at hbuilt
  cases hbuilt with
  | error e => exact ⟨.nil, rfl⟩
  | @ok ms ms' hms =>
    have hlen : ms.length = ms'.length := hms.length_eq
    simp only [hlen]
    exact setLoop_same hlink _ 0 .nil hms

/-- A configuration with one key for both secrets. -/
def secretConfiguration (key : Key) : WireguardParsed where
  ifaceName := some "wg0"
  privateKey := some (encodeKey key)
  peers := some [{ publicKey := some (encodeKey .zero), presharedKey := some (encodeKey key) }]

omit [OsError] in
theorem secretsValid_sample (key : Key) : (secretConfiguration key).SecretsValid := by
  refine ⟨fun text htext => ⟨key, (Option.some.inj htext).symm⟩, fun p hp text htext => ⟨key, ?_⟩⟩
  obtain rfl := List.mem_singleton.mp hp
  exact (Option.some.inj htext).symm

omit [OsError] [Base64.Engine] in
theorem busyLink_same : busyLink.SameButKeys busyLink := by
  intro sent sent' request request' hsent hrequest
  cases hsent with
  | nil => exact .error _
  | cons => exact .ok (.cons (.ok _ (.refl _)) .nil)

omit [OsError] [Base64.Engine] in
theorem set_hides_sample : SetRun.SameButKeys
    (@set Base64.standard OsError.linux busyLink (@secretConfiguration Base64.standard .zero))
    (@set Base64.standard OsError.linux busyLink
      (@secretConfiguration Base64.standard WireguardParsed.sampleKey)) :=
  letI := Base64.standard
  letI := OsError.linux
  set_hides busyLink_same rfl (secretsValid_sample _) (secretsValid_sample _)

end NlWireguard
