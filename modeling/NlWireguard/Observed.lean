import NlWireguard.Remove
import NlWireguard.Report

/-!
# Reading back what was configured

A link whose kernel also answers dumps: what `getByName` reports behind a call
of `set` has everything the configuration asks for.
-/

namespace NlWireguard

variable {K : Kernel} {D E : Device} {link : Link} {device : List NetlinkMessage → Device}
variable [Base64.Engine] {c found : WireguardParsed}

-- ---------------------------------------------------------------------------
-- What is asked for
-- ---------------------------------------------------------------------------

/-- The entry `q` of a dump has what the entry `p` configures. -/
structure WireguardPeerParsed.Shows (q p : WireguardPeerParsed) (K : Kernel) : Prop where
  publicKey : q.publicKey = p.publicKey
  presharedKey : ∀ key, p.presharedKey = some (encodeKey key) →
    q.presharedKey = if key = .zero then none else p.presharedKey
  endpoint : p.endpoint.isSome → q.endpoint = p.endpoint
  persistentKeepalive : p.persistentKeepalive.isSome → q.persistentKeepalive = p.persistentKeepalive
  networks : ∀ ip ∈ p.allowedIps.getD [], ¬ip.Removes →
    ⟨ip.prefixLength, K.network ip.ipAddr ip.prefixLength, none⟩ ∈ q.allowedIps.getD []
  /-- If the allowed IPs are replaced, the peer has no other ones. -/
  only : p.ReplacesIps → ∀ ip ∈ q.allowedIps.getD [],
    ∃ asked ∈ p.allowedIps.getD [], asked.networkIn K = (ip.ipAddr, ip.prefixLength) ∧ ¬asked.Removes

/-- The dump `found` has what `c` configures. -/
structure WireguardParsed.Shows (found c : WireguardParsed) (K : Kernel) : Prop where
  privateKey : c.privateKey.isSome → found.privateKey = c.privateKey
  listenPort : c.listenPort.isSome → found.listenPort = c.listenPort
  fwmark : c.fwmark.isSome → found.fwmark = c.fwmark
  peers : ∀ p ∈ c.peers.getD [], ¬p.Removes → ¬p.UpdatesOnly →
    ∃ q ∈ found.peers.getD [], q.Shows p K
  removed : ∀ p ∈ c.peers.getD [], p.Removes →
    ∀ q ∈ found.peers.getD [], q.publicKey ≠ p.publicKey
  /-- If the peers are replaced, there are no other ones. -/
  only : c.ReplacesPeers → ∀ q ∈ found.peers.getD [], ∃ p ∈ c.peers.getD [], q.publicKey = p.publicKey

namespace WireguardParsed

theorem Plan.shows_peer (plan : c.Plan) (hdistinct : c.Distinct K) (hconf : c.Configures K D E)
    (hfound : found.Describes K E) (hp : p ∈ c.peers.getD []) (hkept : ¬p.Removes)
    (hcreates : ¬p.UpdatesOnly) : ∃ q ∈ found.peers.getD [], q.Shows p K := by
  obtain ⟨e, -, rfl⟩ := List.mem_map.mp (plan.peers_eq ▸ hp)
  have hkey : e.peer.publicKey = some (encodeKey e.keys.publicKey) := e.accepted.publicKey
  have houtcome (before : Option PeerState) :
      e.peer.outcome before = some (e.peer.settings (before.getD {})) :=
    if_neg fun h => h.elim hkept fun h => hcreates h.2
  have hstate := (hconf.listed e.peer hp _ hkey).trans (houtcome _)
  obtain ⟨q, hq, hlists⟩ := hfound.complete e.keys.publicKey (by simp [hstate])
  obtain ⟨s, hs, hread⟩ := hlists.state
  obtain rfl := Option.some.inj (hs.symm.trans hstate)
  refine ⟨q, hq, ⟨hlists.publicKey.trans hkey.symm, fun key hpsk => ?_, fun hsome => ?_, fun hsome => ?_,
    fun ip hip hr => ?_, fun hreplaces ip hip => ?_⟩⟩
  · have hkeyof : keyOf e.peer.presharedKey = some key := by
      rw [hpsk]
      exact keyOf_encodeKey (some key)
    rw [hread, hpsk]
    by_cases hzero : key = .zero
    · simp [PeerState.parsed, WireguardPeerParsed.settings, hkeyof, hzero, Option.filter_some]
    · have hne : encodeKey key ≠ encodeKey .zero := fun h => hzero (encodeKey_injective h)
      simp [PeerState.parsed, WireguardPeerParsed.settings, hkeyof, hzero, hne, Option.filter_some]
  · obtain ⟨addr, haddr⟩ := Option.isSome_iff_exists.mp hsome
    rw [hread, haddr]
    simp [PeerState.parsed, WireguardPeerParsed.settings, haddr]
  · obtain ⟨seconds, hseconds⟩ := Option.isSome_iff_exists.mp hsome
    rw [hread, hseconds]
    simp [PeerState.parsed, WireguardPeerParsed.settings, hseconds]
  · have hgives : e.peer.Gives K ((c.base D).peers e.keys.publicKey) (ip.networkIn K) :=
      ⟨by rw [houtcome]; rfl, ip, hip, rfl, hr⟩
    exact (hlists.networks _ _).mpr ((hconf.owner _ _).mpr (.inl ⟨e.peer, hp, hkey, hgives⟩))
  · rcases (hconf.owner _ _).mp (hlists.ip_eq hip).2 with ⟨p, hp', hkey', -, asked, hasked, hnet, hr⟩ |
      ⟨-, -, htakes⟩
    · obtain rfl : p = e.peer := List.inj_on_of_nodup_map hdistinct.keys hp' hp (hkey'.trans hkey.symm)
      exact ⟨asked, hasked, hnet, hr⟩
    · exact absurd ⟨e.peer, hp, hkey, .inr (.inl hreplaces)⟩ htakes

/-- A dump behind a configuration has what was configured. -/
theorem Plan.shows (plan : c.Plan) (hdistinct : c.Distinct K) (hconf : c.Configures K D E)
    (hfound : found.Describes K E) : found.Shows c K where
  privateKey hsome := by
    have hkey : E.privateKey = plan.keys.privateKey.or D.privateKey := by
      rw [hconf.privateKey, plan.accepted.privateKey, keyOf_encodeKey]
    obtain ⟨key, hpriv⟩ : ∃ key, plan.keys.privateKey = some key := by
      rw [plan.accepted.privateKey, Option.isSome_map] at hsome
      exact Option.isSome_iff_exists.mp hsome
    rw [hfound.device, plan.accepted.privateKey, hpriv]
    simp [Device.parsed, hkey, hpriv]
  listenPort hsome := by
    obtain ⟨port, hport⟩ := Option.isSome_iff_exists.mp hsome
    rw [hfound.device, hport]
    simp [Device.parsed, hconf.listenPort, hport]
  fwmark hsome := by
    obtain ⟨mark, hmark⟩ := Option.isSome_iff_exists.mp hsome
    rw [hfound.device, hmark]
    simp [Device.parsed, hconf.fwmark, hmark]
  peers p hp hkept hcreates := plan.shows_peer hdistinct hconf hfound hp hkept hcreates
  removed p hp hr q hq heq := by
    obtain ⟨key, hlists⟩ := hfound.listed q hq
    obtain ⟨s, hs, -⟩ := hlists.state
    have hnone : E.peers key = none :=
      (hconf.listed p hp key (heq.symm.trans hlists.publicKey)).trans (if_pos (.inl hr))
    exact absurd (hs.symm.trans hnone) (Option.some_ne_none s)
  only hreplaces q hq := by
    obtain ⟨key, hlists⟩ := hfound.listed q hq
    obtain ⟨s, hs, -⟩ := hlists.state
    by_contra hnone
    have hmentions : ¬c.Mentions key := by
      rintro ⟨p, hp, hkey⟩
      exact hnone ⟨p, hp, hlists.publicKey.trans hkey.symm⟩
    rw [hconf.others key hmentions, base, if_pos hreplaces] at hs
    exact Option.some_ne_none s hs.symm

end WireguardParsed

-- ---------------------------------------------------------------------------
-- Links
-- ---------------------------------------------------------------------------

/-- The replies are a whole dump of the device, up to its end. -/
structure Kernel.Answers (K : Kernel) (D : Device) (replies : List Reply) : Prop where
  kept : ∀ reply ∈ replies, ¬Reply.Fails reply
  done : ∃ reply ∈ replies, Reply.IsDone reply
  dumps : K.Dumps D (replies.filterMap Reply.inner?)

/-- Behind these requests, a dump of the device is answered. -/
def Link.Dumps (link : Link) (K : Kernel) (D : Device) (sent : List NetlinkMessage) : Prop :=
  ∃ replies, link sent (dumpRequest D.ifName) = .ok replies ∧ K.Answers D replies

omit [Base64.Engine] in
theorem Kernel.Dumps.ne_nil (h : K.Dumps D ms) : ms ≠ [] := by
  cases h with
  | peers _ _ _ _ hcut =>
    cases hcut
    simp
  | noPeers => simp

variable [OsError]

theorem getByName_describes (hdump : link.Dumps K D before) (hvalid : D.Valid K) :
    ∃ found, getByName (link.after before) D.ifName = .ok found ∧ found.Describes K D := by
  obtain ⟨replies, hlink, hkept, -, hdumps⟩ := hdump
  have hname : ¬NameRejected D.ifName :=
    not_or.mpr ⟨Nat.not_le.mpr hvalid.ifName_length, hvalid.ifName_nul⟩
  have hafter : link.after before [] (dumpRequest D.ifName) = .ok replies := by
    rw [Link.after, List.append_nil]
    exact hlink
  exact ⟨_, getByName_ok.mpr ⟨hname, replies, hafter, hkept, hdumps.ne_nil, rfl⟩,
    WireguardParsed.describes_of_dumps hdumps⟩

/-- What a call of `set` configures which was acknowledged, the next dump shows. -/
theorem getByName_set (hK : K.Lawful) (hignores : K.ignores = WireguardPeerAttribute.isReported)
    (hserves : link.Serves K device) (hsound : (device []).Sound K) (hnames : c.Names (device []))
    (hdistinct : c.Distinct K) (hupdates : c.UpdatesWhole (device []))
    (hok : (set link c).result = .ok ()) (hacks : (set link c).Acknowledged link)
    (hdump : link.Dumps K (device (set link c).requests) (set link c).requests) :
    ∃ found, getByName (link.after (set link c).requests) (device []).ifName = .ok found ∧
      found.Shows c K := by
  cases hms : c.buildMessages .setDevice with
  | error e =>
    rw [set_rejected hms] at hok
    exact absurd hok.symm ExceptLaws.ok_ne_error
  | ok ms =>
    obtain ⟨hattempt, hset⟩ := set_served hserves hms
    have hdevice := hset hok hacks
    have hafter := WireguardParsed.sound_of_attempt hK hsound hms hattempt
    obtain ⟨plan, rfl⟩ := WireguardParsed.buildMessages_plan.mp hms
    have hconf := plan.configures hignores hnames hsound.owned hdistinct hupdates
    rw [← hdevice] at hconf
    obtain ⟨found, hfound, hdescribes⟩ := getByName_describes hdump hafter.toValid
    rw [hconf.ifName] at hfound
    exact ⟨found, hfound, plan.shows hdistinct hconf hdescribes⟩

def reportedDevice (sent : List NetlinkMessage) : Device :=
  sent.foldl Kernel.sample.receive WireguardParsed.sampleDevice

/-- A dump in one message, and its end. -/
def reportedReplies (D : Device) : List Reply :=
  [.ok (.fromGenl (.fromPayload ⟨.getDevice, D.report .sample⟩)), .ok ⟨{}, .done ⟨0, []⟩⟩]

/-- A link which is too busy for dumps until the peer of the device is removed. -/
def reportingLink : Link := fun sent request =>
  match request.payload with
  | .innerMessage ⟨_, ⟨.getDevice, _⟩, _⟩ =>
    if request = dumpRequest WireguardParsed.sampleDevice.ifName ∧
        sent = [setRequest removalMessage] then
      .ok (reportedReplies (reportedDevice sent))
    else .error "Device or resource busy (os error 16)"
  | _ => .ok [acknowledgement]

omit [OsError] [Base64.Engine] in
theorem reportingLink_serves : reportingLink.Serves .sample reportedDevice where
  part sent m _ := by
    refine ⟨_, List.prefix_refl _, ?_⟩
    rw [← setDevice_changes]
    exact List.foldl_append
  whole sent m replies _ _ _ _ := List.foldl_append

theorem set_reporting : set reportingLink sampleRemoval = ⟨[removalMessage], .ok ()⟩ ∧
    (set reportingLink sampleRemoval).Acknowledged reportingLink :=
  set_acknowledged (fun _ _ hm => List.mem_singleton.mp hm ▸ rfl) built_removal

omit [OsError] [Base64.Engine] in
theorem reportedDevice_removal : reportedDevice [setRequest removalMessage] =
    WireguardParsed.sampleDevice.removePeer WireguardParsed.sampleKey :=
  (@setDevice_remove .sample _ sound_sample.owned _ WireguardParsed.sampleKey).trans (if_pos rfl)

omit [OsError] [Base64.Engine] in
theorem ifName_reportedDevice : (reportedDevice [setRequest removalMessage]).ifName =
    WireguardParsed.sampleDevice.ifName := by
  rw [reportedDevice_removal]
  rfl

omit [OsError] [Base64.Engine] in
/-- Behind the removal no peer is left. -/
theorem answers_reporting : Kernel.sample.Answers (reportedDevice [setRequest removalMessage])
    (reportedReplies (reportedDevice [setRequest removalMessage])) where
  kept reply hreply := by
    rcases List.mem_cons.mp hreply with rfl | hreply
    · exact fun hfails => hfails
    · obtain rfl := List.mem_singleton.mp hreply
      exact not_not_intro rfl
  done := ⟨.ok ⟨{}, .done ⟨0, []⟩⟩, by simp [reportedReplies], rfl⟩
  dumps := .noPeers (fun key => by
    rw [reportedDevice_removal]
    by_cases hkey : key = WireguardParsed.sampleKey <;>
      simp [Device.removePeer, WireguardParsed.sampleDevice, hkey]) (.refl _)

omit [OsError] [Base64.Engine] in
theorem dumps_reporting : reportingLink.Dumps .sample (reportedDevice [setRequest removalMessage])
    [setRequest removalMessage] := by
  refine ⟨_, ?_, answers_reporting⟩
  rw [ifName_reportedDevice]
  rfl

omit [OsError] [Base64.Engine] in
theorem getByName_set_sample :
    ∃ found, @getByName Base64.standard OsError.linux (reportingLink.after
        (@set Base64.standard OsError.linux reportingLink (@sampleRemoval Base64.standard)).requests)
        (reportedDevice []).ifName = .ok found ∧
      @WireguardParsed.Shows Base64.standard found (@sampleRemoval Base64.standard) .sample :=
  letI := Base64.standard
  letI := OsError.linux
  getByName_set Kernel.lawful_sample WireguardParsed.ignores_sample reportingLink_serves sound_sample
    (.inl rfl)
    { keys := List.nodup_singleton _
      networks := List.pairwise_singleton _ _
      consistent := by
        simp [sampleRemoval, removing, WireguardPeerParsed.remove, WireguardIpAddress.Consistent] }
    (by
      intro p hp hupdates
      obtain rfl := List.mem_singleton.mp hp
      exact absurd hupdates (by decide +kernel))
    (by rw [set_reporting.1]) set_reporting.2 (by rw [set_reporting.1]; exact dumps_reporting)

/-- A dump which is kept, and sent to any interface until a call succeeds, makes
it the same device, whatever the failed calls left behind. -/
theorem retried_restores (hignores : K.ignores = WireguardPeerAttribute.isReported)
    (hD : D.Sound K) (hdumps : K.Dumps D ms) (hserves : link.Serves K device)
    (hE : (device []).Sound K)
    (h : Retried ((WireguardParsed.ofMessages ms).restoring (device []).ifName) link requests) :
    device requests = D.restored (device []) := by
  obtain ⟨sent, hsent, hrestored⟩ :=
    (WireguardParsed.describes_of_dumps hdumps).restored hignores hD hE
  rw [retried_device hserves hE.owned (.inl (WireguardParsed.restoring_replaces _ _)) h hsent,
    hrestored]

def restoringMessage : WireguardMessage :=
  ⟨.setDevice, [.ifName "wg1", .publicKey .zero, .privateKey .zero, .listenPort 0, .fwmark 0,
    .flags .replacePeers, .peers [⟨[.publicKey WireguardParsed.sampleKey, .persistentKeepalive 0,
      .rxBytes 0, .txBytes 0, .protocolVersion 1,
      .allowedIps [⟨[.cidr 24, .family .ipv4, .ipAddr (.v4 0x0a000000)]⟩]]⟩]]⟩

omit [OsError] [Base64.Engine] in
theorem retried_restores_sample :
    busyDevice .sample WireguardParsed.emptyDevice
        [setRequest restoringMessage, setRequest restoringMessage] =
      WireguardParsed.sampleDevice.restored WireguardParsed.emptyDevice :=
  letI := Base64.standard
  letI := OsError.linux
  retried_restores WireguardParsed.ignores_sample sound_sample WireguardParsed.dumps_sample
    (busyLink_serves .sample WireguardParsed.emptyDevice) WireguardParsed.sound_empty
    (@retried_busy [restoringMessage] _ _ _ (by decide +kernel))

end NlWireguard
