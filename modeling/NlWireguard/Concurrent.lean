import NlWireguard.Frame
import NlWireguard.Lib.Interleave

/-!
# Several configurations at once

Handles can be cloned, so the messages of several configurations can arrive in
any order which keeps the one of each configuration. As long as the
configurations are about different things, this is the same as applying one
after the other.
-/

namespace NlWireguard

open Interleave

variable {K : Kernel} {D E : Device} {peer : WireguardPeer}

-- ---------------------------------------------------------------------------
-- What a message changes depends on the peers it is about
-- ---------------------------------------------------------------------------

theorem foldl_change_peers (K : Kernel) (D : Device) (cs : List Change) (key : Key) :
    (cs.foldl K.change D).peers key = cs.foldl (fun s c => c.onPeer K key s) (D.peers key) := by
  induction cs generalizing D with
  | nil => rfl
  | cons c cs ih => rw [List.foldl_cons, ih, peers_change, List.foldl_cons]

theorem entryChanges_congr (h : ∀ key, peer.publicKey? = some key → E.peers key = D.peers key) :
    E.entryChanges peer = D.entryChanges peer := by
  cases hkey : peer.publicKey? with
  | none => simp [Device.entryChanges, hkey]
  | some key => rw [entryChanges_key hkey, entryChanges_key hkey, h key hkey]

theorem entriesChanges_congr
    (h : ∀ peer ∈ peers, ∀ key, WireguardPeer.publicKey? peer = some key → E.peers key = D.peers key) :
    K.entriesChanges E peers = K.entriesChanges D peers := by
  induction peers generalizing D E with
  | nil => rfl
  | cons peer peers ih =>
    obtain ⟨hpeer, hpeers⟩ := List.forall_mem_cons.mp h
    have hfirst : E.entryChanges peer = D.entryChanges peer := entryChanges_congr hpeer
    have hnext : ∀ other ∈ peers, ∀ key, other.publicKey? = some key →
        (K.setPeer E peer).peers key = (K.setPeer D peer).peers key := by
      intro other hother key hkey
      rw [setPeer_changes, setPeer_changes, hfirst, foldl_change_peers, foldl_change_peers,
        hpeers other hother key hkey]
    rw [Kernel.entriesChanges, Kernel.entriesChanges, hfirst, ih hnext]

theorem changes_congr {m : WireguardMessage} (hanswers : E.answers = D.answers)
    (h : ∀ peer ∈ m.rawPeers, ∀ key, peer.publicKey? = some key → E.peers key = D.peers key) :
    K.changes E m = K.changes D m := by
  have hpeers (D : Device) : (D.setAttributes m.attributes).peers =
      if Bitflags.Contains ((m.attributes.findSome? (·.flags?)).getD 0) WireguardDeviceFlags.replacePeers
      then fun _ => none else D.peers := by
    rw [Device.setAttributes, Folds.foldl_frame Device.peers fun D attr _ => by cases attr <;> rfl]
    split
    · rfl
    · rfl
  have hentries : K.entriesChanges (E.setAttributes m.attributes) m.rawPeers =
      K.entriesChanges (D.setAttributes m.attributes) m.rawPeers := by
    refine entriesChanges_congr fun peer hpeer key hkey => ?_
    rw [hpeers, hpeers]
    split
    · rfl
    · exact h peer hpeer key hkey
  rw [Kernel.changes, Kernel.changes, hanswers, hentries]

-- ---------------------------------------------------------------------------
-- Changes of different peers
-- ---------------------------------------------------------------------------

theorem onNetwork_key {c : Change} (hkey : c.key? = some key) (net : Network) :
    (∀ owner, c.onNetwork K net owner = owner) ∨
    (∀ owner, c.onNetwork K net owner = if owner = some key then none else owner) ∨
    ((∀ owner, c.onNetwork K net owner = some key) ∧
      ∃ ip, c = .allowedIp key ip ∧ K.network? ip = some net ∧ ¬ip.Removes) := by
  cases c with
  | removePeer k =>
    cases hkey
    exact .inr (.inl fun _ => rfl)
  | releaseIps k =>
    cases hkey
    exact .inr (.inl fun _ => rfl)
  | allowedIp k ip =>
    cases hkey
    by_cases hnet : K.network? ip = some net
    · by_cases hr : ip.Removes
      · exact .inr (.inl fun _ => (if_pos hnet).trans (if_pos hr))
      · exact .inr (.inr ⟨fun _ => (if_pos hnet).trans (if_neg hr), ip, rfl, hnet, hr⟩)
    · exact .inl fun _ => if_neg hnet
  | peerAttribute k attr => exact .inl fun _ => rfl
  | deviceAttribute attr => exact nomatch hkey
  | removePeers => exact nomatch hkey

theorem commutes_inert (h : ∀ D : Device, D.setAttribute attr = D) (b : Change) :
    Commutes K.change (.deviceAttribute attr) b := fun D => by
  have hnone (D : Device) : K.change D (.deviceAttribute attr) = D := h D
  rw [hnone, hnone]

theorem commutes_attribute {b : Change} (hkey : b.key? = some key) (attr : WireguardAttribute) :
    Commutes K.change (.deviceAttribute attr) b := by
  intro D
  refine Device.ext_parts fun part => ?_
  rw [part_change, part_change, part_change, part_change]
  cases b with
  | deviceAttribute _ => exact nomatch hkey
  | removePeers => exact nomatch hkey
  | _ => cases part <;> rfl

theorem onPeer_comm {a b : Change} (ha : a.key? = some key) (hb : b.key? = some other)
    (hne : key ≠ other) (k : Key) (s : Option PeerState) :
    b.onPeer K k (a.onPeer K k s) = a.onPeer K k (b.onPeer K k s) := by
  by_cases hk : key = k
  · have hother : other ≠ k := fun heq => hne (hk.trans heq.symm)
    rw [Change.onPeer_other hb hother, Change.onPeer_other hb hother]
  · rw [Change.onPeer_other ha hk, Change.onPeer_other ha hk]

theorem onNetwork_comm {a b : Change} (ha : a.key? = some key) (hb : b.key? = some other)
    (hne : key ≠ other)
    (hnets : ∀ ip more, a = .allowedIp key ip → b = .allowedIp other more →
      K.network? ip = some net → K.network? more = some net → ip.Removes ∨ more.Removes)
    (owner : Option Key) :
    b.onNetwork K net (a.onNetwork K net owner) = a.onNetwork K net (b.onNetwork K net owner) := by
  rcases onNetwork_key ha net with h | h | ⟨h, ip, hip, hnet, hgiven⟩
  · rw [h, h]
  · rcases onNetwork_key hb net with h' | h' | ⟨h', -⟩
    · rw [h', h']
    · rw [h, h, h', h']
      grind
    · rw [h', h', h, if_neg fun heq => hne (Option.some.inj heq).symm]
  · rcases onNetwork_key hb net with h' | h' | ⟨-, more, hmore, hnet', hgiven'⟩
    · rw [h', h']
    · rw [h, h, h', if_neg fun heq => hne (Option.some.inj heq)]
    · exact absurd (hnets ip more hip hmore hnet hnet') (not_or.mpr ⟨hgiven, hgiven'⟩)

/-- Changes of different peers commute unless both are given the same network. -/
theorem commutes_peers {a b : Change} (ha : a.key? = some key) (hb : b.key? = some other)
    (hne : key ≠ other)
    (hnets : ∀ ip more net, a = .allowedIp key ip → b = .allowedIp other more →
      K.network? ip = some net → K.network? more = some net → ip.Removes ∨ more.Removes) :
    Commutes K.change a b := by
  intro D
  refine Device.ext_parts fun part => ?_
  rw [part_change, part_change, part_change, part_change]
  cases part with
  | settings =>
    cases a with
    | deviceAttribute _ => exact nomatch ha
    | _ =>
      cases b with
      | deviceAttribute _ => exact nomatch hb
      | _ => rfl
  | peer k => exact onPeer_comm ha hb hne k (D.peers k)
  | network net =>
    exact onNetwork_comm ha hb hne (fun ip more => hnets ip more net) (D.owner net)

variable [Base64.Engine] {c d : WireguardParsed}

/-- The configurations are about different things: neither replaces all peers,
no property is set by both, no peer is listed by both and no network is given
to peers by both. -/
structure WireguardParsed.Independent (K : Kernel) (c d : WireguardParsed) : Prop where
  left : ¬c.ReplacesPeers
  right : ¬d.ReplacesPeers
  privateKey : c.privateKey = none ∨ d.privateKey = none
  listenPort : c.listenPort = none ∨ d.listenPort = none
  fwmark : c.fwmark = none ∨ d.fwmark = none
  peers : ∀ key, c.Mentions key → ¬d.Mentions key
  networks : ∀ key other net, c.Assigns K key net → ¬d.Assigns K other net

namespace WireguardParsed

theorem Independent.commutes (h : c.Independent K d) {a b : Change} (ha : a.Asked K c)
    (hb : b.Asked K d) : Commutes K.change a b := by
  cases ha with
  | removePeers hreplaces => exact absurd hreplaces h.left
  | inert hinert => exact commutes_inert hinert b
  | @peer _ key hkey hpeer hips =>
    cases hb with
    | removePeers hreplaces => exact absurd hreplaces h.right
    | @peer _ other hkey' hpeer' hips' =>
      refine commutes_peers hkey hkey' (fun heq => h.peers key hpeer (heq ▸ hpeer')) ?_
      intro ip more net hip hmore hnet hnet'
      by_contra hgiven
      obtain ⟨hgiven, hgiven'⟩ := not_or.mp hgiven
      exact h.networks key other net (hips _ ip net hip hnet hgiven)
        (hips' _ more net hmore hnet' hgiven')
    | _ => exact (commutes_attribute hkey _).symm
  | privateKey hset =>
    cases hb with
    | removePeers hreplaces => exact absurd hreplaces h.right
    | peer hkey' => exact commutes_attribute hkey' _
    | inert hinert => exact (commutes_inert hinert _).symm
    | privateKey hset' => rcases h.privateKey with hnone | hnone <;> simp_all
    | _ => exact fun _ => rfl
  | listenPort hset =>
    cases hb with
    | removePeers hreplaces => exact absurd hreplaces h.right
    | peer hkey' => exact commutes_attribute hkey' _
    | inert hinert => exact (commutes_inert hinert _).symm
    | listenPort hset' => rcases h.listenPort with hnone | hnone <;> simp_all
    | _ => exact fun _ => rfl
  | fwmark hset =>
    cases hb with
    | removePeers hreplaces => exact absurd hreplaces h.right
    | peer hkey' => exact commutes_attribute hkey' _
    | inert hinert => exact (commutes_inert hinert _).symm
    | fwmark hset' => rcases h.fwmark with hnone | hnone <;> simp_all
    | _ => exact fun _ => rfl

theorem Plan.mentions (plan : c.Plan) (hm : m ∈ plan.messages cmd) (hpeer : peer ∈ m.rawPeers)
    (hkey : peer.publicKey? = some key) : c.Mentions key := by
  have hmem : peer ∈ plan.chunks := by
    rw [← plan.flatMap_rawPeers cmd]
    exact List.mem_flatMap.mpr ⟨m, hm, hpeer⟩
  obtain ⟨group, hgroup, hmem⟩ := List.mem_flatten.mp hmem
  obtain ⟨e, he, rfl⟩ := List.mem_map.mp hgroup
  obtain rfl : e.keys.publicKey = key :=
    Option.some.inj ((e.chunks_publicKey? peer hmem).symm.trans hkey)
  exact ⟨e.peer, plan.peers_eq ▸ List.mem_map_of_mem he, e.accepted.publicKey⟩

/-- A message of one configuration does not change what one of the other does. -/
theorem Plan.changes_setDevice (plan : c.Plan) (plan' : d.Plan) (hkept : ¬c.ReplacesPeers)
    (hpeers : ∀ key, c.Mentions key → ¬d.Mentions key) (hm : m ∈ plan.messages .setDevice)
    (hm' : m' ∈ plan'.messages .setDevice) (D : Device) :
    K.changes (K.setDevice D m) m' = K.changes D m' := by
  have hmade : K.Made (plan.messages .setDevice) D (K.setDevice D m) :=
    .of_part hm ⟨_, List.prefix_refl _, setDevice_changes K D m⟩
  have hsame : (K.setDevice D m).answers = D.answers :=
    setDevice_changes K D m ▸ foldl_change_answers K D _
  refine changes_congr hsame fun peer hpeer key hkey => ?_
  exact (plan.confined hmade).peers hkept key fun hmentions =>
    hpeers key hmentions (plan'.mentions hm' hpeer hkey)

/-- Messages of independent configurations can arrive in either order. -/
theorem Plan.commutes (plan : c.Plan) (plan' : d.Plan) (h : c.Independent K d)
    (hm : m ∈ plan.messages .setDevice) (hm' : m' ∈ plan'.messages .setDevice) :
    Commutes K.setDevice m m' := by
  intro D
  have hpeers : ∀ key, d.Mentions key → ¬c.Mentions key := fun key hd hc => h.peers key hc hd
  have hasked {c : WireguardParsed} (plan : c.Plan) {m : WireguardMessage}
      (hm : m ∈ plan.messages .setDevice) : ∀ a ∈ K.changes D m, a.Asked K c := fun a ha =>
    plan.asked (List.mem_flatMap.mpr ⟨m, hm, changes_subset K D m ha⟩)
  rw [setDevice_changes K (K.setDevice D m), plan.changes_setDevice plan' h.left h.peers hm hm',
    setDevice_changes K (K.setDevice D m'), plan'.changes_setDevice plan h.right hpeers hm' hm,
    setDevice_changes K D m, setDevice_changes K D m']
  exact foldl_comm (fun a ha b hb => h.commutes (hasked plan hm a ha) (hasked plan' hm' b hb)) D

/-- The messages of independent configurations, taken in turns and each
configuration as far as it gets, do what they do one configuration after the
other. -/
theorem interleaved_device {cs : List WireguardParsed} {queues : List (List WireguardMessage)}
    {run : List WireguardMessage}
    (hqueues : List.Forall₂ (fun c queue => ∃ ms, c.buildMessages .setDevice = .ok ms ∧ queue <+: ms)
      cs queues)
    (hindependent : cs.Pairwise (Independent K)) (hrun : Interleaved queues run) (D : Device) :
    run.foldl K.setDevice D = queues.flatten.foldl K.setDevice D := by
  refine hrun.foldl (pairwise_of_forall₂ ?_ hqueues hindependent) D
  rintro c d queue other ⟨ms, hms, hqueue⟩ ⟨ms', hms', hother⟩ hind m hm m' hm'
  obtain ⟨plan, rfl⟩ := buildMessages_plan.mp hms
  obtain ⟨plan', rfl⟩ := buildMessages_plan.mp hms'
  exact plan.commutes plan' hind (hqueue.subset hm) (hother.subset hm')

/-- A configuration of the device and one of a peer. -/
def samplePort : WireguardParsed := { ifaceName := some "wg0", listenPort := some 51820 }

def sampleKeepalive : WireguardParsed where
  ifaceName := some "wg0"
  peers := some [{ publicKey := some (encodeKey sampleKey), persistentKeepalive := some 25 }]

def portMessage : WireguardMessage := ⟨.setDevice, [.ifName "wg0", .listenPort 51820]⟩

def keepaliveMessage : WireguardMessage :=
  ⟨.setDevice, [.ifName "wg0", .peers [⟨[.publicKey sampleKey, .persistentKeepalive 25]⟩]]⟩

theorem independent_sample : samplePort.Independent .sample sampleKeepalive where
  left := by decide
  right := (by decide : ¬samplePort.ReplacesPeers)
  privateKey := .inl rfl
  listenPort := .inr rfl
  fwmark := .inl rfl
  peers key h := by
    obtain ⟨p, hp, -⟩ := h
    exact nomatch hp
  networks key other net h := by
    obtain ⟨p, hp, -⟩ := h
    exact nomatch hp

omit [Base64.Engine] in
theorem interleaved_device_sample :
    [keepaliveMessage, portMessage].foldl Kernel.sample.setDevice sampleDevice =
      [portMessage, keepaliveMessage].foldl Kernel.sample.setDevice sampleDevice :=
  letI := Base64.standard
  @interleaved_device .sample _ [samplePort, sampleKeepalive] [[portMessage], [keepaliveMessage]] _
    (.cons ⟨_, by decide +kernel, List.prefix_refl _⟩
      (.cons ⟨_, by decide +kernel, List.prefix_refl _⟩ .nil))
    (List.pairwise_pair.mpr independent_sample)
    (@Interleaved.turn _ [[portMessage]] [] [] _ _
      (@Interleaved.turn _ [] [[]] [] _ _ (.done (by simp)))) sampleDevice

end WireguardParsed

end NlWireguard
