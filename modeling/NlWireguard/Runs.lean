import NlWireguard.Reading

/-!
# Runs of peers

Whatever messages arrive, the peers which are read are the ones which arrived,
each run of neighbours with one key merged into a single peer. Nothing else is
assumed: keys may be missing, and come again in any place.
-/

namespace NlWireguard

variable [Base64.Engine]

-- ---------------------------------------------------------------------------
-- All peers which arrive
-- ---------------------------------------------------------------------------

namespace WireguardParsed

/-- The peers of all messages in the order of their arrival. -/
def rawPeers (ms : List WireguardMessage) : List WireguardPeerParsed :=
  (ms.flatMap (·.rawPeers)).map .ofPeer

theorem foldl_read_rawPeers (ret : WireguardParsed) (attrs : List WireguardAttribute) :
    (attrs.foldl read ret).peers.getD [] =
      readPeers (ret.peers.getD []) (attrs.filterMap (·.peers?)).flatten := by
  induction attrs generalizing ret with
  | nil => rfl
  | cons attr attrs ih =>
    rw [List.foldl_cons, ih]
    cases attr with
    | peers entries =>
      rw [read_peers]
      exact (readPeers_append _ _ _).symm
    | _ => rfl

theorem foldl_readMessage_rawPeers (ret : WireguardParsed) (ms : List WireguardMessage) :
    (ms.foldl readMessage ret).peers.getD [] =
      readPeers (ret.peers.getD []) (ms.flatMap (·.rawPeers)) := by
  induction ms generalizing ret with
  | nil => rfl
  | cons m ms ih =>
    have hm : (ret.readMessage m).peers.getD [] = readPeers (ret.peers.getD []) m.rawPeers :=
      foldl_read_rawPeers ret m.attributes
    rw [List.foldl_cons, ih, hm, List.flatMap_cons, readPeers_append]

theorem ofMessages_peers (ms : List WireguardMessage) :
    (ofMessages ms).peers.getD [] = WireguardPeerParsed.merging.coalesce (rawPeers ms) :=
  (foldl_readMessage_rawPeers {} ms).trans (WireguardPeerParsed.merging.foldl_push _)

end WireguardParsed

-- ---------------------------------------------------------------------------
-- One run
-- ---------------------------------------------------------------------------

namespace WireguardPeerParsed

/-- The allowed IPs of a peer, each with the key it belongs to. -/
def routes (p : WireguardPeerParsed) : List (Option String × WireguardIpAddress) :=
  (p.allowedIps.getD []).map (p.publicKey, ·)

/-- `p` is what the peers of `run` are merged into: each property is the first
one there is, lists are joined. Several peers are only merged if all of them
have the same key. -/
structure MergedFrom (p : WireguardPeerParsed) (run : List WireguardPeerParsed) : Prop where
  endpoint : p.endpoint = run.findSome? (·.endpoint)
  publicKey : p.publicKey = run.findSome? (·.publicKey)
  presharedKey : p.presharedKey = run.findSome? (·.presharedKey)
  persistentKeepalive : p.persistentKeepalive = run.findSome? (·.persistentKeepalive)
  lastHandshake : p.lastHandshake = run.findSome? (·.lastHandshake)
  rxBytes : p.rxBytes = run.findSome? (·.rxBytes)
  txBytes : p.txBytes = run.findSome? (·.txBytes)
  protocolVersion : p.protocolVersion = run.findSome? (·.protocolVersion)
  allowedIps : p.allowedIps.getD [] = run.flatMap (·.allowedIps.getD [])
  allowedIps_isSome : p.allowedIps.isSome = run.any (·.allowedIps.isSome)
  flags : p.flags.getD [] = run.flatMap (·.flags.getD [])
  flags_isSome : p.flags.isSome = run.any (·.flags.isSome)
  ne_nil : run ≠ []
  sameKey : 1 < run.length → ∃ key, ∀ q ∈ run, q.publicKey = some key

omit [Base64.Engine] in
theorem allowedIps_merge (a b : WireguardPeerParsed) :
    (a.mergeContinuation b).allowedIps.getD [] = a.allowedIps.getD [] ++ b.allowedIps.getD [] := by
  cases ha : a.allowedIps <;> cases hb : b.allowedIps <;> simp [mergeContinuation, ha, hb]

omit [Base64.Engine] in
theorem allowedIps_merge_isSome (a b : WireguardPeerParsed) :
    (a.mergeContinuation b).allowedIps.isSome = (a.allowedIps.isSome || b.allowedIps.isSome) := by
  cases ha : a.allowedIps <;> cases hb : b.allowedIps <;> simp [mergeContinuation, ha, hb]

omit [Base64.Engine] in
theorem flags_merge (a b : WireguardPeerParsed) :
    (a.mergeContinuation b).flags.getD [] = a.flags.getD [] ++ b.flags.getD [] := by
  cases hb : b.flags <;> simp [mergeContinuation, hb]

omit [Base64.Engine] in
theorem flags_merge_isSome (a b : WireguardPeerParsed) :
    (a.mergeContinuation b).flags.isSome = (a.flags.isSome || b.flags.isSome) := by
  cases hb : b.flags <;> simp [mergeContinuation, hb]

omit [Base64.Engine] in
theorem routes_merge (a b : WireguardPeerParsed) (h : merging.Continues a b) :
    (a.mergeContinuation b).routes = a.routes ++ b.routes := by
  have hkey : (a.mergeContinuation b).publicKey = a.publicKey :=
    merging.key_merge a b (h.2 ▸ h.1)
  have hsame : a.publicKey = b.publicKey := h.2
  rw [routes, allowedIps_merge, hkey, List.map_append, routes, routes, ← hsame]

omit [Base64.Engine] in
theorem mergedFrom_of_pieces (h : merging.Pieces p run) : MergedFrom p run := by
  obtain @⟨cs, first, hcs, rfl⟩ := h
  have hfirst {β : Type} {part : WireguardPeerParsed → Option β}
      (h : ∀ a b, part (mergeContinuation a b) = (part a).or (part b)) :
      part (cs.foldl merging.merge first) = (first :: cs).findSome? part :=
    Folds.foldl_first part h first cs
  refine
    { endpoint := hfirst fun _ _ => rfl
      publicKey := hfirst fun _ _ => rfl
      presharedKey := hfirst fun _ _ => rfl
      persistentKeepalive := hfirst fun _ _ => rfl
      lastHandshake := hfirst fun _ _ => rfl
      rxBytes := hfirst fun _ _ => rfl
      txBytes := hfirst fun _ _ => rfl
      protocolVersion := hfirst fun _ _ => rfl
      allowedIps := Folds.foldl_join (·.allowedIps.getD []) allowedIps_merge first cs
      allowedIps_isSome := Folds.foldl_any (·.allowedIps.isSome) allowedIps_merge_isSome first cs
      flags := Folds.foldl_join (·.flags.getD []) flags_merge first cs
      flags_isSome := Folds.foldl_any (·.flags.isSome) flags_merge_isSome first cs
      ne_nil := List.cons_ne_nil first cs
      sameKey := fun hlen => ?_ }
  cases cs with
  | nil => simp at hlen
  | cons c cs =>
    obtain ⟨key, hkey⟩ := Option.isSome_iff_exists.mp (hcs c (by simp)).1
    have hfirst : first.publicKey = some key := (hcs c (by simp)).2.trans hkey
    exact ⟨key, List.forall_mem_cons.mpr ⟨hfirst, fun q hq => (hcs q hq).2.symm.trans hfirst⟩⟩

-- ---------------------------------------------------------------------------
-- All runs
-- ---------------------------------------------------------------------------

/-- `peers` are the peers of `raw`, coalesced. -/
structure Coalesced (raw peers : List WireguardPeerParsed) : Prop where
  separate : peers.IsChain fun a b => ¬(b.publicKey.isSome ∧ a.publicKey = b.publicKey)
  routes : peers.flatMap (·.routes) = raw.flatMap (·.routes)
  runs : ∃ runs, runs.flatten = raw ∧ List.Forall₂ MergedFrom peers runs
  again : peers.foldl pushPeer [] = peers

omit [Base64.Engine] in
theorem coalesced (raw : List WireguardPeerParsed) : Coalesced raw (merging.coalesce raw) where
  separate := merging.separate_coalesce raw
  routes := merging.flatMap_coalesce routes_merge raw
  runs :=
    let ⟨runs, hflat, hruns⟩ := merging.coalesce_runs raw
    ⟨runs, hflat, hruns.imp fun _ _ => mergedFrom_of_pieces⟩
  again := by
    rw [pushPeer_eq]
    exact merging.foldl_push_coalesce raw

end WireguardPeerParsed

/-- Reading coalesces the peers of any messages. -/
theorem WireguardParsed.ofMessages_coalesced (ms : List WireguardMessage) :
    WireguardPeerParsed.Coalesced (rawPeers ms) ((ofMessages ms).peers.getD []) := by
  rw [ofMessages_peers]
  exact WireguardPeerParsed.coalesced (rawPeers ms)

end NlWireguard
