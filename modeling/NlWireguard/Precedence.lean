import NlWireguard.Lengths

/-!
# Which of several faults is reported

Peers are checked in order, and the properties of the device when the first message
is closed: as soon as the next chunk does not fit into it, or behind the last peer.
-/

namespace NlWireguard.WireguardParsed

open ExceptLaws

variable [Base64.Engine] {c : WireguardParsed}

/-- The fault which is found first. -/
inductive Reported (c : WireguardParsed) : WireguardError → Prop
  /-- A peer, in front of all faulty peers and of a faulty device. -/
  | peer {before after : List WireguardPeerParsed} {p : WireguardPeerParsed}
      {groups : List (List WireguardPeer)} (hpeers : c.peers.getD [] = before ++ p :: after)
      (hbefore : before.mapM peerChunks = .ok groups)
      (hopen : (∃ attrs, c.deviceAttributes = .ok attrs) ∨
        NextFit.total bufferLen groups.flatten ≤ maxNlaValueLen)
      (he : peerChunks p = .error e) : Reported c e
  /-- The device, when the peers before the first faulty one fill a message. -/
  | device {before : List WireguardPeerParsed} {groups : List (List WireguardPeer)}
      (hpeers : before <+: c.peers.getD []) (hbefore : before.mapM peerChunks = .ok groups)
      (hclosed : before = c.peers.getD [] ∨
        maxNlaValueLen < NextFit.total bufferLen groups.flatten)
      (he : c.deviceAttributes = .error e) : Reported c e

-- ---------------------------------------------------------------------------
-- Accepted peers
-- ---------------------------------------------------------------------------

theorem flush_rejected {s : Splitter} (he : c.deviceAttributes = .error e) (hs : s.messages = []) :
    c.flush cmd s = .error e := by
  simp [flush, buildMessage, hs, he]

/-- Nothing is closed as long as all chunks fit into the first message. -/
theorem pushChunks_rejected {chunks : List WireguardPeer} (he : c.deviceAttributes = .error e)
    (cmd : WireguardCmd) (s : Splitter) (hs : s.messages = []) (hempty : s.peers = [] → s.peersLen = 0)
    (hopen : s.peersLen ≤ maxNlaValueLen)
    (hchunks : ∀ chunk ∈ chunks, bufferLen chunk ≤ maxNlaValueLen) :
    chunks.foldlM (c.pushChunk cmd) s =
      if s.peersLen + NextFit.total bufferLen chunks ≤ maxNlaValueLen then
        .ok ⟨[], s.peers ++ chunks, s.peersLen + NextFit.total bufferLen chunks⟩
      else .error e := by
  induction chunks generalizing s with
  | nil =>
    rw [NextFit.total_nil, Nat.add_zero, if_pos hopen, List.append_nil, ← hs]
    rfl
  | cons chunk chunks ih =>
    obtain ⟨hchunk, hchunks⟩ := List.forall_mem_cons.mp hchunks
    rw [List.foldlM_cons, NextFit.total_cons]
    by_cases hfits : s.peersLen + bufferLen chunk ≤ maxNlaValueLen
    · have hpush : c.pushChunk cmd s chunk =
          .ok ⟨s.messages, s.peers ++ [chunk], s.peersLen + bufferLen chunk⟩ := by
        unfold pushChunk
        rw [if_neg fun hfull => absurd hfits (Nat.not_le.mpr hfull.2)]
        rfl
      have hnext := ih ⟨s.messages, s.peers ++ [chunk], s.peersLen + bufferLen chunk⟩ hs
        (fun hnil => absurd hnil (List.append_ne_nil_of_right_ne_nil _ (List.cons_ne_nil _ _)))
        hfits hchunks
      simpa only [hpush, ok_bind, List.append_assoc, List.singleton_append, Nat.add_assoc] using hnext
    · have hpeers : s.peers ≠ [] := by
        intro hnil
        rw [hempty hnil, Nat.zero_add] at hfits
        exact hfits hchunk
      have hpush : c.pushChunk cmd s chunk = .error e := by
        unfold pushChunk
        rw [if_pos ⟨hpeers, Nat.not_le.mp hfits⟩, flush_rejected he hs]
        rfl
      have hover : ¬s.peersLen + (bufferLen chunk + NextFit.total bufferLen chunks) ≤ maxNlaValueLen :=
        fun hle => hfits (Nat.le_trans (by omega) hle)
      rw [hpush, error_bind, if_neg hover]

/-- A faulty device is found as soon as the chunks need a second message. -/
theorem peersLoop_rejected {peers : List WireguardPeerParsed} {groups : List (List WireguardPeer)}
    (he : c.deviceAttributes = .error e) (cmd : WireguardCmd)
    (hgroups : peers.mapM peerChunks = .ok groups) :
    peers.foldlM (c.pushPeerChunks cmd) {} =
      if NextFit.total bufferLen groups.flatten ≤ maxNlaValueLen then
        .ok ⟨[], groups.flatten, NextFit.total bufferLen groups.flatten⟩
      else .error e := by
  have hchunks : ∀ chunk ∈ groups.flatten, bufferLen chunk ≤ maxNlaValueLen := by
    intro chunk hchunk
    obtain ⟨entries, -, rfl⟩ := WireguardPeerParsed.mapM_peerChunks_ok.mp hgroups
    obtain ⟨group, hgroup, hchunk⟩ := List.mem_flatten.mp hchunk
    obtain ⟨entry, -, rfl⟩ := List.mem_map.mp hgroup
    exact WireguardPeerParsed.bufferLen_chunks entry.peer entry.keys chunk hchunk
  have hloop := pushChunks_rejected he cmd {} rfl (fun _ => rfl) (Nat.zero_le _) hchunks
  rw [Nat.zero_add] at hloop
  exact (foldlM_flatten hgroups _).trans hloop

theorem pushChunks_accepted (h : c.deviceAttributes = .ok attrs) (cmd : WireguardCmd) (s : Splitter)
    (chunks : List WireguardPeer) : ∃ s', chunks.foldlM (c.pushChunk cmd) s = .ok s' := by
  obtain ⟨iface, keys, haccepted, -⟩ := deviceAttributes_ok.mp h
  obtain ⟨s', hs', -⟩ := foldlM_pushChunk haccepted cmd s chunks
  exact ⟨s', hs'⟩

/-- The loop passes the accepted peers when the device is accepted or not looked at. -/
theorem peersLoop_ok {peers : List WireguardPeerParsed} {groups : List (List WireguardPeer)}
    (cmd : WireguardCmd) (hgroups : peers.mapM peerChunks = .ok groups) :
    (∃ s, peers.foldlM (c.pushPeerChunks cmd) {} = .ok s) ↔
      (∃ attrs, c.deviceAttributes = .ok attrs) ∨
        NextFit.total bufferLen groups.flatten ≤ maxNlaValueLen := by
  cases hdevice : c.deviceAttributes with
  | ok attrs =>
    obtain ⟨s, hs⟩ := pushChunks_accepted hdevice cmd {} groups.flatten
    exact iff_of_true ⟨s, (foldlM_flatten hgroups _).trans hs⟩ (.inl ⟨attrs, rfl⟩)
  | error e =>
    rw [peersLoop_rejected hdevice cmd hgroups]
    split
    · rename_i hfits
      exact iff_of_true ⟨_, rfl⟩ (.inr hfits)
    · rename_i hfull
      refine iff_of_false ?_ ?_
      · rintro ⟨s, hs⟩
        exact ok_ne_error hs.symm
      · rintro (⟨attrs, hattrs⟩ | hfits)
        · exact ok_ne_error hattrs.symm
        · exact hfull hfits

-- ---------------------------------------------------------------------------
-- The first fault
-- ---------------------------------------------------------------------------

theorem Reported.of_peersLoop
    (h : (c.peers.getD []).foldlM (c.pushPeerChunks cmd) {} = .error e) : c.Reported e := by
  obtain ⟨before, p, after, s, hpeers, hbefore, hp⟩ := foldlM_error_split h
  obtain ⟨groups, hgroups, -⟩ := foldlM_flatten_ok.mp hbefore
  rcases bind_error.mp hp with he | ⟨chunks, hchunks, hpush⟩
  · exact .peer hpeers hgroups ((peersLoop_ok cmd hgroups).mp ⟨s, hbefore⟩) he
  · -- The peer itself is accepted, so its chunks do not fit any more.
    have hthrough : (before ++ [p]).mapM peerChunks = .ok (groups ++ [chunks]) := by
      simp [List.mapM_append, hgroups, hchunks, pure, Except.pure]
    have hfails : (before ++ [p]).foldlM (c.pushPeerChunks cmd) {} = .error e := by
      rw [List.foldlM_append, hbefore, ok_bind, List.foldlM_cons, hp]
      rfl
    cases hdevice : c.deviceAttributes with
    | ok attrs =>
      obtain ⟨t, ht⟩ := pushChunks_accepted hdevice cmd s chunks
      exact absurd (ht.symm.trans hpush) ok_ne_error
    | error e' =>
      rw [peersLoop_rejected hdevice cmd hthrough] at hfails
      split at hfails
      · exact absurd hfails ok_ne_error
      · rename_i hfull
        obtain rfl : e' = e := Except.error.inj hfails
        refine .device ⟨after, ?_⟩ hthrough (.inr (Nat.not_le.mp hfull)) hdevice
        rw [hpeers, List.append_assoc, List.singleton_append]

theorem Reported.of_finish {s : Splitter}
    (hloop : (c.peers.getD []).foldlM (c.pushPeerChunks cmd) {} = .ok s)
    (hflush : c.flush cmd s = .error e) : c.Reported e := by
  obtain ⟨groups, hgroups, -⟩ := foldlM_flatten_ok.mp hloop
  cases hdevice : c.deviceAttributes with
  | ok attrs =>
    obtain ⟨iface, keys, haccepted, -⟩ := deviceAttributes_ok.mp hdevice
    have hok : c.flush cmd s = .ok
        { messages := s.messages ++ [c.message cmd iface keys s.messages.isEmpty s.peers] } := by
      rw [flush, buildMessage_eq haccepted]
      rfl
    exact absurd (hok.symm.trans hflush) ok_ne_error
  | error e' =>
    rw [peersLoop_rejected hdevice cmd hgroups] at hloop
    split at hloop
    · obtain rfl := Except.ok.inj hloop
      rw [flush_rejected hdevice rfl] at hflush
      obtain rfl : e' = e := Except.error.inj hflush
      exact .device (List.prefix_refl _) hgroups (.inl rfl) hdevice
    · exact absurd hloop.symm ok_ne_error

theorem Reported.buildMessages (h : c.Reported e) (cmd : WireguardCmd) :
    c.buildMessages cmd = .error e := by
  rw [WireguardParsed.buildMessages, bind_error]
  cases h with
  | peer hpeers hbefore hopen he =>
    obtain ⟨s, hs⟩ := (peersLoop_ok cmd hbefore).mpr hopen
    left
    rw [hpeers, List.foldlM_append, hs, ok_bind, List.foldlM_cons, pushPeerChunks, he]
    rfl
  | device hpeers hbefore hclosed he =>
    obtain ⟨after, hpeers⟩ := hpeers
    have hloop := peersLoop_rejected he cmd hbefore
    split at hloop
    · rename_i hfits
      right
      have hall := hclosed.resolve_right (Nat.not_lt.mpr hfits)
      refine ⟨_, hall ▸ hloop, ?_⟩
      rw [if_pos (.inr rfl), flush_rejected he rfl]
      rfl
    · left
      rw [← hpeers, List.foldlM_append, hloop]
      rfl

/-- Of several faults exactly the first one is reported: a peer in front of the others, or the
device, when the peers in front of it fill a message or are all peers there are. -/
theorem buildMessages_reported (c : WireguardParsed) (cmd : WireguardCmd) (e : WireguardError) :
    c.buildMessages cmd = .error e ↔ c.Reported e := by
  refine ⟨fun h => ?_, fun h => h.buildMessages cmd⟩
  rcases bind_error.mp h with hloop | ⟨s, hloop, hfinish⟩
  · exact .of_peersLoop hloop
  · split at hfinish
    · rcases bind_error.mp hfinish with hflush | ⟨_, -, hpure⟩
      · exact .of_finish hloop hflush
      · exact absurd hpure ok_ne_error
    · exact absurd hfinish ok_ne_error

end NlWireguard.WireguardParsed
