import NlWireguard.Cut

/-!
# Reading in batches

What a sequence of replies says is what its parts say, one after the other, so
replies can be read in any batches. A single message is read by a conversion of
its own, which neither merges peers nor adds to flags.
-/

namespace NlWireguard.WireguardParsed

open WireguardPeerParsed (merging pushPeer_eq)

variable [Base64.Engine]

-- ---------------------------------------------------------------------------
-- Batches
-- ---------------------------------------------------------------------------

/-- What was read, and then `more`. -/
def andThen (ret more : WireguardParsed) : WireguardParsed where
  ifaceName := more.ifaceName.or ret.ifaceName
  ifaceIndex := more.ifaceIndex.or ret.ifaceIndex
  publicKey := more.publicKey.or ret.publicKey
  privateKey := more.privateKey.or ret.privateKey
  listenPort := more.listenPort.or ret.listenPort
  fwmark := more.fwmark.or ret.fwmark
  peers := (more.peers.map fun peers => peers.foldl pushPeer (ret.peers.getD [])).or ret.peers
  flags := (more.flags.map fun flags => ret.flags.getD [] ++ flags).or ret.flags

omit [Base64.Engine] in
@[simp] theorem andThen_nothing (ret : WireguardParsed) : ret.andThen {} = ret := by
  simp [andThen]

omit [Base64.Engine] in
theorem pushPeers_andThen (before : List WireguardPeerParsed) (peers : Option (List WireguardPeerParsed))
    (more : List WireguardPeerParsed) :
    more.foldl pushPeer ((peers.map fun peers => peers.foldl pushPeer before).getD before) =
      (more.foldl pushPeer (peers.getD [])).foldl pushPeer before := by
  simp only [pushPeer_eq]
  rw [merging.foldl_push_foldl]
  cases peers <;> rfl

theorem read_andThen (ret more : WireguardParsed) (attr : WireguardAttribute) :
    (ret.andThen more).read attr = ret.andThen (more.read attr) := by
  cases attr with
  | peers entries =>
    have hpeers := pushPeers_andThen (ret.peers.getD []) more.peers (entries.map .ofPeer)
    cases hmore : more.peers <;> simpa [andThen, read, hmore, List.foldl_map] using hpeers
  | flags flagBits => cases hmore : more.flags <;> simp [andThen, read, hmore]
  | _ => simp [andThen, read]

theorem readMessage_andThen (ret more : WireguardParsed) (m : WireguardMessage) :
    (ret.andThen more).readMessage m = ret.andThen (more.readMessage m) :=
  List.foldl_hom ret.andThen fun more attr => ret.read_andThen more attr

theorem ofMessages_append (ms more : List WireguardMessage) :
    ofMessages (ms ++ more) = (ofMessages ms).andThen (ofMessages more) := by
  have hmore : more.foldl readMessage ((ofMessages ms).andThen {}) =
      (ofMessages ms).andThen (more.foldl readMessage {}) :=
    List.foldl_hom (ofMessages ms).andThen fun parsed m => (ofMessages ms).readMessage_andThen parsed m
  rw [andThen_nothing] at hmore
  rw [ofMessages, List.foldl_append]
  exact hmore

/-- Replies can be read in any batches. -/
theorem ofMessages_batches (batches : List (List WireguardMessage)) :
    ofMessages batches.flatten = (batches.map ofMessages).foldl andThen {} := by
  induction batches using List.reverseRecOn with
  | nil => rfl
  | append_singleton batches batch ih =>
    rw [List.flatten_append, List.flatten_singleton, ofMessages_append, ih, List.map_append,
      List.foldl_append]
    rfl

-- ---------------------------------------------------------------------------
-- Single messages
-- ---------------------------------------------------------------------------

/-- `Peers` and `Flags` stand at most once in the attributes, and not at all when they
were read before. -/
structure Fresh (attrs : List WireguardAttribute) (before : WireguardParsed) : Prop where
  peers : before.peers.toList.length + (attrs.filterMap (·.peers?)).length ≤ 1
  flags : before.flags.toList.length + (attrs.filterMap (·.flags?)).length ≤ 1

omit [Base64.Engine] in
theorem length_filterMap_cons (f : α → Option β) (x : α) (xs : List α) :
    ((x :: xs).filterMap f).length = (f x).toList.length + (xs.filterMap f).length := by
  cases hx : f x with
  | none => rw [List.filterMap_cons_none hx, Option.toList_none, List.length_nil, Nat.zero_add]
  | some y =>
    rw [List.filterMap_cons_some hx, Option.toList_some, List.length_cons, List.length_singleton,
      Nat.add_comm]

theorem readSingle_peers (before : WireguardParsed) (attr : WireguardAttribute) :
    (before.readSingle attr).peers.toList.length ≤
      before.peers.toList.length + attr.peers?.toList.length := by
  cases attr with
  | peers entries => exact Nat.le_add_left 1 _
  | _ => exact Nat.le_refl _

theorem readSingle_flags (before : WireguardParsed) (attr : WireguardAttribute) :
    (before.readSingle attr).flags.toList.length ≤
      before.flags.toList.length + attr.flags?.toList.length := by
  cases attr with
  | flags flagBits => exact Nat.le_add_left 1 _
  | _ => exact Nat.le_refl _

theorem Fresh.step (h : Fresh (attr :: attrs) before) : Fresh attrs (before.readSingle attr) := by
  obtain ⟨hpeers, hflags⟩ := h
  rw [length_filterMap_cons, ← Nat.add_assoc] at hpeers hflags
  constructor
  · exact Nat.le_trans (Nat.add_le_add_right (before.readSingle_peers attr) _) hpeers
  · exact Nat.le_trans (Nat.add_le_add_right (before.readSingle_flags attr) _) hflags

theorem Fresh.read_andThen (h : Fresh (attr :: attrs) more) (ret : WireguardParsed) :
    (ret.andThen more).read attr = ret.andThen (more.readSingle attr) := by
  have hnone {β : Type} {before : Option β} {n : Nat} (h : before.toList.length + (1 + n) ≤ 1) :
      before = none := by
    cases before with
    | none => rfl
    | some _ =>
      rw [Option.toList_some, List.length_singleton] at h
      omega
  obtain ⟨hpeers, hflags⟩ := h
  rw [length_filterMap_cons] at hpeers hflags
  cases attr with
  | peers entries =>
    have hmore : more.peers = none := hnone hpeers
    simp [andThen, read, readSingle, hmore, List.foldl_map]
  | flags flagBits =>
    have hmore : more.flags = none := hnone hflags
    simp [andThen, read, readSingle, hmore]
  | _ => simp [andThen, read, readSingle]

theorem Fresh.foldl_read (h : Fresh attrs more) (ret : WireguardParsed) :
    attrs.foldl read (ret.andThen more) = ret.andThen (attrs.foldl readSingle more) := by
  induction attrs generalizing more with
  | nil => rfl
  | cons attr attrs ih => rw [List.foldl_cons, h.read_andThen, ih h.step, List.foldl_cons]

theorem Fresh.readMessage (h : Fresh m.attributes {}) (ret : WireguardParsed) :
    ret.readMessage m = ret.andThen (ofMessage m) := by
  have hread := h.foldl_read ret
  rwa [andThen_nothing] at hread

omit [Base64.Engine] in
/-- Nothing is merged by what no neighbours share a key in. -/
theorem nothing_andThen (c : WireguardParsed) :
    andThen {} c = c ↔ merging.Separate (c.peers.getD []) := by
  have hpeers : andThen {} c = { c with peers := c.peers.map merging.coalesce } := by
    simp [andThen, pushPeer_eq, merging.foldl_push]
  rw [hpeers]
  cases hc : c.peers with
  | none =>
    refine iff_of_true ?_ .nil
    rw [Option.map_none, ← hc]
  | some peers =>
    constructor
    · intro h
      have hsame : merging.coalesce peers = peers := by
        simpa [hc] using congrArg WireguardParsed.peers h
      exact hsame ▸ merging.separate_coalesce peers
    · intro (h : merging.Separate peers)
      rw [Option.map_some, merging.coalesce_separate h, ← hc]

/-- A list of messages is read by reading each alone and merging what was read; a
single one is read the same either way if no neighbouring peers share a key. -/
theorem ofMessages_ofMessage (h : ∀ m ∈ ms, Fresh m.attributes {}) :
    ofMessages ms = (ms.map ofMessage).foldl andThen {} ∧
      ∀ m ∈ ms, ofMessages [m] = ofMessage m ↔ merging.Separate ((ofMessage m).peers.getD []) := by
  constructor
  · rw [ofMessages, List.foldl_map]
    exact List.foldl_ext _ _ _ fun ret m hm => (h m hm).readMessage ret
  · intro m hm
    rw [← nothing_andThen, ← (h m hm).readMessage]
    rfl

omit [Base64.Engine] in
theorem ofMessages_ofMessage_sample :
    @ofMessages Base64.standard sampleReplies =
        (sampleReplies.map (@ofMessage Base64.standard)).foldl andThen {} ∧
      ∀ m ∈ sampleReplies, @ofMessages Base64.standard [m] = @ofMessage Base64.standard m ↔
        merging.Separate ((@ofMessage Base64.standard m).peers.getD []) :=
  @ofMessages_ofMessage Base64.standard sampleReplies fun m hm => by
    rcases List.mem_pair.mp hm with rfl | rfl <;> exact ⟨by decide, by decide⟩

end NlWireguard.WireguardParsed
