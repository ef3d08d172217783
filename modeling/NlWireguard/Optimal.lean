import Mathlib.Data.List.Chain
import Mathlib.Logic.Function.Iterate
import Mathlib.Order.Bounds.Defs
import NlWireguard.Lengths

/-!
# The chunks of one peer

The loop which drains the allowed IPs of a peer takes at least one of them in
each round, so it ends. A chunk is only closed when the next allowed IP does not
fit any more, and no way to cut the peer needs fewer chunks.
-/

namespace NlWireguard

-- ---------------------------------------------------------------------------
-- Cuts of a peer
-- ---------------------------------------------------------------------------

def WireguardPeerAttribute.addIp (ip : WireguardAllowedIp) :
    WireguardPeerAttribute → WireguardPeerAttribute
  | .allowedIps ips => .allowedIps (ips ++ [ip])
  | attr => attr

def WireguardPeer.addIp (chunk : WireguardPeer) (ip : WireguardAllowedIp) : WireguardPeer :=
  ⟨chunk.attributes.map (·.addIp ip)⟩

def WireguardPeer.firstIp? (chunk : WireguardPeer) : Option WireguardAllowedIp :=
  (chunk.attributes.findSome? (·.allowedIps?)).bind List.head?

/-- `chunk` has no room for the first allowed IP of `next`. -/
def WireguardPeer.Full (chunk next : WireguardPeer) : Prop :=
  ∃ ip, next.firstIp? = some ip ∧ maxNlaValueLen < bufferLen (chunk.addIp ip)

/-- A way to send the allowed IPs of a peer in order: a first chunk with all its
state, further chunks with its public key alone, and every chunk fits. -/
inductive FittingCut (built : WireguardPeer) (ips : List WireguardAllowedIp) :
    List WireguardPeer → Prop
  | intro {key : Key} {first : List WireguardAllowedIp} {rest : List (List WireguardAllowedIp)}
      (hkey : .publicKey key ∈ built.attributes) (hall : first ++ rest.flatten = ips)
      (hfirst : bufferLen (WireguardPeer.mk (built.state ++ [.allowedIps first])) ≤ maxNlaValueLen)
      (hrest : ∀ batch ∈ rest,
        bufferLen (WireguardPeer.mk [.publicKey key, .allowedIps batch]) ≤ maxNlaValueLen) :
      FittingCut built ips (⟨built.state ++ [.allowedIps first]⟩ ::
        rest.map fun batch => ⟨[.publicKey key, .allowedIps batch]⟩)

-- ---------------------------------------------------------------------------
-- The draining loop
-- ---------------------------------------------------------------------------

/-- What one round of the loop leaves. -/
def drainRound (continuationLen : Nat) (allowedIps : List WireguardAllowedIp) :
    List WireguardAllowedIp :=
  (takeAllowedIpsBatch allowedIps continuationLen).2

/-- The loop is left after `n` rounds, at the first point where nothing remains. -/
structure DrainedAfter (continuationLen : Nat) (allowedIps : List WireguardAllowedIp) (n : Nat) :
    Prop where
  ends : (drainRound continuationLen)^[n] allowedIps = []
  before : ∀ m < n, (drainRound continuationLen)^[m] allowedIps ≠ []
  le : n ≤ allowedIps.length

theorem continuationChunks_drained (publicKey : WireguardPeerAttribute) (len : Nat)
    (ips : List WireguardAllowedIp) :
    DrainedAfter len ips (continuationChunks publicKey len ips).length := by
  fun_induction continuationChunks publicKey len ips with
  | case1 => exact ⟨rfl, fun _ h => absurd h (Nat.not_lt_zero _), Nat.zero_le _⟩
  | case2 ips hips ih =>
    refine ⟨ih.ends, fun m hm => ?_, Nat.lt_of_le_of_lt ih.le (takeAllowedIpsBatch_lt hips)⟩
    cases m with
    | zero => exact hips
    | succ m => exact ih.before m (Nat.lt_of_succ_lt_succ hm)

/-- The chunks of a peer built as `built`: found in finitely many rounds, each
one full, and no more than needed. -/
structure BestCut (built : WireguardPeer) (ips : List WireguardAllowedIp)
    (chunks : List WireguardPeer) : Prop where
  rounds : ∃ key n, .publicKey key ∈ built.attributes ∧ chunks.length = n + 1 ∧
    DrainedAfter (bufferLen (WireguardPeer.mk [.publicKey key]))
      (takeAllowedIpsBatch ips (bufferLen (WireguardPeer.mk built.state))).2 n
  maximal : chunks.IsChain WireguardPeer.Full
  least : IsLeast {n | ∃ cut, FittingCut built ips cut ∧ cut.length = n} chunks.length

-- ---------------------------------------------------------------------------
-- The batches of a peer
-- ---------------------------------------------------------------------------

theorem map_addIp_state (peer : WireguardPeer) (ip : WireguardAllowedIp) :
    peer.state.map (·.addIp ip) = peer.state := by
  refine (List.map_congr_left fun attr hattr => ?_).trans (List.map_id _)
  have hkept := (List.mem_filter.mp hattr).2
  cases attr with
  | allowedIps ips => simp [WireguardPeerAttribute.isAllowedIps] at hkept
  | _ => rfl

theorem bufferLen_addIp_continuationChunk (keys : WireguardPeerParsed.Keys)
    (batch : List WireguardAllowedIp) (ip : WireguardAllowedIp) :
    bufferLen ((WireguardPeerParsed.continuationChunk keys batch).addIp ip) =
      WireguardPeerParsed.continuationLen keys + NextFit.total bufferLen batch + bufferLen ip := by
  have hadd : (WireguardPeerParsed.continuationChunk keys batch).addIp ip =
      WireguardPeerParsed.continuationChunk keys (batch ++ [ip]) := rfl
  rw [hadd, WireguardPeerParsed.bufferLen_continuationChunk, NextFit.total_append,
    NextFit.total_cons, NextFit.total_nil]
  omega

variable [Base64.Engine]

namespace WireguardPeerParsed.Checked

theorem bufferLen_addIp_firstChunk (e : Checked) (batch : List WireguardAllowedIp)
    (ip : WireguardAllowedIp) :
    bufferLen ((e.peer.firstChunk e.keys batch).addIp ip) =
      e.peer.firstLen e.keys + NextFit.total bufferLen batch + bufferLen ip := by
  have hadd : (e.peer.firstChunk e.keys batch).addIp ip =
      e.peer.firstChunk e.keys (batch ++ [ip]) := by
    rw [WireguardPeer.addIp, firstChunk, List.map_append, ← e.state_whole, map_addIp_state,
      e.state_whole]
    rfl
  rw [hadd, bufferLen_firstChunk, NextFit.total_append, NextFit.total_cons, NextFit.total_nil]
  omega

/-- The batches of a peer which keeps its allowed IPs, the first one apart. -/
structure Batched (e : Checked) (ips first : List WireguardAllowedIp)
    (rest : List (List WireguardAllowedIp)) : Prop where
  chunks : e.chunks = e.peer.firstChunk e.keys first :: rest.map (continuationChunk e.keys)
  all : first ++ rest.flatten = ips
  nonempty : ∀ batch ∈ rest, batch ≠ []
  fits : NextFit.Fits bufferLen maxNlaValueLen (e.peer.firstLen e.keys) (continuationLen e.keys)
    (first :: rest)
  tight : NextFit.Tight bufferLen maxNlaValueLen (e.peer.firstLen e.keys) (continuationLen e.keys)
    (first :: rest)
  least : ∀ bin bins, bin ++ bins.flatten = ips →
    NextFit.Fits bufferLen maxNlaValueLen (e.peer.firstLen e.keys) (continuationLen e.keys)
      (bin :: bins) → rest.length ≤ bins.length
  drained : DrainedAfter (bufferLen (WireguardPeer.mk [.publicKey e.keys.publicKey]))
    (takeAllowedIpsBatch ips (bufferLen (WireguardPeer.mk e.whole.state))).2 rest.length

theorem chunks_nil (e : Checked) (hips : e.peer.allowedIps = some ips) (hkept : ¬e.peer.Removes)
    (hbatches : e.peer.batches e.keys ips = []) : e.chunks = [e.peer.firstChunk e.keys []] := by
  simp [chunks, WireguardPeerParsed.chunks, hips, hkept, hbatches]

theorem chunks_cons (e : Checked) (hips : e.peer.allowedIps = some ips) (hkept : ¬e.peer.Removes)
    (hbatches : e.peer.batches e.keys ips = first :: rest) :
    e.chunks = e.peer.firstChunk e.keys first :: rest.map (continuationChunk e.keys) := by
  simp [chunks, WireguardPeerParsed.chunks, hips, hkept, hbatches]

theorem drainedAfter (e : Checked) (hnil : ips.map WireguardIpAddress.toAllowedIp ≠ [])
    (hbatches : e.peer.batches e.keys ips = first :: rest) :
    DrainedAfter (bufferLen (WireguardPeer.mk [.publicKey e.keys.publicKey]))
      (takeAllowedIpsBatch (ips.map WireguardIpAddress.toAllowedIp)
        (bufferLen (WireguardPeer.mk e.whole.state))).2 rest.length := by
  have hrest : rest = NextFit.pack bufferLen maxNlaValueLen (continuationLen e.keys)
      (continuationLen e.keys) [] (takeAllowedIpsBatch (ips.map WireguardIpAddress.toAllowedIp)
        (bufferLen (WireguardPeer.mk e.whole.state))).2 := by
    have hunfold := @NextFit.pack_unfold _ bufferLen maxNlaValueLen (continuationLen e.keys) _
      (e.peer.firstLen e.keys) hnil
    rw [← batches, hbatches] at hunfold
    rw [(List.cons.inj hunfold).2, e.state_whole, bufferLen_peer]
    rfl
  have hdrained := continuationChunks_drained (.publicKey e.keys.publicKey)
    (bufferLen (WireguardPeer.mk [.publicKey e.keys.publicKey]))
    (takeAllowedIpsBatch (ips.map WireguardIpAddress.toAllowedIp)
      (bufferLen (WireguardPeer.mk e.whole.state))).2
  rw [continuationChunks_eq, List.length_map] at hdrained
  have hlen : bufferLen (WireguardPeer.mk [.publicKey e.keys.publicKey]) + nlaHeaderSize =
      continuationLen e.keys := by
    rw [← continuationLen_eq]
    rfl
  rwa [hlen, ← hrest] at hdrained

theorem exists_batched (e : Checked) (hips : e.peer.allowedIps = some ips)
    (hkept : ¬e.peer.Removes) :
    ∃ first rest, e.Batched (ips.map WireguardIpAddress.toAllowedIp) first rest := by
  by_cases hnil : ips.map WireguardIpAddress.toAllowedIp = []
  · have hbatches : e.peer.batches e.keys ips = [] := by simp [batches, hnil, NextFit.pack]
    rw [hnil]
    refine ⟨[], [], ?_⟩
    exact
      { chunks := e.chunks_nil hips hkept hbatches
        all := rfl
        nonempty := by simp
        fits := ⟨Nat.le_trans (e.peer.firstLen_le e.keys) (by decide), by simp⟩
        tight := trivial
        least := fun _ _ _ _ => Nat.zero_le _
        drained := ⟨rfl, fun _ h => absurd h (Nat.not_lt_zero _), Nat.zero_le _⟩ }
  · have hne : e.peer.batches e.keys ips ≠ [] := NextFit.pack_ne_nil hnil
    obtain ⟨first, rest, hbatches⟩ := List.exists_cons_of_ne_nil hne
    have hnonempty : ∀ batch ∈ e.peer.batches e.keys ips, batch ≠ [] :=
      fun _ => NextFit.ne_nil_of_mem_pack
    have hflatten : (e.peer.batches e.keys ips).flatten = ips.map WireguardIpAddress.toAllowedIp :=
      NextFit.pack_flatten _ [] _
    have hfits := e.peer.batches_fit e.keys ips
    have htight : NextFit.Tight bufferLen maxNlaValueLen (e.peer.firstLen e.keys)
        (continuationLen e.keys) (e.peer.batches e.keys ips) := NextFit.pack_tight rfl
    rw [hbatches] at hnonempty hflatten hfits htight
    refine ⟨first, rest, ?_⟩
    exact
      { chunks := e.chunks_cons hips hkept hbatches
        all := hflatten
        nonempty := fun batch hbatch => hnonempty batch (List.mem_cons_of_mem _ hbatch)
        fits := hfits
        tight := htight
        least := fun bin bins hall hcut => by
          have hle : (e.peer.batches e.keys ips).length ≤ (bin :: bins).length :=
            NextFit.pack_length_le hcut hall
          rw [hbatches] at hle
          exact Nat.le_of_succ_le_succ hle
        drained := e.drainedAfter hnil hbatches }

variable {e : Checked} {ips first : List WireguardAllowedIp}

theorem Batched.fittingCut (h : e.Batched ips first rest) : FittingCut e.whole ips e.chunks := by
  have hchunks : e.chunks = ⟨e.whole.state ++ [.allowedIps first]⟩ ::
      rest.map fun batch => ⟨[.publicKey e.keys.publicKey, .allowedIps batch]⟩ := by
    rw [h.chunks, e.state_whole]
    rfl
  rw [hchunks]
  refine .intro e.publicKey_mem h.all ?_ fun batch hbatch => ?_
  · have hfirst := h.fits.1
    rwa [← bufferLen_firstChunk, firstChunk, ← e.state_whole] at hfirst
  · have hfurther := h.fits.2 batch hbatch
    rwa [← bufferLen_continuationChunk] at hfurther

/-- Any other way to cut the peer yields batches which fit. -/
theorem Batched.length_le (h : e.Batched ips first rest) (hcut : FittingCut e.whole ips cut) :
    e.chunks.length ≤ cut.length := by
  obtain ⟨-, hall, hfirst, hrest⟩ := hcut
  rw [h.chunks, List.length_cons, List.length_map, List.length_cons, List.length_map]
  refine Nat.succ_le_succ (h.least _ _ hall ⟨?_, fun batch hbatch => ?_⟩)
  · rwa [← bufferLen_firstChunk, firstChunk, ← e.state_whole]
  · rw [← bufferLen_continuationChunk]
    exact hrest batch hbatch

theorem Batched.isChain_full (h : e.Batched ips first rest) :
    e.chunks.IsChain WireguardPeer.Full := by
  have hrest : (rest.map (continuationChunk e.keys)).IsChain WireguardPeer.Full := by
    rw [List.isChain_map]
    refine ((h.tight.tail h.nonempty).isChain h.nonempty).imp fun batch next hfull => ?_
    obtain ⟨ip, hhead, hlen⟩ := hfull
    exact ⟨ip, hhead, by rwa [bufferLen_addIp_continuationChunk]⟩
  rw [h.chunks]
  cases rest with
  | nil => exact .singleton _
  | cons batch more =>
    obtain ⟨ip, ips, rfl⟩ := List.exists_cons_of_ne_nil (h.nonempty batch (by simp))
    have hlen := h.tight.1
    rw [← bufferLen_addIp_firstChunk] at hlen
    exact .cons_cons ⟨ip, rfl, hlen⟩ hrest

end WireguardPeerParsed.Checked

-- ---------------------------------------------------------------------------
-- Splitting a peer
-- ---------------------------------------------------------------------------

/-- Splitting a peer ends, and yields as few chunks as possible. -/
theorem peerChunks_best {p : WireguardPeerParsed} {ips : List WireguardIpAddress}
    (h : peerChunks p = .ok chunks) (hips : p.allowedIps = some ips) (hkept : ¬p.Removes) :
    ∃ built, p.build = .ok built ∧
      BestCut built (ips.map WireguardIpAddress.toAllowedIp) chunks := by
  obtain ⟨keys, haccepted, rfl⟩ := WireguardPeerParsed.peerChunks_ok.mp h
  let e : WireguardPeerParsed.Checked := ⟨p, keys, haccepted⟩
  obtain ⟨first, rest, hbatched⟩ := e.exists_batched hips hkept
  refine ⟨e.whole, e.build, ?_⟩
  refine
    { rounds := ⟨keys.publicKey, rest.length, e.publicKey_mem, ?_, hbatched.drained⟩
      maximal := hbatched.isChain_full
      least := ⟨⟨e.chunks, hbatched.fittingCut, rfl⟩, ?_⟩ }
  · have hlen := congrArg List.length hbatched.chunks
    rwa [List.length_cons, List.length_map] at hlen
  · rintro _ ⟨cut, hcut, rfl⟩
    exact hbatched.length_le hcut

omit [Base64.Engine] in
theorem peerChunks_best_sample :
    ∃ built, @WireguardPeerParsed.build Base64.standard
        (@WireguardPeerParsed.largePeer Base64.standard [] 3000) = .ok built ∧
      BestCut built ((WireguardPeerParsed.largeIps 3000).map WireguardIpAddress.toAllowedIp)
        (@WireguardPeerParsed.Checked.chunks Base64.standard
          (@WireguardPeerParsed.Checked.large Base64.standard [] 3000)) :=
  letI := Base64.standard
  peerChunks_best (WireguardPeerParsed.Checked.large [] 3000).peerChunks rfl
    (WireguardPeerParsed.not_removes_large 3000)

end NlWireguard
