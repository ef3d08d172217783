import Mathlib.Algebra.Group.Nat.Defs
import NlWireguard.PeerLaws

/-!
# Times of the last handshake

The kernel tells the time of a handshake as two signed numbers, `Duration`
holds unsigned ones. Reading checks the range of both. Building checks
nothing: seconds from `2 ^ 63` on are sent as negative ones.
-/

namespace NlWireguard

open WireguardPeerParsed

-- ---------------------------------------------------------------------------
-- Signed and unsigned numbers
-- ---------------------------------------------------------------------------

theorem toInt_toInt64 (n : UInt64) (h : n.toNat < 2 ^ 63) : n.toInt64.toInt = n.toNat := by
  have hbits : n.toBitVec.toNat = n.toNat := rfl
  rw [← Int64.toInt_toBitVec, UInt64.toBitVec_toInt64, BitVec.toInt_eq_toNat_of_lt (by omega), hbits]

theorem toInt64_eq_zero (n : UInt64) : n.toInt64 = 0 ↔ n = 0 :=
  ⟨fun h => congrArg Int64.toUInt64 h, fun h => congrArg UInt64.toInt64 h⟩

theorem toUInt64_eq_zero (n : UInt32) : n.toUInt64 = 0 ↔ n = 0 := by
  refine ⟨fun h => ?_, fun h => congrArg UInt32.toUInt64 h⟩
  simpa using congrArg UInt64.toUInt32 h

theorem toInt64_nonneg (n : UInt64) : 0 ≤ n.toInt64 ↔ n.toNat < 2 ^ 63 := by
  have hbits : n.toBitVec.toNat = n.toNat := rfl
  rw [Int64.le_iff_toInt_le, ← Int64.toInt_toBitVec n.toInt64, UInt64.toBitVec_toInt64,
    BitVec.toInt_eq_toNat_cond, hbits]
  have hlt : n.toNat < 2 ^ 64 := n.toNat_lt
  have hzero : (0 : Int64).toInt = 0 := rfl
  rw [hzero]
  split <;> omega

theorem toNat_toUInt64 (n : Int64) (h : 0 ≤ n) : (n.toUInt64.toNat : Int) = n.toInt := by
  have hlt : n.toUInt64.toNat < 2 ^ 63 := by
    rw [← toInt64_nonneg]
    exact h
  rw [← toInt_toInt64 _ hlt]
  rfl

theorem toUInt64_toUInt32 (n : UInt64) (h : n.toNat < 2 ^ 32) : n.toUInt32.toUInt64 = n := by
  apply UInt64.toNat_inj.mp
  simpa using h

namespace WireguardTimeSpec

-- ---------------------------------------------------------------------------
-- One attribute
-- ---------------------------------------------------------------------------

/-- A time at which there was a handshake, and which `Duration` can hold. -/
structure InRange (t : WireguardTimeSpec) : Prop where
  seconds : 0 ≤ t.seconds
  nanoSeconds : 0 ≤ t.nanoSeconds
  nanoSeconds_lt : t.nanoSeconds < nanosPerSecond
  ne_zero : ¬(t.seconds = 0 ∧ t.nanoSeconds = 0)

/-- The time as building a peer casts it. -/
def ofDuration (d : Duration) : WireguardTimeSpec :=
  ⟨d.asSecs.toInt64, d.subsecNanos.toUInt64.toInt64⟩

theorem ofDuration_injective (h : ofDuration a = ofDuration b) : a = b := by
  simp only [ofDuration, mk.injEq] at h
  have hsecs : a.secs = b.secs := congrArg Int64.toUInt64 h.1
  have hnanos : a.nanos.toUInt64 = b.nanos.toUInt64 := congrArg Int64.toUInt64 h.2
  exact Duration.ext hsecs (by simpa using congrArg UInt64.toUInt32 hnanos)

theorem InRange.toNat_lt {t : WireguardTimeSpec} (h : t.InRange) :
    t.nanoSeconds.toUInt64.toNat < 1000000000 := by
  have hlt := Int64.lt_iff_toInt_lt.mp h.nanoSeconds_lt
  rw [← toNat_toUInt64 _ h.nanoSeconds] at hlt
  have hsecond : nanosPerSecond.toInt = 1000000000 := rfl
  omega

theorem InRange.subsec_eq {t : WireguardTimeSpec} (h : t.InRange) :
    t.nanoSeconds.toUInt64.toUInt32.toUInt64 = t.nanoSeconds.toUInt64 := by
  have hlt := h.toNat_lt
  exact toUInt64_toUInt32 _ (by omega)

theorem InRange.toNat_subsec {t : WireguardTimeSpec} (h : t.InRange) :
    (t.nanoSeconds.toUInt64.toUInt32.toNat : Int) = t.nanoSeconds.toInt := by
  rw [← toNat_toUInt64 _ h.nanoSeconds, ← h.subsec_eq, UInt32.toNat_toUInt64]
  simp

theorem InRange.subsec_lt {t : WireguardTimeSpec} (h : t.InRange) :
    t.nanoSeconds.toUInt64.toUInt32.toNat < 1000000000 := by
  rw [← UInt32.toNat_toUInt64, h.subsec_eq]
  exact h.toNat_lt

theorem InRange.ofDuration_new {t : WireguardTimeSpec} (h : t.InRange) :
    ofDuration (.new t.seconds.toUInt64 t.nanoSeconds.toUInt64.toUInt32) = t := by
  rw [Duration.new_eq _ _ h.subsec_lt]
  obtain ⟨seconds, nanoSeconds⟩ := t
  simp only [ofDuration, Duration.asSecs, Duration.subsecNanos, h.subsec_eq]
  rfl

/-- Reading yields the one `Duration` which is built into the time, if it is in
range, and nothing else. -/
theorem readLastHandshake_some :
    readLastHandshake none t = some d ↔ t.InRange ∧ ofDuration d = t := by
  unfold readLastHandshake
  constructor
  · intro h
    split at h
    · simp at h
    rename_i hzero
    split at h
    · rename_i hrange
      have ht : t.InRange := ⟨hrange.1, hrange.2.1, hrange.2.2, hzero⟩
      cases h
      exact ⟨ht, ht.ofDuration_new⟩
    · simp at h
  · rintro ⟨ht, hd⟩
    rw [if_neg ht.ne_zero, if_pos ⟨ht.seconds, ht.nanoSeconds, ht.nanoSeconds_lt⟩]
    exact congrArg some (ofDuration_injective (ht.ofDuration_new.trans hd.symm))

/-- The cast of a time is in range as long as its seconds are. -/
theorem inRange_ofDuration {d : Duration} (h : d ≠ .zero) :
    (ofDuration d).InRange ↔ d.asSecs.toNat < 2 ^ 63 := by
  rw [← toInt64_nonneg]
  refine ⟨InRange.seconds, fun hsecs => ?_⟩
  obtain ⟨secs, nanos, hlt⟩ := d
  have hnat : nanos.toUInt64.toNat = nanos.toNat := by simp
  refine ⟨hsecs, (toInt64_nonneg _).mpr ?_, Int64.lt_iff_toInt_lt.mpr ?_, ?_⟩
  · simp only [Duration.subsecNanos, hnat]
    omega
  · have hsecond : nanosPerSecond.toInt = 1000000000 := rfl
    simp only [ofDuration, Duration.subsecNanos]
    rw [toInt_toInt64 _ (by omega), hnat, hsecond]
    omega
  · rintro ⟨hsecs, hnanos⟩
    refine h (Duration.ext ((toInt64_eq_zero _).mp hsecs) ?_)
    exact (toUInt64_eq_zero _).mp ((toInt64_eq_zero _).mp hnanos)

end WireguardTimeSpec

-- ---------------------------------------------------------------------------
-- Peers
-- ---------------------------------------------------------------------------

def WireguardPeerAttribute.lastHandshake? : WireguardPeerAttribute → Option WireguardTimeSpec
  | lastHandshake time => some time
  | _ => none

def WireguardPeer.handshakes (peer : WireguardPeer) : List WireguardTimeSpec :=
  peer.attributes.filterMap (·.lastHandshake?)

variable [Base64.Engine]

namespace WireguardPeerParsed

theorem foldl_read_lastHandshake (ret : WireguardPeerParsed) (attrs : List WireguardPeerAttribute) :
    (attrs.foldl read ret).lastHandshake =
      (attrs.filterMap (·.lastHandshake?)).foldl readLastHandshake ret.lastHandshake := by
  induction attrs generalizing ret with
  | nil => rfl
  | cons attr attrs ih =>
    rw [List.foldl_cons, ih]
    cases attr <;> rfl

/-- Only its times of a handshake decide on the one a peer is read with. -/
theorem ofPeer_lastHandshake (peer : WireguardPeer) :
    (ofPeer peer).lastHandshake = peer.handshakes.foldl readLastHandshake none :=
  foldl_read_lastHandshake {} peer.attributes

theorem ofPeer_handshake (h : peer.handshakes = [t]) :
    (ofPeer peer).lastHandshake = some d ↔ t.InRange ∧ .ofDuration d = t := by
  rw [ofPeer_lastHandshake, h]
  exact WireguardTimeSpec.readLastHandshake_some

theorem handshakes_build {p : WireguardPeerParsed} (h : p.build = .ok built) :
    built.handshakes = p.lastHandshake.toList.map .ofDuration := by
  obtain ⟨keys, -, rfl⟩ := build_ok.mp h
  have hbefore : (p.attributesBefore keys).filterMap (·.lastHandshake?) =
      p.lastHandshake.toList.map .ofDuration := by
    cases hd : p.lastHandshake <;>
      simp [attributesBefore, filterMap_emit, hd, WireguardPeerAttribute.lastHandshake?,
        WireguardTimeSpec.ofDuration]
  have hrest : (p.ipAttributes ++ p.attributesAfter).filterMap (·.lastHandshake?) = [] := by
    simp [ipAttributes, attributesAfter, filterMap_emit, WireguardPeerAttribute.lastHandshake?]
  rw [WireguardPeer.handshakes, attributes, List.append_assoc, List.filterMap_append, hbefore, hrest,
    List.append_nil]

theorem handshakes_build_some {p : WireguardPeerParsed} (hd : p.lastHandshake = some d)
    (h : p.build = .ok built) : built.handshakes = [.ofDuration d] := by
  rw [handshakes_build h, hd]
  rfl

/-- The time is read if it is in range, and what it is read as is built into
the same time. -/
def ReadsLossless (t : WireguardTimeSpec) : Prop :=
  ∀ peer : WireguardPeer, peer.handshakes = [t] →
    ((∃ d, (ofPeer peer).lastHandshake = some d) ↔ t.InRange) ∧
      ∀ d, (ofPeer peer).lastHandshake = some d →
        ∀ (p : WireguardPeerParsed) built, p.lastHandshake = some d → p.build = .ok built →
          built.handshakes = [t]

/-- The peer comes with one time, not a negative one, and it is read as `d`. -/
def SendsBack (d : Duration) (built : WireguardPeer) : Prop :=
  ∃ t, built.handshakes = [t] ∧ 0 ≤ t.seconds ∧ (ofPeer built).lastHandshake = some d

def KeepsHandshake (p : WireguardPeerParsed) : Prop :=
  ∀ d built, p.lastHandshake = some d → d ≠ .zero → p.build = .ok built → SendsBack d built

theorem readsLossless (t : WireguardTimeSpec) : ReadsLossless t := by
  refine fun peer hone => ⟨⟨fun ⟨d, hd⟩ => ?_, fun ht => ?_⟩, fun d hd p built hp hbuild => ?_⟩
  · exact ((ofPeer_handshake hone).mp hd).1
  · exact ⟨_, (ofPeer_handshake hone).mpr ⟨ht, ht.ofDuration_new⟩⟩
  · rw [handshakes_build_some hp hbuild, ((ofPeer_handshake hone).mp hd).2]

theorem sendsBack_iff {p : WireguardPeerParsed} (hd : p.lastHandshake = some d) (hne : d ≠ .zero)
    (h : p.build = .ok built) : SendsBack d built ↔ d.asSecs.toNat < 2 ^ 63 := by
  have hone : built.handshakes = [.ofDuration d] := handshakes_build_some hd h
  rw [← WireguardTimeSpec.inRange_ofDuration hne]
  constructor
  · rintro ⟨t, -, -, hback⟩
    exact ((ofPeer_handshake hone).mp hback).1
  · intro ht
    exact ⟨_, hone, ht.seconds, (ofPeer_handshake hone).mpr ⟨ht, rfl⟩⟩

/-- Reading a time loses nothing, and building one loses nothing if and only
if its seconds fit into a signed number. -/
theorem lastHandshake_lossless :
    (∀ t, ReadsLossless t) ∧
      ∀ (p : WireguardPeerParsed) d built, p.lastHandshake = some d → d ≠ .zero →
        p.build = .ok built → (SendsBack d built ↔ d.asSecs.toNat < 2 ^ 63) :=
  ⟨readsLossless, fun _ _ _ => sendsBack_iff⟩

def lateHandshake : Duration := ⟨9223372036854775808, 0, Duration.zero.nanos_lt⟩

def latePeer : WireguardPeerParsed where
  publicKey := some (encodeKey .zero)
  lastHandshake := some lateHandshake

omit [Base64.Engine] in
theorem lateHandshake_ne_zero : lateHandshake ≠ .zero := by decide +kernel

omit [Base64.Engine] in
theorem not_keepsHandshake : ¬@KeepsHandshake Base64.standard (@latePeer Base64.standard) := by
  intro h
  let _ := Base64.standard
  have hkeys : latePeer.Accepted ⟨.zero, none⟩ := ⟨rfl, rfl, by simp [latePeer]⟩
  have hbuild : latePeer.build = .ok ⟨latePeer.attributes ⟨.zero, none⟩⟩ :=
    build_ok.mpr ⟨_, hkeys, rfl⟩
  have hback : SendsBack lateHandshake _ := h lateHandshake _ rfl lateHandshake_ne_zero hbuild
  exact absurd ((sendsBack_iff rfl lateHandshake_ne_zero hbuild).mp hback) (by decide)

end WireguardPeerParsed

end NlWireguard
