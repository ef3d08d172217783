import Mathlib.Tactic.Common

/-!
# Addresses and times

The types of the Rust standard library which the configuration holds, with
the operations the crate uses on them: `IpAddr` and its rendering,
`SocketAddr`, and `Duration`.
-/

namespace NlWireguard

inductive IpAddr
  | v4 (octets : BitVec 32)
  | v6 (segments : BitVec 128)
  deriving DecidableEq, Repr

def IpAddr.isIpv4 : IpAddr → Bool
  | .v4 _ => true
  | .v6 _ => false

def displayIpv4 (octets : BitVec 32) : String :=
  let octet (i : Nat) := ((octets >>> (8 * (3 - i))).toNat % 256).repr
  s!"{octet 0}.{octet 1}.{octet 2}.{octet 3}"

/-- The first of the longest runs of zero segments, as its start and length. -/
def longestZeroes : (index : Nat) → (current longest : Nat × Nat) → List Nat → Nat × Nat
  | _, _, longest, [] => longest
  | index, current, longest, segment :: segments =>
    if segment = 0 then
      let current := if current.2 = 0 then (index, 1) else (current.1, current.2 + 1)
      longestZeroes (index + 1) current (if longest.2 < current.2 then current else longest) segments
    else longestZeroes (index + 1) (0, 0) longest segments

def displayIpv6 (segments : BitVec 128) : String :=
  let parts := (List.range 8).map fun i => (segments >>> (16 * (7 - i))).toNat % 65536
  let hex (parts : List Nat) : String :=
    ":".intercalate (parts.map fun part => String.ofList (Nat.toDigits 16 part))
  if segments >>> 32 = 0xffff then
    s!"::ffff:{displayIpv4 (segments.setWidth 32)}"
  else
    let zeroes := longestZeroes 0 (0, 0) (0, 0) parts
    if 1 < zeroes.2 then
      s!"{hex (parts.take zeroes.1)}::{hex (parts.drop (zeroes.1 + zeroes.2))}"
    else hex parts

def IpAddr.display : IpAddr → String
  | .v4 octets => displayIpv4 octets
  | .v6 segments => displayIpv6 segments

inductive SocketAddr
  | v4 (ip : BitVec 32) (port : UInt16)
  | v6 (ip : BitVec 128) (port : UInt16) (flowinfo scopeId : UInt32)
  deriving DecidableEq, Repr

def SocketAddr.isIpv4 : SocketAddr → Bool
  | .v4 .. => true
  | .v6 .. => false

/-- A span of time. The nanoseconds are always below one second. -/
structure Duration where
  secs : UInt64
  nanos : UInt32
  nanos_lt : nanos.toNat < 1000000000
  deriving DecidableEq, Repr

namespace Duration

/-- Nanoseconds of a second or more are carried over into the seconds. -/
def new (secs : UInt64) (nanos : UInt32) : Duration where
  secs := secs + (nanos / 1000000000).toUInt64
  nanos := nanos % 1000000000
  nanos_lt := by
    have h : (nanos % 1000000000).toNat = nanos.toNat % 1000000000 := rfl
    omega

def asSecs (d : Duration) : UInt64 := d.secs

def subsecNanos (d : Duration) : UInt32 := d.nanos

@[ext] theorem ext {a b : Duration} (hs : a.secs = b.secs) (hn : a.nanos = b.nanos) : a = b := by
  cases a
  cases b
  simp_all

def zero : Duration := ⟨0, 0, by decide⟩

theorem new_eq (secs : UInt64) (nanos : UInt32) (h : nanos.toNat < 1000000000) :
    new secs nanos = ⟨secs, nanos, h⟩ := by
  have hdiv : (nanos / 1000000000).toUInt64 = 0 := by
    apply UInt64.toNat_inj.mp
    simp [Nat.div_eq_of_lt h]
  have hmod : nanos % 1000000000 = nanos := by
    apply UInt32.toNat_inj.mp
    simp [Nat.mod_eq_of_lt h]
  ext1
  · simp [new, hdiv]
  · simp [new, hmod]

end Duration

end NlWireguard
