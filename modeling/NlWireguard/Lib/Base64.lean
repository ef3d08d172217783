import Mathlib.Data.List.Basic
import Mathlib.Tactic.Common

/-!
# Base64

`Engine` is what a user of a strict base64 codec relies on: the decoder
accepts exactly the texts the encoder writes. The standard alphabet with
canonical padding is an instance, `standard`.
-/

namespace Base64

inductive DecodeError
  | invalidByte (offset : Nat) (byte : UInt8)
  | invalidLength (length : Nat)
  | invalidLastSymbol (offset : Nat) (byte : UInt8)
  | invalidPadding
  deriving DecidableEq, Repr

def DecodeError.display : DecodeError → String
  | .invalidByte offset byte => s!"Invalid symbol {byte.toNat}, offset {offset}."
  | .invalidLength length => s!"Invalid input length: {length}"
  | .invalidLastSymbol offset byte => s!"Invalid last symbol {byte.toNat}, offset {offset}."
  | .invalidPadding => "Invalid padding"

def ofDecimal (text : String) : Nat := text.toList.foldl (fun n c => 10 * n + (c.toNat - 48)) 0

theorem ofDecimal_repr (byte : UInt8) : ofDecimal byte.toNat.repr = byte.toNat := by
  have hall : ∀ n : Fin 256, ofDecimal n.val.repr = n := by decide +kernel
  exact hall ⟨byte.toNat, byte.toNat_lt⟩

theorem repr_toNat_inj (a b : UInt8) : a.toNat.repr = b.toNat.repr ↔ a = b := by
  refine ⟨fun h => ?_, fun h => h ▸ rfl⟩
  have h := congrArg ofDecimal h
  rw [ofDecimal_repr, ofDecimal_repr] at h
  exact UInt8.toNat_inj.mp h

namespace DecodeError

def byte? : DecodeError → Option UInt8
  | .invalidByte _ byte | .invalidLastSymbol _ byte => some byte
  | .invalidLength _ | .invalidPadding => none

def withoutByte : DecodeError → DecodeError
  | .invalidByte offset _ => .invalidByte offset 0
  | .invalidLastSymbol offset _ => .invalidLastSymbol offset 0
  | e => e

theorem display_invalidByte_inj (offset : Nat) (a b : UInt8) :
    (invalidByte offset a).display = (invalidByte offset b).display ↔ a = b := by
  have hdisplay (byte : UInt8) : (invalidByte offset byte).display =
      "Invalid symbol " ++ byte.toNat.repr ++ ", offset " ++ offset.repr ++ "." := rfl
  rw [hdisplay, hdisplay, String.append_left_inj, String.append_left_inj, String.append_left_inj,
    String.append_right_inj, repr_toNat_inj]

theorem display_invalidLastSymbol_inj (offset : Nat) (a b : UInt8) :
    (invalidLastSymbol offset a).display = (invalidLastSymbol offset b).display ↔ a = b := by
  have hdisplay (byte : UInt8) : (invalidLastSymbol offset byte).display =
      "Invalid last symbol " ++ byte.toNat.repr ++ ", offset " ++ offset.repr ++ "." := rfl
  rw [hdisplay, hdisplay, String.append_left_inj, String.append_left_inj, String.append_left_inj,
    String.append_right_inj, repr_toNat_inj]

/-- Failures at one place are rendered alike exactly when the byte is the same. -/
theorem display_inj (h : withoutByte a = withoutByte b) :
    a.display = b.display ↔ a.byte? = b.byte? := by
  cases a with
  | invalidByte offset byte =>
    cases b with
    | invalidByte offset' byte' =>
      cases (invalidByte.inj h).1
      rw [display_invalidByte_inj, byte?, byte?, Option.some.injEq]
    | _ => exact nomatch h
  | invalidLastSymbol offset byte =>
    cases b with
    | invalidLastSymbol offset' byte' =>
      cases (invalidLastSymbol.inj h).1
      rw [display_invalidLastSymbol_inj, byte?, byte?, Option.some.injEq]
    | _ => exact nomatch h
  | invalidLength length =>
    cases b with
    | invalidLength length' =>
      cases invalidLength.inj h
      exact iff_of_true rfl rfl
    | _ => exact nomatch h
  | invalidPadding =>
    cases b with
    | invalidPadding => exact iff_of_true rfl rfl
    | _ => exact nomatch h

end DecodeError

class Engine where
  encode : List UInt8 → String
  decode : String → Except DecodeError (List UInt8)
  decode_encode : ∀ bytes, decode (encode bytes) = .ok bytes
  encode_of_decode : ∀ text bytes, decode text = .ok bytes → encode bytes = text

theorem Engine.encode_injective [Engine] (h : Engine.encode a = Engine.encode b) : a = b := by
  have ha := Engine.decode_encode a
  rw [h, Engine.decode_encode] at ha
  exact (Except.ok.inj ha).symm

-- ---------------------------------------------------------------------------
-- The standard alphabet
-- ---------------------------------------------------------------------------

def pad : Char := '='

def symbol (n : Nat) : Char :=
  if n < 26 then Char.ofNat (65 + n)
  else if n < 52 then Char.ofNat (71 + n)
  else if n < 62 then Char.ofNat (n - 4)
  else if n = 62 then '+' else '/'

def value? (c : Char) : Option Nat := (List.range 64).find? fun n => symbol n == c

def value (c : Char) : Nat := (value? c).getD 0

theorem value_symbol (h : n < 64) : value (symbol n) = n := by
  have hall : ∀ m : Fin 64, value (symbol m) = m := by decide +kernel
  exact hall ⟨n, h⟩

theorem symbol_ne_pad (h : n < 64) : symbol n ≠ pad := by
  have hall : ∀ m : Fin 64, symbol m ≠ pad := by decide +kernel
  exact hall ⟨n, h⟩

def encodeChars : List UInt8 → List Char
  | [] => []
  | [a] => [symbol (a.toNat / 4), symbol (a.toNat % 4 * 16), pad, pad]
  | [a, b] =>
    [symbol (a.toNat / 4), symbol (a.toNat % 4 * 16 + b.toNat / 16), symbol (b.toNat % 16 * 4), pad]
  | a :: b :: c :: rest =>
    symbol (a.toNat / 4) :: symbol (a.toNat % 4 * 16 + b.toNat / 16) ::
      symbol (b.toNat % 16 * 4 + c.toNat / 64) :: symbol (c.toNat % 64) :: encodeChars rest

/-- The bytes four symbols stand for, whether or not they are canonical. -/
def decodeGroup (x y z w : Char) : List UInt8 :=
  let a := UInt8.ofNat (value x * 4 + value y / 16)
  let b := UInt8.ofNat (value y % 16 * 16 + value z / 4)
  let c := UInt8.ofNat (value z % 4 * 64 + value w)
  if z = pad then [a] else if w = pad then [a, b] else [a, b, c]

def decodeChars : List Char → List UInt8
  | x :: y :: z :: w :: rest => decodeGroup x y z w ++ decodeChars rest
  | _ => []

theorem decodeChars_encodeChars (bytes : List UInt8) : decodeChars (encodeChars bytes) = bytes := by
  fun_induction encodeChars bytes with
  | case1 => rfl
  | case2 a =>
    have ha := a.toNat_lt
    have hx : value (symbol (a.toNat / 4)) = a.toNat / 4 := value_symbol (by omega)
    have hy : value (symbol (a.toNat % 4 * 16)) = a.toNat % 4 * 16 := value_symbol (by omega)
    have hsum : a.toNat / 4 * 4 + a.toNat % 4 * 16 / 16 = a.toNat := by omega
    simp only [decodeChars, decodeGroup, hx, hy, hsum]
    simp
  | case3 a b =>
    have ha := a.toNat_lt
    have hb := b.toNat_lt
    have hx : value (symbol (a.toNat / 4)) = a.toNat / 4 := value_symbol (by omega)
    have hy : value (symbol (a.toNat % 4 * 16 + b.toNat / 16)) = a.toNat % 4 * 16 + b.toNat / 16 :=
      value_symbol (by omega)
    have hz : value (symbol (b.toNat % 16 * 4)) = b.toNat % 16 * 4 := value_symbol (by omega)
    have hpad : symbol (b.toNat % 16 * 4) ≠ pad := symbol_ne_pad (by omega)
    have hfirst : a.toNat / 4 * 4 + (a.toNat % 4 * 16 + b.toNat / 16) / 16 = a.toNat := by omega
    have hsecond : (a.toNat % 4 * 16 + b.toNat / 16) % 16 * 16 + b.toNat % 16 * 4 / 4 = b.toNat := by
      omega
    simp only [decodeChars, decodeGroup, hx, hy, hz, hpad, hfirst, hsecond]
    simp
  | case4 a b c rest ih =>
    have ha := a.toNat_lt
    have hb := b.toNat_lt
    have hc := c.toNat_lt
    have hx : value (symbol (a.toNat / 4)) = a.toNat / 4 := value_symbol (by omega)
    have hy : value (symbol (a.toNat % 4 * 16 + b.toNat / 16)) = a.toNat % 4 * 16 + b.toNat / 16 :=
      value_symbol (by omega)
    have hz : value (symbol (b.toNat % 16 * 4 + c.toNat / 64)) = b.toNat % 16 * 4 + c.toNat / 64 :=
      value_symbol (by omega)
    have hw : value (symbol (c.toNat % 64)) = c.toNat % 64 := value_symbol (by omega)
    have hpadz : symbol (b.toNat % 16 * 4 + c.toNat / 64) ≠ pad := symbol_ne_pad (by omega)
    have hpadw : symbol (c.toNat % 64) ≠ pad := symbol_ne_pad (by omega)
    have hfirst : a.toNat / 4 * 4 + (a.toNat % 4 * 16 + b.toNat / 16) / 16 = a.toNat := by omega
    have hsecond : (a.toNat % 4 * 16 + b.toNat / 16) % 16 * 16 +
        (b.toNat % 16 * 4 + c.toNat / 64) / 4 = b.toNat := by omega
    have hthird : (b.toNat % 16 * 4 + c.toNat / 64) % 4 * 64 + c.toNat % 64 = c.toNat := by omega
    simp only [decodeChars, decodeGroup, hx, hy, hz, hw, hpadz, hpadw, hfirst, hsecond, hthird, ih]
    simp

/-- The byte is no symbol of the alphabet. The padding is none either. -/
def isInvalid (byte : UInt8) : Bool := (value? (Char.ofNat byte.toNat)).isNone

/-- What is wrong with the symbols of the last group, which starts at `start`. -/
def diagnoseLast (start : Nat) (last : List UInt8) : DecodeError :=
  let symbols := last.takeWhile (· ≠ 61)
  let padding := last.drop symbols.length
  match symbols.findIdx? isInvalid with
  | some i => .invalidByte (start + i) (symbols.getD i 0)
  | none =>
    if padding ≠ [] ∧ symbols.length < 2 ∨ padding.any (· ≠ 61) then
      .invalidByte (start + symbols.length) 61
    else if symbols.length < 2 then .invalidLength (start + symbols.length)
    else if (symbols.length + padding.length) % 4 ≠ 0 then .invalidPadding
    else .invalidLastSymbol (start + symbols.length - 1) (symbols.getLastD 0)

/-- What is wrong with a text no bytes are encoded by. A single invalid byte
behind whole groups, such as a newline, is looked for first. -/
def diagnose (text : List UInt8) : DecodeError :=
  let start := (text.length - 1) / 4 * 4
  let last := text.getLastD 0
  if text.length % 4 = 1 ∧ last ≠ 61 ∧ isInvalid last then .invalidByte (text.length - 1) last
  else
    match (text.take start).findIdx? isInvalid with
    | some i => .invalidByte i (text.getD i 0)
    | none => diagnoseLast start (text.drop start)

def encode (bytes : List UInt8) : String := String.ofList (encodeChars bytes)

def decode (text : String) : Except DecodeError (List UInt8) :=
  let bytes := decodeChars text.toList
  if encode bytes = text then .ok bytes else .error (diagnose text.toUTF8.toList)

/-- Only canonical texts are decoded: the padding is required, and the bits
of the last symbol which belong to no byte are zero. -/
@[reducible] def standard : Engine where
  encode := encode
  decode := decode
  decode_encode bytes := by
    simp [decode, encode, decodeChars_encodeChars]
  encode_of_decode text bytes h := by
    simp only [decode] at h
    split at h
    · rename_i heq
      rw [← Except.ok.inj h]
      exact heq
    · simp at h

end Base64
