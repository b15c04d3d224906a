import Mathlib.Data.List.GetD
import Mathlib.Data.List.Nodup

/-!
# Base64

Bytes as digits of six bits, three bytes to four digits, over an alphabet of 64
bytes. `encode` fills the last group up with the pad, `encodeUnpadded` leaves it
short; the decoders read both back.

* `decodeUnpadded_encodeUnpadded`, `decode_encode` — the round trips;
* `notMem_encodeUnpadded` — a byte outside of the alphabet can separate encoded
  texts;
* `map_encodeUnpadded` — exchanging digits is a change of the alphabet.
-/

namespace Base64

/-- `=` -/
def pad : UInt8 := 61

/-- Sixty-four digits, all different, and none of them the pad. -/
structure Alphabet where
  digits : List UInt8
  length : digits.length = 64
  nodup  : digits.Nodup
  noPad  : pad ∉ digits

namespace Alphabet

variable (a : Alphabet)

/-- The digit for six bits. -/
def digit (v : Nat) : UInt8 := a.digits.getD v pad

/-- The six bits of a digit. -/
def value (c : UInt8) : Option Nat := if c ∈ a.digits then some (a.digits.idxOf c) else none

theorem digit_mem {v : Nat} (h : v < 64) : a.digit v ∈ a.digits := by
  have hlt : v < a.digits.length := by rw [a.length]; exact h
  rw [digit, List.getD_eq_getElem _ _ hlt]
  exact List.getElem_mem hlt

theorem value_digit {v : Nat} (h : v < 64) : a.value (a.digit v) = some v := by
  have hlt : v < a.digits.length := by rw [a.length]; exact h
  rw [value, if_pos (a.digit_mem h), digit, List.getD_eq_getElem _ _ hlt,
    a.nodup.idxOf_getElem v hlt]

end Alphabet

/-! ## The encoder -/

section Encode

variable (a : Alphabet)

/-- The digits of a text, the last group as short as it is. -/
def encodeUnpadded : List UInt8 → List UInt8
  | [] => []
  | [x] => [a.digit (x.toNat / 4), a.digit (x.toNat % 4 * 16)]
  | [x, y] =>
    [a.digit (x.toNat / 4), a.digit (x.toNat % 4 * 16 + y.toNat / 16), a.digit (y.toNat % 16 * 4)]
  | x :: y :: z :: rest =>
    a.digit (x.toNat / 4) :: a.digit (x.toNat % 4 * 16 + y.toNat / 16) ::
      a.digit (y.toNat % 16 * 4 + z.toNat / 64) :: a.digit (z.toNat % 64) :: encodeUnpadded rest

/-- The pads behind a text of this length. -/
def padding (length : Nat) : List UInt8 := List.replicate ((3 - length % 3) % 3) pad

def encode (bytes : List UInt8) : List UInt8 := encodeUnpadded a bytes ++ padding bytes.length

/-- **Only digits.** -/
theorem mem_digits_of_mem_encodeUnpadded {bytes : List UInt8} {c : UInt8}
    (h : c ∈ encodeUnpadded a bytes) : c ∈ a.digits := by
  induction bytes using encodeUnpadded.induct with
  | case1 => exact absurd h List.not_mem_nil
  | case2 x =>
    have hx := x.toNat_lt
    simp only [encodeUnpadded, List.mem_cons, List.not_mem_nil, or_false] at h
    rcases h with rfl | rfl <;> exact a.digit_mem (by omega)
  | case3 x y =>
    have hx := x.toNat_lt
    have hy := y.toNat_lt
    simp only [encodeUnpadded, List.mem_cons, List.not_mem_nil, or_false] at h
    rcases h with rfl | rfl | rfl <;> exact a.digit_mem (by omega)
  | case4 x y z rest ih =>
    have hx := x.toNat_lt
    have hy := y.toNat_lt
    have hz := z.toNat_lt
    rw [encodeUnpadded, List.mem_cons, List.mem_cons, List.mem_cons, List.mem_cons] at h
    rcases h with rfl | rfl | rfl | rfl | h
    · exact a.digit_mem (by omega)
    · exact a.digit_mem (by omega)
    · exact a.digit_mem (by omega)
    · exact a.digit_mem (by omega)
    · exact ih h

/-- What is no digit does not occur. -/
theorem notMem_encodeUnpadded {c : UInt8} (h : c ∉ a.digits) (bytes : List UInt8) :
    c ∉ encodeUnpadded a bytes :=
  fun hmem => h (mem_digits_of_mem_encodeUnpadded a hmem)

/-- **Exchanging the digits** is encoding with the other alphabet. -/
theorem map_encodeUnpadded {b : Alphabet} {f : UInt8 → UInt8} (h : b.digits = a.digits.map f)
    (bytes : List UInt8) : (encodeUnpadded a bytes).map f = encodeUnpadded b bytes := by
  have hdigit : ∀ v < 64, f (a.digit v) = b.digit v := by
    intro v hv
    have hlt : v < a.digits.length := by rw [a.length]; exact hv
    have hlt' : v < (a.digits.map f).length := by rw [List.length_map]; exact hlt
    rw [Alphabet.digit, Alphabet.digit, h, List.getD_eq_getElem _ _ hlt,
      List.getD_eq_getElem _ _ hlt', List.getElem_map]
  induction bytes using encodeUnpadded.induct with
  | case1 => rfl
  | case2 x =>
    have hx := x.toNat_lt
    simp only [encodeUnpadded, List.map_cons, List.map_nil]
    rw [hdigit _ (by omega), hdigit _ (by omega)]
  | case3 x y =>
    have hx := x.toNat_lt
    have hy := y.toNat_lt
    simp only [encodeUnpadded, List.map_cons, List.map_nil]
    rw [hdigit _ (by omega), hdigit _ (by omega), hdigit _ (by omega)]
  | case4 x y z rest ih =>
    have hx := x.toNat_lt
    have hy := y.toNat_lt
    have hz := z.toNat_lt
    rw [encodeUnpadded, encodeUnpadded, List.map_cons, List.map_cons, List.map_cons,
      List.map_cons, ih, hdigit _ (by omega), hdigit _ (by omega), hdigit _ (by omega),
      hdigit _ (by omega)]

end Encode

/-! ## The decoder -/

section Decode

variable (a : Alphabet)

/-- The bytes of a row of digits; the bits that are left over in a short last group are
not looked at. -/
def decodeUnpadded : List UInt8 → Option (List UInt8)
  | [] => some []
  | [_] => none
  | [c, d] => do
    let v ← a.value c
    let w ← a.value d
    return [UInt8.ofNat (v * 4 + w / 16)]
  | [c, d, e] => do
    let v ← a.value c
    let w ← a.value d
    let u ← a.value e
    return [UInt8.ofNat (v * 4 + w / 16), UInt8.ofNat (w % 16 * 16 + u / 4)]
  | c :: d :: e :: f :: rest => do
    let v ← a.value c
    let w ← a.value d
    let u ← a.value e
    let t ← a.value f
    let bytes ← decodeUnpadded rest
    return UInt8.ofNat (v * 4 + w / 16) :: UInt8.ofNat (w % 16 * 16 + u / 4) ::
      UInt8.ofNat (u % 4 * 64 + t) :: bytes

/-- The digits in front of the first pad. -/
def decode (t : List UInt8) : Option (List UInt8) := decodeUnpadded a (t.takeWhile (· ≠ pad))

/-- Eight bits put together again. -/
theorem ofNat_of_eq {x : UInt8} {n : Nat} (h : n = x.toNat) : UInt8.ofNat n = x := by
  rw [h, UInt8.ofNat_toNat]

/-- **Every text is read back** from its digits. -/
theorem decodeUnpadded_encodeUnpadded (bytes : List UInt8) :
    decodeUnpadded a (encodeUnpadded a bytes) = some bytes := by
  induction bytes using encodeUnpadded.induct with
  | case1 => rfl
  | case2 x =>
    have hx := x.toNat_lt
    simp only [encodeUnpadded, decodeUnpadded]
    rw [a.value_digit (by omega), a.value_digit (by omega)]
    show some [UInt8.ofNat _] = _
    rw [ofNat_of_eq (x := x) (by omega)]
  | case3 x y =>
    have hx := x.toNat_lt
    have hy := y.toNat_lt
    simp only [encodeUnpadded, decodeUnpadded]
    rw [a.value_digit (by omega), a.value_digit (by omega), a.value_digit (by omega)]
    show some [UInt8.ofNat _, UInt8.ofNat _] = _
    rw [ofNat_of_eq (x := x) (by omega), ofNat_of_eq (x := y) (by omega)]
  | case4 x y z rest ih =>
    have hx := x.toNat_lt
    have hy := y.toNat_lt
    have hz := z.toNat_lt
    rw [encodeUnpadded, decodeUnpadded, a.value_digit (by omega), a.value_digit (by omega),
      a.value_digit (by omega), a.value_digit (by omega), ih]
    show some (UInt8.ofNat _ :: UInt8.ofNat _ :: UInt8.ofNat _ :: rest) = _
    rw [ofNat_of_eq (x := x) (by omega), ofNat_of_eq (x := y) (by omega),
      ofNat_of_eq (x := z) (by omega)]

/-- **And from its padded digits.** -/
theorem decode_encode (bytes : List UInt8) : decode a (encode a bytes) = some bytes := by
  have hdigits : ∀ c ∈ encodeUnpadded a bytes, c ≠ pad := fun c hc hpad =>
    notMem_encodeUnpadded a a.noPad bytes (hpad ▸ hc)
  have hpads : (padding bytes.length).takeWhile (· ≠ pad) = [] := by
    rw [padding]
    -- a pad ends the digits at once
    cases (3 - bytes.length % 3) % 3 with
    | zero => rfl
    | succ n => rw [List.replicate_succ, List.takeWhile_cons_of_neg (by simp)]
  rw [decode, encode, List.takeWhile_append_of_pos (by simpa using hdigits), hpads,
    List.append_nil, decodeUnpadded_encodeUnpadded]

end Decode

end Base64
