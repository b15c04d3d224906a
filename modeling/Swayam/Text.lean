import Mathlib.Algebra.Group.Nat.Defs
import Mathlib.Data.List.Basic
import Mathlib.Data.List.Induction
import Swayam.Lib.Delimited
import Swayam.Lib.Utf8

/-!
# SWAYAM — text

Strings of the program are byte strings (`std::string`): `Text` is a list of
bytes. String literals are given by `ascii`, `std::to_string` by `decimal`
and `decimalInt`.

What the ledgers rely on is proved here once: a decimal is not empty, holds
digits only (so no separator of any ledger occurs in it), and determines its
number. The other way round a text of digits is a decimal unless it has a zero
too many in front (`decimal_ofDecimal`).
-/

namespace Swayam

abbrev Byte := UInt8

abbrev Text := List Byte

/-- The bytes of an ASCII character and of an ASCII literal. -/
def asciiByte (c : Char) : Byte := UInt8.ofNat c.toNat

def ascii (s : String) : Text := s.toList.map asciiByte

def newline : Byte := asciiByte '\n'
def comma : Byte := asciiByte ','
def sharp : Byte := asciiByte '#'

export Utf8 (isDigit)

/-- `std::to_string` of an unsigned value. -/
def decimal (n : Nat) : Text := (Nat.toDigits 10 n).map asciiByte

/-- `std::to_string` of a signed value. -/
def decimalInt : Int → Text
  | .ofNat n => decimal n
  | .negSucc n => asciiByte '-' :: decimal (n + 1)

/-- The number that a decimal stands for. -/
def ofDecimal (t : Text) : Nat := Nat.ofDigitChars 10 (t.map fun b => Char.ofNat b.toNat) 0

def ofDecimalInt (t : Text) : Int :=
  if t.head? = some (asciiByte '-') then -(ofDecimal t.tail : Int) else ofDecimal t

/-- What stands in front of the first `stop`, from the position `n` on. -/
def fieldAt (n : Nat) (stop : Byte) (t : Text) : Text := (t.drop n).takeWhile (· ≠ stop)

/-- A check of every byte, by computation. -/
theorem eq_false_of_any {p : Byte → Bool} {t : Text} (h : t.any p = false) :
    ∀ b ∈ t, p b = false := by
  intro b hb
  rw [List.any_eq_false] at h
  exact Bool.not_eq_true _ ▸ h b hb

/-- A byte outside a class is in no text of it. -/
theorem notMem_of_all {p : Byte → Bool} {t : Text} (h : ∀ b ∈ t, p b = true) {b : Byte}
    (hb : p b = false) : b ∉ t := by
  intro hmem
  rw [h b hmem] at hb
  exact Bool.noConfusion hb

/-! ## Decimals -/

/-- A number is written with at least one digit, -/
theorem decimal_ne_nil (n : Nat) : decimal n ≠ [] := by
  simp [decimal]

/-- Decimal digits as characters keep their code as bytes. -/
private theorem toNat_asciiByte {c : Char} (h : c.isDigit) :
    (asciiByte c).toNat = c.toNat ∧ 48 ≤ c.toNat ∧ c.toNat ≤ 57 := by
  rw [Char.isDigit, Bool.and_eq_true, decide_eq_true_eq, decide_eq_true_eq] at h
  have hlo : 48 ≤ c.toNat := UInt32.le_iff_toNat_le.mp h.1
  have hhi : c.toNat ≤ 57 := UInt32.le_iff_toNat_le.mp h.2
  refine ⟨?_, hlo, hhi⟩
  rw [asciiByte, UInt8.toNat_ofNat']
  omega

/-- with digits only, -/
theorem isDigit_of_mem_decimal {n : Nat} {b : Byte} (h : b ∈ decimal n) : isDigit b = true := by
  rw [decimal, List.mem_map] at h
  obtain ⟨c, hc, rfl⟩ := h
  have hd := Nat.isDigit_of_mem_toDigits (by decide) (by decide) hc
  obtain ⟨heq, hlo, hhi⟩ := toNat_asciiByte hd
  simp [isDigit, heq, hlo, hhi]

/-- No separator occurs in a decimal. -/
theorem notMem_decimal {b : Byte} (hb : isDigit b = false) (n : Nat) : b ∉ decimal n :=
  notMem_of_all (fun _ => isDigit_of_mem_decimal) hb

/-- The digits of a decimal, read back as characters. -/
private theorem map_decimal (n : Nat) :
    (decimal n).map (fun b => Char.ofNat b.toNat) = Nat.toDigits 10 n := by
  have hback : ∀ c ∈ Nat.toDigits 10 n,
      ((fun b => Char.ofNat b.toNat) ∘ asciiByte) c = id c := by
    intro c hc
    have hd := Nat.isDigit_of_mem_toDigits (by decide) (by decide) hc
    rw [Function.comp_apply, (toNat_asciiByte hd).1, Char.ofNat_toNat, id]
  rw [decimal, List.map_map, List.map_congr_left hback, List.map_id]

/-- and read back from them. -/
theorem ofDecimal_decimal (n : Nat) : ofDecimal (decimal n) = n := by
  rw [ofDecimal, map_decimal, Nat.ofDigitChars_ten_toDigits]

/-- `std::to_string` is injective. -/
theorem decimal_injective : Function.Injective decimal := by
  intro m n h
  rw [← ofDecimal_decimal m, h, ofDecimal_decimal]

theorem isDigit_iff {b : Byte} : isDigit b = true ↔ 48 ≤ b.toNat ∧ b.toNat ≤ 57 := by
  rw [isDigit, Bool.and_eq_true, decide_eq_true_eq, decide_eq_true_eq]

/-- The digits of a text, read one further. -/
theorem ofDecimal_concat (t : Text) {b : Byte} (hb : isDigit b = true) :
    ofDecimal (t ++ [b]) = 10 * ofDecimal t + (b.toNat - 48) := by
  have hdigit := isDigit_iff.mp hb
  have hchar : (Char.ofNat b.toNat).toNat = b.toNat := by
    rw [Char.ofNat, dif_pos (Or.inl (by omega))]
    rfl
  rw [ofDecimal, List.map_append, Nat.ofDigitChars_append, ← ofDecimal, List.map_singleton,
    Nat.ofDigitChars_cons, Nat.ofDigitChars_nil, hchar]
  rfl

/-- The digits bound the number, -/
theorem ofDecimal_lt {t : Text} (ht : t.all isDigit = true) : ofDecimal t < 10 ^ t.length := by
  induction t using List.reverseRecOn with
  | nil => simp [ofDecimal]
  | append_singleton t b ih =>
    rw [List.all_append, Bool.and_eq_true, List.all_cons, Bool.and_eq_true] at ht
    have hdigit := isDigit_iff.mp ht.2.1
    have hshort := ih ht.1
    rw [ofDecimal_concat t ht.2.1, List.length_append, List.length_singleton, Nat.pow_succ]
    omega

/-- and the number its digits. -/
theorem length_decimal_le_iff {n k : Nat} (hk : 0 < k) : (decimal n).length ≤ k ↔ n < 10 ^ k := by
  rw [decimal, List.length_map, Nat.length_toDigits_le_iff (by decide) hk]

/-- One digit, -/
theorem decimal_digit {b : Byte} (hb : isDigit b = true) : decimal (b.toNat - 48) = [b] := by
  have hall : ∀ k < 10, decimal k = [UInt8.ofNat (k + 48)] := by decide
  have hdigit := isDigit_iff.mp hb
  rw [hall _ (by omega), show b.toNat - 48 + 48 = b.toNat by omega, UInt8.ofNat_toNat]

/-- and one more behind a number. -/
theorem decimal_concat {n : Nat} (hn : 0 < n) {b : Byte} (hb : isDigit b = true) :
    decimal (10 * n + (b.toNat - 48)) = decimal n ++ [b] := by
  have hdigit := isDigit_iff.mp hb
  rw [← decimal_digit hb, decimal, decimal, decimal, ← List.map_append,
    Nat.toDigits_append_toDigits (by decide) hn (by omega)]

/-- The digit that a decimal does not start with, but for that of zero. -/
def zeroDigit : Byte := asciiByte '0'

/-- Only zero starts with a zero. -/
theorem decimal_head_ne_zero {n : Nat} (h : (decimal n).head? = some zeroDigit) :
    decimal n = [zeroDigit] := by
  cases hsplit : decimal n with
  | nil => exact absurd hsplit (decimal_ne_nil n)
  | cons b t =>
    rw [hsplit, List.head?_cons, Option.some.injEq] at h
    subst h
    rcases Nat.eq_zero_or_pos t.length with hnil | hpos
    · rw [List.length_eq_zero_iff.mp hnil]
    · exfalso
      -- the zero adds nothing: the number has room in the digits behind it
      have hdigits : t.all isDigit = true := List.all_eq_true.mpr fun b hb =>
        isDigit_of_mem_decimal (n := n) (hsplit ▸ List.mem_cons_of_mem _ hb)
      have hn : n = ofDecimal t := by
        rw [← ofDecimal_decimal n, hsplit]
        simp [ofDecimal, Nat.ofDigitChars_cons, zeroDigit, asciiByte]
      have hlen : (decimal n).length ≤ t.length :=
        (length_decimal_le_iff hpos).mpr (hn ▸ ofDecimal_lt hdigits)
      rw [hsplit, List.length_cons] at hlen
      omega

/-- **A text of digits is a decimal**, unless it has a zero too many in front. -/
theorem decimal_ofDecimal {t : Text} (hne : t ≠ []) (ht : t.all isDigit = true)
    (hzero : t.head? = some zeroDigit → t = [zeroDigit]) : decimal (ofDecimal t) = t := by
  induction t using List.reverseRecOn with
  | nil => exact absurd rfl hne
  | append_singleton t b ih =>
    rw [List.all_append, Bool.and_eq_true, List.all_cons, Bool.and_eq_true] at ht
    obtain ⟨hfront, hlast, -⟩ := ht
    rw [ofDecimal_concat t hlast]
    by_cases hnil : t = []
    · subst hnil
      rw [show ofDecimal [] = 0 from rfl, Nat.mul_zero, Nat.zero_add, decimal_digit hlast]
      rfl
    · have hhead : t.head? ≠ some zeroDigit := by
        intro h
        have hall : t ++ [b] = [zeroDigit] := hzero (by rw [List.head?_append_of_ne_nil _ hnil, h])
        have hlen := congrArg List.length hall
        have hpos := List.length_pos_of_ne_nil hnil
        rw [List.length_append, List.length_singleton, List.length_singleton] at hlen
        omega
      have hback : decimal (ofDecimal t) = t := ih hnil hfront fun h => absurd h hhead
      have hpos : 0 < ofDecimal t := by
        rw [Nat.pos_iff_ne_zero]
        intro h
        rw [h] at hback
        exact hhead (hback ▸ rfl)
      rw [decimal_concat hpos hlast, hback]

/-- An integer has no byte but digits and a minus. -/
theorem notMem_decimalInt {b : Byte} (hb : isDigit b = false) (hminus : b ≠ asciiByte '-')
    (i : Int) : b ∉ decimalInt i := by
  cases i with
  | ofNat n => exact notMem_decimal hb n
  | negSucc n =>
    rw [decimalInt, List.mem_cons, not_or]
    exact ⟨hminus, notMem_decimal hb (n + 1)⟩

/-- A signed decimal is read back. -/
theorem ofDecimalInt_decimalInt (i : Int) : ofDecimalInt (decimalInt i) = i := by
  cases i with
  | ofNat n =>
    rw [decimalInt, ofDecimalInt, if_neg, ofDecimal_decimal]
    · rfl
    · intro hhead
      exact notMem_decimal (b := asciiByte '-') rfl n (List.mem_of_mem_head? hhead)
  | negSucc n =>
    rw [decimalInt, ofDecimalInt, List.head?_cons, if_pos rfl, List.tail_cons, ofDecimal_decimal]
    rfl

/-! ## Fields -/

/-- A field behind a known text is found at its place. -/
theorem fieldAt_append {front field : Text} {stop : Byte} (hstop : stop ∉ field) (rest : Text) :
    fieldAt front.length stop (front ++ (field ++ stop :: rest)) = field := by
  rw [fieldAt, List.drop_left, List.takeWhile_append_of_pos]
  · simp
  · intro b hb
    have hne : b ≠ stop := fun h => hstop (h ▸ hb)
    simpa using hne

end Swayam
