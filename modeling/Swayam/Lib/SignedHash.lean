import Mathlib.Data.List.Basic

/-!
# Signed and unsigned bytes in a hash

Two hash loops of the FNV kind, `h = (h ^ c) * p` on 64 bits, over the same
bytes: one takes a byte as it is, the other as a signed character, so that a
byte from 128 on flips the upper 56 bits as well.

The low bytes of the two states stay the same, and what else they differ by can
be followed from these alone (`Drift`). Behind an even number of bytes from 128
on, the difference of the states is kept; behind an odd number it is their sum,
since flipping the upper bits of a word is, up to its low byte, a change of sign.

* `xor_byte`, `xor_upper` — the two exclusive ors as sums;
* `tracks_foldl` — the drift says how far the loops are apart;
* `foldl_eq_iff` — so it says when they agree;
* `foldl_eq_of_small` — bytes below 128 never set them apart;
* `pair_diff_eq_zero_iff` — two neighbours from 128 on, alone in a text, leave no
  difference exactly when the low byte between them carries nothing.
-/

namespace SignedHash

abbrev Byte := UInt8

/-! ## Words and their low bytes -/

/-- The 56 bits above the low byte. -/
def upper : UInt64 := 0xFFFFFFFFFFFFFF00

/-- A byte as a signed character, extended to a word. -/
def signedWord (c : Byte) : UInt64 := c.toInt8.toInt64.toUInt64

/-- A byte read as signed has the upper bits set from 128 on. -/
theorem signedWord_eq (c : Byte) :
    signedWord c = if 128 ≤ c then c.toUInt64 ^^^ upper else c.toUInt64 := by
  have hall : ∀ n < 256, signedWord (UInt8.ofNat n) =
      if 128 ≤ UInt8.ofNat n then (UInt8.ofNat n).toUInt64 ^^^ upper
      else (UInt8.ofNat n).toUInt64 := by decide +kernel
  have hc := hall c.toNat c.toNat_lt
  rwa [UInt8.ofNat_toNat] at hc

/-- The sign extension keeps bytes apart. -/
theorem signedWord_injective : Function.Injective signedWord := by
  intro c c' heq
  -- it keeps the character, which can be read back
  have hback : ∀ c : Byte, (signedWord c).toInt64.toInt8.toUInt8 = c := by
    intro c
    simp [signedWord]
  rw [← hback c, heq, hback c']

/-- A byte changes the low byte only. -/
theorem xor_byte (x : UInt64) (c : Byte) :
    x ^^^ c.toUInt64 = x + ((x.toUInt8 ^^^ c).toUInt64 - x.toUInt8.toUInt64) := by
  have hc : c.toNat < 2 ^ 8 := c.toNat_lt
  have hlow : x.toUInt8.toNat < 2 ^ 8 := x.toUInt8.toNat_lt
  have hxor := Nat.xor_lt_two_pow hlow hc
  have hdiv : (x.toNat ^^^ c.toNat) / 2 ^ 8 = x.toNat / 2 ^ 8 := by
    rw [Nat.xor_div_two_pow, Nat.div_eq_of_lt hc, Nat.xor_zero]
  have hmod : (x.toNat ^^^ c.toNat) % 2 ^ 8 = x.toUInt8.toNat ^^^ c.toNat := by
    rw [Nat.xor_mod_two_pow, Nat.mod_eq_of_lt hc, UInt64.toNat_toUInt8]
  have hx := UInt64.toNat_toUInt8 x
  have hlt := x.toNat_lt
  apply UInt64.toNat.inj
  rw [UInt64.toNat_xor, UInt64.toNat_add, UInt64.toNat_sub, UInt8.toNat_toUInt64,
    UInt8.toNat_toUInt64, UInt8.toNat_toUInt64, UInt8.toNat_xor]
  omega

/-- **Flipping the upper bits** is a change of sign, up to the low byte. -/
theorem xor_upper (x : UInt64) : x ^^^ upper = 2 * x.toUInt8.toUInt64 - 256 - x := by
  -- the upper bits are all bits but those of the low byte
  have hupper : upper = -1 ^^^ (255 : UInt8).toUInt64 := by decide +kernel
  have hlow : (~~~x.toUInt8).toUInt64 = 255 - x.toUInt8.toUInt64 := by
    have hlt := x.toUInt8.toNat_lt
    apply UInt64.toNat.inj
    rw [UInt64.toNat_sub, UInt8.toNat_toUInt64, UInt8.toNat_toUInt64, UInt8.toNat_not,
      show (255 : UInt64).toNat = 255 from rfl]
    simp only [UInt8.size]
    omega
  rw [hupper, ← UInt64.xor_assoc, UInt64.xor_neg_one, xor_byte, UInt64.toUInt8_not,
    show (255 : UInt8) = -1 from rfl, UInt8.xor_neg_one, UInt8.not_not, hlow, UInt64.not_eq_neg_sub]
  grind

/-- A word is its low byte and a multiple of 256. -/
theorem exists_upper (x : UInt64) : ∃ q, x = 256 * q + x.toUInt8.toUInt64 := by
  refine ⟨UInt64.ofNat (x.toNat / 256), ?_⟩
  have hlt := x.toNat_lt
  apply UInt64.toNat.inj
  rw [UInt64.toNat_add, UInt64.toNat_mul, UInt8.toNat_toUInt64, UInt64.toNat_toUInt8,
    UInt64.toNat_ofNat', show (256 : UInt64).toNat = 256 from rfl]
  omega

/-! ## The two loops -/

/-- The step that takes the byte as it is. -/
def step (p h : UInt64) (c : Byte) : UInt64 := (h ^^^ c.toUInt64) * p

/-- The step that takes it as a signed character. -/
def signedStep (p h : UInt64) (c : Byte) : UInt64 := (h ^^^ signedWord c) * p

/-- What can be seen of the two states from their low bytes: the low byte, whether the upper bits
were flipped an odd number of times, and how far the states are apart. -/
structure Drift where
  low  : Byte
  odd  : Bool
  diff : UInt64
  deriving DecidableEq, Repr

/-- What a step carries out of the low byte, twice. -/
def carry (p : UInt64) (mixed : Byte) : UInt64 :=
  (2 * mixed.toUInt64 - 256) * p - (2 * (mixed * p.toUInt8).toUInt64 - 256)

def Drift.start (h : UInt64) : Drift := ⟨h.toUInt8, false, 0⟩

def Drift.step (p : UInt64) (d : Drift) (c : Byte) : Drift :=
  let mixed := d.low ^^^ c
  let odd := d.odd ^^ decide (128 ≤ c)
  let turned := if 128 ≤ c then -d.diff else d.diff
  ⟨mixed * p.toUInt8, odd, turned * p + if odd then carry p mixed else 0⟩

/-- The drift of a text, from a common state. -/
def drift (p h : UInt64) (t : List Byte) : Drift := t.foldl (Drift.step p) (.start h)

/-- The states of the two loops, the signed one first, are apart by this drift. -/
structure Tracks (d : Drift) (a b : UInt64) : Prop where
  lowSigned : a.toUInt8 = d.low
  low       : b.toUInt8 = d.low
  apart     : if d.odd then a + b = d.diff + 2 * d.low.toUInt64 - 256 else a = b + d.diff
  bit       : ∃ q, a = b + (if d.odd then 256 else 0) + 512 * q

section Steps

variable {p h : UInt64} {d : Drift} {a b : UInt64}

/-- One unsigned step, through its low byte. -/
theorem step_eq (c : Byte) (hlow : b.toUInt8 = d.low) :
    step p b c = (b + ((d.low ^^^ c).toUInt64 - d.low.toUInt64)) * p := by
  rw [step, xor_byte, hlow]

/-- The low byte of a step depends on the low byte alone. -/
theorem toUInt8_step (c : Byte) (hlow : b.toUInt8 = d.low) :
    (step p b c).toUInt8 = (d.low ^^^ c) * p.toUInt8 := by
  rw [step, UInt64.toUInt8_mul, UInt64.toUInt8_xor, hlow, UInt8.toUInt8_toUInt64]

/-- Below 128 the two steps are one. -/
theorem signedStep_of_small {c : Byte} (hc : ¬ 128 ≤ c) : signedStep p a c = step p a c := by
  rw [signedStep, signedWord_eq, if_neg hc, step]

/-- From 128 on the signed step reflects the upper part. -/
theorem signedStep_of_large {c : Byte} (hc : 128 ≤ c) (hlow : a.toUInt8 = d.low) :
    signedStep p a c = (2 * (d.low ^^^ c).toUInt64 - 256 -
      (a + ((d.low ^^^ c).toUInt64 - d.low.toUInt64))) * p := by
  rw [signedStep, signedWord_eq, if_pos hc, ← UInt64.xor_assoc, xor_upper, UInt64.toUInt8_xor,
    hlow, UInt8.toUInt8_toUInt64, xor_byte, hlow]

/-- The low byte steps as in the unsigned loop. -/
theorem toUInt8_signedStep (c : Byte) (hlow : a.toUInt8 = d.low) :
    (signedStep p a c).toUInt8 = (d.low ^^^ c) * p.toUInt8 := by
  by_cases hc : 128 ≤ c
  · have hupper : upper.toUInt8 = 0 := rfl
    rw [signedStep, signedWord_eq, if_pos hc, UInt64.toUInt8_mul, UInt64.toUInt8_xor,
      UInt64.toUInt8_xor, hlow, UInt8.toUInt8_toUInt64, hupper, UInt8.xor_zero]
  · rw [signedStep_of_small hc, toUInt8_step c hlow]

/-- The sum or difference that is kept, behind one more byte. -/
theorem apart_step (c : Byte) (hlowA : a.toUInt8 = d.low) (hlowB : b.toUInt8 = d.low)
    (hapart : if d.odd then a + b = d.diff + 2 * d.low.toUInt64 - 256 else a = b + d.diff) :
    if (d.step p c).odd then signedStep p a c + step p b c =
      (d.step p c).diff + 2 * (d.step p c).low.toUInt64 - 256
    else signedStep p a c = step p b c + (d.step p c).diff := by
  by_cases hc : 128 ≤ c
  · -- the sign is turned: a difference becomes a sum, and a sum a difference
    rw [signedStep_of_large hc hlowA, step_eq c hlowB]
    clear hlowA hlowB
    cases hodd : d.odd with
    | false =>
      simp only [hodd, Bool.false_eq_true, if_false] at hapart
      simp only [Drift.step, hodd, hc, decide_true, Bool.false_xor, if_true, carry]
      grind
    | true =>
      simp only [hodd, if_true] at hapart
      simp only [Drift.step, hodd, hc, decide_true, Bool.xor_self, if_true, Bool.false_eq_true,
        if_false]
      grind
  · -- below 128 both loops make the same step
    rw [signedStep_of_small hc, step_eq c hlowA, step_eq c hlowB]
    clear hlowA hlowB
    cases hodd : d.odd with
    | false =>
      simp only [hodd, Bool.false_eq_true, if_false] at hapart
      simp only [Drift.step, hodd, hc, decide_false, Bool.xor_false, Bool.false_eq_true, if_false]
      grind
    | true =>
      simp only [hodd, if_true] at hapart
      simp only [Drift.step, hodd, hc, decide_false, Bool.xor_false, if_true, if_false, carry]
      grind

/-- The ninth bit: flipped with the upper ones, and kept by an odd factor. -/
theorem bit_step {j q : UInt64} (hp : p = 2 * j + 1) (c : Byte) (hlowA : a.toUInt8 = d.low)
    (hlowB : b.toUInt8 = d.low) (hbit : a = b + (if d.odd then 256 else 0) + 512 * q) :
    ∃ q, signedStep p a c = step p b c + (if (d.step p c).odd then 256 else 0) + 512 * q := by
  obtain ⟨r, hr⟩ := exists_upper a
  rw [hlowA] at hr
  subst hp
  by_cases hc : 128 ≤ c
  · rw [signedStep_of_large hc hlowA, step_eq c hlowB]
    clear hlowA hlowB
    subst hr
    cases hodd : d.odd with
    | false =>
      simp only [hodd, Bool.false_eq_true, if_false] at hbit
      simp only [Drift.step, hodd, hc, decide_true, Bool.false_xor, if_true]
      -- the 256 of the sign is odd times `p`, which is odd
      exact ⟨(2 * j + 1) * (q - r) - j - 1, by grind -lia⟩
    | true =>
      simp only [hodd, if_true] at hbit
      simp only [Drift.step, hodd, hc, decide_true, Bool.xor_self, Bool.false_eq_true, if_false]
      exact ⟨(2 * j + 1) * (q - r), by grind -lia⟩
  · rw [signedStep_of_small hc, step_eq c hlowA, step_eq c hlowB]
    clear hlowA hlowB hr
    cases hodd : d.odd with
    | false =>
      simp only [hodd, Bool.false_eq_true, if_false] at hbit
      simp only [Drift.step, hodd, hc, decide_false, Bool.xor_false, Bool.false_eq_true, if_false]
      exact ⟨(2 * j + 1) * q, by grind -lia⟩
    | true =>
      simp only [hodd, if_true] at hbit
      simp only [Drift.step, hodd, hc, decide_false, Bool.xor_false, if_true]
      exact ⟨(2 * j + 1) * q + j, by grind -lia⟩

/-- **One byte** moves the states as it moves the drift. -/
theorem tracks_step (hp : ∃ j, p = 2 * j + 1) (ht : Tracks d a b) (c : Byte) :
    Tracks (d.step p c) (signedStep p a c) (step p b c) := by
  obtain ⟨j, hj⟩ := hp
  obtain ⟨q, hbit⟩ := ht.bit
  exact ⟨toUInt8_signedStep c ht.lowSigned, toUInt8_step c ht.low,
    apart_step c ht.lowSigned ht.low ht.apart, bit_step hj c ht.lowSigned ht.low hbit⟩

/-- **A whole text**: its drift says how far the loops are apart behind it. -/
theorem tracks_foldl (hp : ∃ j, p = 2 * j + 1) (t : List Byte) (ht : Tracks d a b) :
    Tracks (t.foldl (Drift.step p) d) (t.foldl (signedStep p) a) (t.foldl (step p) b) := by
  induction t generalizing d a b with
  | nil => exact ht
  | cons c t ih => exact ih (tracks_step hp ht c)

/-- At the start the two loops agree. -/
theorem tracks_start (h : UInt64) : Tracks (.start h) h h where
  lowSigned := rfl
  low := rfl
  apart := (UInt64.add_zero h).symm
  bit := ⟨0, by simp [Drift.start]⟩

/-- **Equal states** are those with nothing flipped and nothing kept. -/
theorem Tracks.eq_iff (ht : Tracks d a b) : a = b ↔ d.odd = false ∧ d.diff = 0 := by
  obtain ⟨-, -, hapart, q, hbit⟩ := ht
  cases hodd : d.odd with
  | false =>
    simp only [hodd, Bool.false_eq_true, if_false] at hapart
    constructor
    · intro heq
      exact ⟨rfl, by grind⟩
    · rintro ⟨-, hzero⟩
      rw [hapart, hzero, UInt64.add_zero]
  | true =>
    simp only [hodd, if_true] at hbit
    refine ⟨fun heq => ?_, fun h => absurd h.1 (by simp)⟩
    -- the states differ in their ninth bit
    have hzero : 256 + 512 * q = 0 := by grind
    have hnat := congrArg UInt64.toNat hzero
    rw [UInt64.toNat_add, UInt64.toNat_mul, show (256 : UInt64).toNat = 256 from rfl,
      show (512 : UInt64).toNat = 512 from rfl, show (0 : UInt64).toNat = 0 from rfl] at hnat
    omega

end Steps

/-- **When the two hashes agree.** -/
theorem foldl_eq_iff {p : UInt64} (hp : ∃ j, p = 2 * j + 1) (h : UInt64) (t : List Byte) :
    t.foldl (signedStep p) h = t.foldl (step p) h ↔
      (drift p h t).odd = false ∧ (drift p h t).diff = 0 :=
  (tracks_foldl hp t (tracks_start h)).eq_iff

/-! ## Small bytes, and an odd number of large ones -/

/-- Whether the bytes from 128 on are odd in number. -/
theorem odd_foldl (p : UInt64) (d : Drift) (t : List Byte) :
    (t.foldl (Drift.step p) d).odd = (d.odd ^^ decide ((t.countP (128 ≤ ·)) % 2 = 1)) := by
  induction t generalizing d with
  | nil => simp
  | cons c t ih =>
    rw [List.foldl_cons, ih, List.countP_cons]
    show ((d.odd ^^ decide (128 ≤ c)) ^^ _) = _
    by_cases hc : 128 ≤ c
    · rcases Nat.mod_two_eq_zero_or_one (t.countP (128 ≤ ·)) with hmod | hmod
      · simp [hc, hmod, Nat.add_mod]
      · simp [hc, hmod, Nat.add_mod]
    · simp [hc]

/-- Bytes below 128 keep the loops together. -/
theorem foldl_eq_of_small (p h : UInt64) {t : List Byte} (ht : ∀ c ∈ t, ¬ 128 ≤ c) :
    t.foldl (signedStep p) h = t.foldl (step p) h := by
  induction t generalizing h with
  | nil => rfl
  | cons c t ih =>
    rw [List.foldl_cons, List.foldl_cons, signedStep_of_small (ht c (List.mem_cons_self ..))]
    exact ih _ fun b hb => ht b (List.mem_cons_of_mem _ hb)

/-! ## Two large neighbours -/

section Pair

variable {p q : UInt64}

/-- A factor with an inverse leaves nothing but zero at zero. -/
theorem mul_eq_zero_iff_of_inverse (hq : p * q = 1) (x : UInt64) : x * p = 0 ↔ x = 0 := by
  constructor
  · intro hzero
    calc x = x * (p * q) := by rw [hq, UInt64.mul_one]
      _ = x * p * q := (UInt64.mul_assoc ..).symm
      _ = 0 := by rw [hzero, UInt64.zero_mul]
  · rintro rfl
    exact UInt64.zero_mul

/-- Small bytes flip nothing, and a difference they find neither goes nor comes. -/
theorem foldl_drift_of_small (hq : p * q = 1) {d : Drift} (hodd : d.odd = false) {t : List Byte}
    (ht : ∀ c ∈ t, ¬ 128 ≤ c) :
    (t.foldl (Drift.step p) d).odd = false ∧
      ((t.foldl (Drift.step p) d).diff = 0 ↔ d.diff = 0) := by
  induction t generalizing d with
  | nil => exact ⟨hodd, Iff.rfl⟩
  | cons c t ih =>
    have hc := ht c (List.mem_cons_self ..)
    have hstep : (d.step p c).odd = false := by simp [Drift.step, hodd, hc]
    -- the step multiplies the difference by the factor
    have hdiff : (d.step p c).diff = d.diff * p := by simp [Drift.step, hodd, hc]
    obtain ⟨hlast, hzero⟩ := ih hstep fun b hb => ht b (List.mem_cons_of_mem _ hb)
    refine ⟨hlast, hzero.trans ?_⟩
    rw [hdiff, mul_eq_zero_iff_of_inverse hq]

/-- **Two neighbours from 128 on**, with smaller bytes around them, leave no difference exactly
when the low byte between them carries nothing. -/
theorem pair_diff_eq_zero_iff (hq : p * q = 1) (h : UInt64) {a b : List Byte}
    (ha : ∀ c ∈ a, ¬ 128 ≤ c) (hb : ∀ c ∈ b, ¬ 128 ≤ c) {c d : Byte} (hc : 128 ≤ c)
    (hd : 128 ≤ d) :
    (drift p h (a ++ c :: d :: b)).odd = false ∧
      ((drift p h (a ++ c :: d :: b)).diff = 0 ↔ carry p ((drift p h a).low ^^^ c) = 0) := by
  obtain ⟨hodd, hdiff⟩ := foldl_drift_of_small hq (d := .start h) rfl ha
  rw [drift, List.foldl_append, List.foldl_cons, List.foldl_cons, ← drift]
  have hzero : (drift p h a).diff = 0 := hdiff.mpr rfl
  have hdrift : (drift p h a).odd = false := hodd
  -- the first flips the upper bits and adds its carry, the second flips them back
  have hpair : (((drift p h a).step p c).step p d).odd = false := by
    simp [Drift.step, hdrift, hc, hd]
  have hcarry : (((drift p h a).step p c).step p d).diff =
      -carry p ((drift p h a).low ^^^ c) * p := by
    simp [Drift.step, hdrift, hzero, hc, hd]
  obtain ⟨hlast, hkept⟩ := foldl_drift_of_small hq hpair hb
  refine ⟨hlast, hkept.trans ?_⟩
  rw [hcarry, mul_eq_zero_iff_of_inverse hq]
  constructor
  · intro hneg
    grind
  · intro hnone
    rw [hnone]
    rfl

end Pair

end SignedHash
