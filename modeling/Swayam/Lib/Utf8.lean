import Mathlib.Data.List.Basic

/-!
# UTF-8 texts

Byte strings that encode a text. An ASCII byte is a character by itself, wherever
it stands, so a text can be cut there.

* `isUtf8_append_ascii` — what stands in front of an ASCII byte and behind it are
  texts of their own.
-/

namespace Utf8

/-- `'0' <= c && c <= '9'`. -/
def isDigit (b : UInt8) : Bool := 48 ≤ b.toNat && b.toNat ≤ 57

/-- The encoding of a list of characters. -/
def IsUtf8 (t : List UInt8) : Prop := ∃ cs : List Char, t = cs.flatMap String.utf8EncodeChar

variable {x y : List UInt8} {b : UInt8}

theorem isUtf8_nil : IsUtf8 [] := ⟨[], rfl⟩

/-- Two well-formed texts are one. -/
theorem IsUtf8.append (hx : IsUtf8 x) (hy : IsUtf8 y) : IsUtf8 (x ++ y) := by
  obtain ⟨cs, rfl⟩ := hx
  obtain ⟨ds, rfl⟩ := hy
  exact ⟨cs ++ ds, (List.flatMap_append ..).symm⟩

/-- The bytes of a character are one small byte, or large ones. -/
theorem encode_cases (c : Char) :
    (∃ b : UInt8, b.toNat < 128 ∧ String.utf8EncodeChar c = [b]) ∨
      ∀ b ∈ String.utf8EncodeChar c, 128 ≤ b.toNat := by
  -- by the number of bytes; from two on each carries a marker in its upper bits
  unfold String.utf8EncodeChar
  dsimp only
  split
  · refine Or.inl ⟨_, ?_, rfl⟩
    rw [UInt8.toNat_ofNat']
    omega
  · right
    intro b hb
    split at hb
    · simp only [List.mem_cons, List.not_mem_nil, or_false] at hb
      rcases hb with rfl | rfl <;> (rw [UInt8.toNat_ofNat']; omega)
    · split at hb
      · simp only [List.mem_cons, List.not_mem_nil, or_false] at hb
        rcases hb with rfl | rfl | rfl <;> (rw [UInt8.toNat_ofNat']; omega)
      · simp only [List.mem_cons, List.not_mem_nil, or_false] at hb
        rcases hb with rfl | rfl | rfl | rfl <;> (rw [UInt8.toNat_ofNat']; omega)

/-- A byte below 128 is well formed, -/
theorem isUtf8_ascii (hb : b.toNat < 128) : IsUtf8 [b] := by
  refine ⟨[Char.ofNat b.toNat], ?_⟩
  have hval : (Char.ofNat b.toNat).val.toNat = b.toNat := by
    rw [Char.ofNat, dif_pos (Or.inl (by omega))]
    rfl
  rw [List.flatMap_singleton, String.utf8EncodeChar, hval, if_pos (by omega), UInt8.ofNat_toNat]

/-- and so is a text of them. -/
theorem isUtf8_of_ascii {t : List UInt8} (ht : t.all (fun b => b.toNat < 128) = true) :
    IsUtf8 t := by
  induction t with
  | nil => exact isUtf8_nil
  | cons b t ih =>
    rw [List.all_cons, Bool.and_eq_true, decide_eq_true_eq] at ht
    exact (isUtf8_ascii ht.1).append (ih ht.2)

/-- **A text is cut** at an ASCII byte. -/
theorem isUtf8_append_ascii (hb : b.toNat < 128) :
    IsUtf8 (x ++ b :: y) ↔ IsUtf8 x ∧ IsUtf8 y := by
  constructor
  · rintro ⟨cs, h⟩
    -- on the characters: the byte is behind the first one, or is it
    induction cs generalizing x with
    | nil => simp at h
    | cons c cs ih =>
      rw [List.flatMap_cons] at h
      rcases encode_cases c with ⟨b', hb', hc⟩ | hlarge
      · -- a character of one byte: that byte, or the first one of the front
        rw [hc] at h
        cases x with
        | nil =>
          rw [List.nil_append, List.singleton_append, List.cons.injEq] at h
          exact ⟨isUtf8_nil, cs, h.2⟩
        | cons a x =>
          rw [List.cons_append, List.singleton_append, List.cons.injEq] at h
          obtain ⟨rfl, hrest⟩ := h
          obtain ⟨hx, hy⟩ := ih hrest
          exact ⟨(isUtf8_ascii hb').append hx, hy⟩
      · -- a longer one stands in front of the byte as a whole
        rcases List.append_eq_append_iff.mp h with ⟨mid, hchar, hrest⟩ | ⟨mid, hfront, hrest⟩
        · cases mid with
          | nil =>
            rw [List.append_nil] at hchar
            rw [List.nil_append] at hrest
            obtain ⟨-, hy⟩ := ih (x := []) (by rw [List.nil_append, hrest])
            refine ⟨⟨[c], ?_⟩, hy⟩
            rw [List.flatMap_singleton, hchar]
          | cons a mid =>
            rw [List.cons_append, List.cons.injEq] at hrest
            have hmem : b ∈ String.utf8EncodeChar c := by
              rw [hchar, hrest.1]
              simp
            have hge := hlarge b hmem
            omega
        · obtain ⟨hmid, hy⟩ := ih hrest.symm
          refine ⟨?_, hy⟩
          rw [hfront]
          exact IsUtf8.append ⟨[c], (List.flatMap_singleton ..).symm⟩ hmid
  · rintro ⟨hx, hy⟩
    have hbyte : IsUtf8 ([b] ++ y) := (isUtf8_ascii hb).append hy
    exact hx.append hbyte

end Utf8
