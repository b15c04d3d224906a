import Mathlib.Data.List.Basic

/-!
# Transfer in parts

A list is handed over to a partner who takes as much of it as he likes each time, may
ask to be asked again, and may break off. The sender asks as long as something is left,
and gives up after so many requests to be asked again.

* `taken_prefix` — what the partner has is the front of the list, wherever it ends;
* `asked_le` — a transfer asks no more often than there are elements and retries;
* `taken_eq_iff` — the partner has everything exactly when he took it before he broke
  off and before the retries were used up.
-/

namespace Transfer

/-- What the partner answers. -/
inductive Answer
  | moved (n : Nat)      -- `n + 1` elements are taken, or what is left
  | again
  | failed
  deriving DecidableEq, Repr

/-- How many elements the partner offers to take. -/
def Answer.room : Answer → Nat
  | .moved n => n + 1
  | .again => 0
  | .failed => 0

/-- How many he offers to take in all. -/
def rooms : List Answer → Nat
  | [] => 0
  | answer :: answers => answer.room + rooms answers

structure Outcome (α : Type*) where
  taken : List α
  asked : Nat
  ended : Bool      -- the sender waits for no more answers
  deriving DecidableEq, Repr

variable {α : Type*}

/-- `while (!left.empty() && retries > 0)`, with these answers. -/
def transfer : List α → Nat → List Answer → Outcome α
  | left, retries, [] => ⟨[], 0, left.isEmpty || retries == 0⟩
  | left, retries, answer :: answers =>
    if left.isEmpty || retries == 0 then ⟨[], 0, true⟩
    else match answer with
      | .moved n =>
        let rest := transfer (left.drop (n + 1)) retries answers
        ⟨left.take (n + 1) ++ rest.taken, rest.asked + 1, rest.ended⟩
      | .again =>
        -- nothing was moved, one try is gone
        let rest := transfer left (retries - 1) answers
        { rest with asked := rest.asked + 1 }
      | .failed => ⟨[], 1, true⟩

/-! ## One answer -/

/-- Nothing left, or no retries: nothing is asked. -/
theorem transfer_stop {left : List α} {retries : Nat} (h : left = [] ∨ retries = 0)
    (answers : List Answer) : transfer left retries answers = ⟨[], 0, true⟩ := by
  have hstop : (left.isEmpty || retries == 0) = true := by simpa using h
  cases answers with
  | nil => simp only [transfer, hstop]
  | cons answer answers => simp only [transfer, hstop, if_true]

section Step

variable {left : List α} {retries : Nat} (hgo : ¬ (left = [] ∨ retries = 0))
  (answers : List Answer)
include hgo

private theorem stop_eq_false : (left.isEmpty || retries == 0) = false := by
  simpa using hgo

/-- The three answers. -/
theorem transfer_moved (n : Nat) : transfer left retries (.moved n :: answers) =
    ⟨left.take (n + 1) ++ (transfer (left.drop (n + 1)) retries answers).taken,
      (transfer (left.drop (n + 1)) retries answers).asked + 1,
      (transfer (left.drop (n + 1)) retries answers).ended⟩ := by
  simp [transfer, stop_eq_false hgo]

theorem transfer_again : transfer left retries (.again :: answers) =
    ⟨(transfer left (retries - 1) answers).taken,
      (transfer left (retries - 1) answers).asked + 1,
      (transfer left (retries - 1) answers).ended⟩ := by
  simp [transfer, stop_eq_false hgo]

theorem transfer_failed : transfer left retries (.failed :: answers) = ⟨[], 1, true⟩ := by
  simp [transfer, stop_eq_false hgo]

end Step

/-! ## Whole transfers -/

/-- **The partner has the front of the list.** -/
theorem taken_prefix (left : List α) (retries : Nat) (answers : List Answer) :
    (transfer left retries answers).taken <+: left := by
  induction answers generalizing left retries with
  | nil => exact List.nil_prefix
  | cons answer answers ih =>
    by_cases hstop : left = [] ∨ retries = 0
    · rw [transfer_stop hstop]
      exact List.nil_prefix
    · cases answer with
      | moved n =>
        rw [transfer_moved hstop]
        have hrest := ih (left.drop (n + 1)) retries
        rw [← List.prefix_append_right_inj (left.take (n + 1)), List.take_append_drop] at hrest
        exact hrest
      | again =>
        rw [transfer_again hstop]
        exact ih left (retries - 1)
      | failed =>
        rw [transfer_failed hstop]
        exact List.nil_prefix

/-- **The sender does not ask forever.** -/
theorem asked_le (left : List α) (retries : Nat) (answers : List Answer) :
    (transfer left retries answers).asked ≤ left.length + retries := by
  induction answers generalizing left retries with
  | nil => exact Nat.zero_le _
  | cons answer answers ih =>
    by_cases hstop : left = [] ∨ retries = 0
    · rw [transfer_stop hstop]
      exact Nat.zero_le _
    · have hlength := List.length_pos_of_ne_nil (not_or.mp hstop).1
      have hretries := (not_or.mp hstop).2
      cases answer with
      | moved n =>
        rw [transfer_moved hstop]
        have hrest := ih (left.drop (n + 1)) retries
        rw [List.length_drop] at hrest
        show _ + 1 ≤ _
        omega
      | again =>
        rw [transfer_again hstop]
        have hrest := ih left (retries - 1)
        show _ + 1 ≤ _
        omega
      | failed =>
        rw [transfer_failed hstop]
        show 1 ≤ _
        omega

/-- The partner takes everything before he breaks off, and asks fewer times than there are
retries to be asked again. -/
def TakesAll (length retries : Nat) (answers : List Answer) : Prop :=
  ∃ front, front <+: answers ∧ (∀ answer ∈ front, answer ≠ .failed) ∧
    front.count .again < retries ∧ length ≤ rooms front

/-- What the first answer makes of it. -/
theorem takesAll_cons {length retries : Nat} (hlength : 0 < length) {answer : Answer}
    {answers : List Answer} : TakesAll length retries (answer :: answers) ↔
      answer ≠ .failed ∧ (if answer = .again then 1 else 0) < retries ∧
        TakesAll (length - answer.room) (retries - if answer = .again then 1 else 0) answers := by
  constructor
  · rintro ⟨front, hfront, hnever, hcount, hroom⟩
    rcases List.prefix_cons_iff.mp hfront with rfl | ⟨rest, rfl, hrest⟩
    · exact absurd hroom (Nat.not_le.mpr hlength)
    · simp only [List.count_cons, beq_iff_eq] at hcount
      rw [rooms] at hroom
      refine ⟨hnever answer List.mem_cons_self, by omega, rest, hrest,
        fun a ha => hnever a (List.mem_cons_of_mem _ ha), by omega, by omega⟩
  · rintro ⟨hanswer, hretries, rest, hrest, hnever, hcount, hroom⟩
    refine ⟨answer :: rest, (List.prefix_cons_inj answer).mpr hrest, ?_, ?_, ?_⟩
    · intro a ha
      rcases List.mem_cons.mp ha with rfl | ha
      · exact hanswer
      · exact hnever a ha
    · simp only [List.count_cons, beq_iff_eq]
      omega
    · rw [rooms]
      omega

theorem takesAll_zero {retries : Nat} (hretries : 0 < retries) (answers : List Answer) :
    TakesAll 0 retries answers :=
  ⟨[], List.nil_prefix, fun _ h => absurd h List.not_mem_nil, hretries, Nat.zero_le _⟩

/-- **The partner has everything**, when he does. -/
theorem taken_eq_iff {left : List α} {retries : Nat} (hretries : 0 < retries)
    (answers : List Answer) :
    (transfer left retries answers).taken = left ↔ TakesAll left.length retries answers := by
  induction answers generalizing left retries with
  | nil =>
    constructor
    · intro h
      rw [← h]
      exact takesAll_zero hretries []
    · rintro ⟨front, hfront, -, -, hroom⟩
      rw [List.prefix_nil.mp hfront] at hroom
      rw [List.length_eq_zero_iff.mp (Nat.le_zero.mp hroom)]
      rfl
  | cons answer answers ih =>
    by_cases hempty : left = []
    · subst hempty
      rw [transfer_stop (Or.inl rfl)]
      exact iff_of_true rfl (takesAll_zero hretries _)
    · have hlength := List.length_pos_of_ne_nil hempty
      have hgo : ¬ (left = [] ∨ retries = 0) := not_or.mpr ⟨hempty, Nat.pos_iff_ne_zero.mp hretries⟩
      rw [takesAll_cons hlength]
      cases answer with
      | moved n =>
        -- what was moved is in front: the rest must be taken as well
        have hwhole : left.take (n + 1) ++
            (transfer (left.drop (n + 1)) retries answers).taken = left ↔
              (transfer (left.drop (n + 1)) retries answers).taken = left.drop (n + 1) := by
          constructor
          · intro h
            exact List.append_cancel_left (h.trans (List.take_append_drop (n + 1) left).symm)
          · intro h
            rw [h, List.take_append_drop]
        rw [transfer_moved hgo]
        show left.take (n + 1) ++ _ = left ↔ _
        rw [hwhole, ih hretries, List.length_drop]
        simp [Answer.room, hretries]
      | again =>
        rw [transfer_again hgo]
        show (transfer left (retries - 1) answers).taken = left ↔ _
        by_cases hlast : retries = 1
        · -- that was the last retry
          subst hlast
          rw [transfer_stop (Or.inr rfl)]
          simp [Ne.symm hempty]
        · rw [ih (by omega)]
          have hmore : 1 < retries := by omega
          simp [Answer.room, hmore]
      | failed =>
        rw [transfer_failed hgo]
        simp [Ne.symm hempty]

end Transfer
