import Mathlib.Algebra.Order.Ring.Int
import Mathlib.Data.List.Count
import Swayam.Lib.Machine

/-!
# Fixed-window limits

A limiter that keeps one window: how many events it has admitted since the
window was opened, and when that was. An event later than the window's period
opens a new window; an event is admitted while the window has room. Times are
whole numbers on one clock.

A fixed window of length `period` is not a sliding one. What it bounds, over any
interval of that length:

* `countIn_le` — at most `2 * limit - 1` admitted events, the second half of one
  window next to the whole of another;
* `exec_burst` — and there are as many when the window is filled at its last
  moment and again right behind it;
* `le_countIn_of_refused` — on the other hand an event is only refused behind as
  many as the limit.

The windows of a run only go up in the order `Later`, so none comes back
(`exec_eq_self`).
-/

namespace FixedWindow

open Machine

/-- The events that were admitted in a window, and when it was opened. -/
structure Window where
  count : Int
  start : Int
  deriving DecidableEq, Repr

/-- The window an event falls in, before it is counted. -/
def roll (period now : Int) : Option Window → Window
  | none => ⟨0, now⟩
  | some w => if now - w.start > period then ⟨0, now⟩ else w

/-- An event is counted while the window has room. -/
def enter (limit : Int) (w : Window) : Option Window :=
  if w.count ≥ limit then none else some ⟨w.count + 1, w.start⟩

def grant (period limit now : Int) (w : Option Window) : Option Window :=
  enter limit (roll period now w)

/-- One admitted event. -/
def step (period limit : Int) (w : Option Window) (now : Int) : Option (Option Window) :=
  (grant period limit now w).map some

/-- The events of an interval of length `period`, both ends included. -/
def countIn (period t : Int) (nows : List Int) : Nat :=
  nows.countP fun now => t ≤ now ∧ now ≤ t + period

section Windows

variable {period limit now : Int}

/-- A request enters while the count is below the limit. -/
theorem enter_eq_some {w w' : Window} :
    enter limit w = some w' ↔ w.count < limit ∧ w' = ⟨w.count + 1, w.start⟩ := by
  unfold enter
  rw [Option.ite_none_left_eq_some, Option.some.injEq, not_le, eq_comm]

/-- The window of an event: a new one when there is none or it has run out. -/
theorem roll_cases (period now : Int) (w : Option Window) :
    (roll period now w = ⟨0, now⟩ ∧ ∀ v, w = some v → v.start + period < now) ∨
    (∃ v, w = some v ∧ roll period now w = v ∧ now ≤ v.start + period) := by
  cases w with
  | none => exact Or.inl ⟨rfl, fun v hv => absurd hv (by simp)⟩
  | some v =>
    by_cases hlate : now - v.start > period
    · refine Or.inl ⟨if_pos hlate, fun u hu => ?_⟩
      obtain rfl := Option.some.inj hu
      omega
    · exact Or.inr ⟨v, rfl, if_neg hlate, by omega⟩

/-- **What an admitted event does**: it opens a window, or is one more in the window that
there is. -/
theorem grant_eq_some {w : Option Window} {w' : Window} (h : grant period limit now w = some w') :
    (0 < limit ∧ w' = ⟨1, now⟩ ∧ ∀ v, w = some v → v.start + period < now) ∨
    (∃ v, w = some v ∧ now ≤ v.start + period ∧ v.count < limit ∧
      w' = ⟨v.count + 1, v.start⟩) := by
  obtain ⟨hroom, rfl⟩ := enter_eq_some.mp h
  rcases roll_cases period now w with ⟨hroll, hlate⟩ | ⟨v, hv, hroll, hopen⟩
  · rw [hroll] at hroom ⊢
    exact Or.inl ⟨hroom, rfl, hlate⟩
  · rw [hroll] at hroom ⊢
    exact Or.inr ⟨v, hv, hopen, hroom, rfl⟩

/-- A window with room admits an event. -/
theorem step_of_roll {w : Option Window} {v : Window} (hroll : roll period now w = v)
    (hroom : v.count < limit) : step period limit w now = some (some ⟨v.count + 1, v.start⟩) := by
  rw [step, grant, hroll, enter_eq_some.mpr ⟨hroom, rfl⟩, Option.map_some]

/-- A window that is behind another: opened later, or the same one with more events. -/
def Later (w w' : Option Window) : Prop :=
  ∃ v', w' = some v' ∧
    ∀ v, w = some v → v.start < v'.start ∨ (v.start = v'.start ∧ v.count < v'.count)

/-- No window is later than itself. -/
theorem later_irrefl (w : Option Window) : ¬ Later w w := by
  rintro ⟨v, rfl, hbehind⟩
  rcases hbehind v rfl with h | ⟨-, h⟩
  · exact lt_irrefl _ h
  · exact lt_irrefl _ h

/-- Later windows are ordered. -/
theorem Later.trans {u v w : Option Window} (huv : Later u v) (hvw : Later v w) : Later u w := by
  obtain ⟨v', rfl, huv⟩ := huv
  obtain ⟨w', rfl, hvw⟩ := hvw
  refine ⟨w', rfl, fun u' hu => ?_⟩
  have h₁ := huv u' hu
  have h₂ := hvw v' rfl
  omega

/-- An admitted event leads to a later window. -/
theorem later_step (hperiod : 0 ≤ period) {w w' : Option Window}
    (h : step period limit w now = some w') : Later w w' := by
  obtain ⟨v', hgrant, rfl⟩ := Option.map_eq_some_iff.mp h
  refine ⟨v', rfl, fun v hv => ?_⟩
  rcases grant_eq_some hgrant with ⟨-, rfl, hlate⟩ | ⟨u, rfl, -, -, rfl⟩
  · have hv := hlate v hv
    left
    show v.start < now
    omega
  · obtain rfl := Option.some.inj hv
    right
    exact ⟨rfl, by simp⟩

/-- **No window comes back.** -/
theorem exec_eq_self (hperiod : 0 ≤ period) {w : Option Window} {nows : List Int}
    (h : exec (step period limit) w nows = some w) : nows = [] := by
  have hlater : ∀ nows w', exec (step period limit) w nows = some w' → nows = [] ∨ Later w w' := by
    refine exec_induction (Or.inl rfl) fun nows u now w' _ ih hs => Or.inr ?_
    have hlast := later_step hperiod hs
    rcases ih with rfl | hfirst
    · rename_i hexec
      obtain rfl := Option.some.inj hexec
      exact hlast
    · exact hfirst.trans hlast
  exact (hlater nows w h).resolve_right (later_irrefl w)

end Windows

/-! ## The events of an interval -/

section Bound

variable {period limit t : Int}

/-- The count of an interval, request by request. -/
theorem countIn_concat (nows : List Int) (now : Int) :
    countIn period t (nows ++ [now]) =
      countIn period t nows + if t ≤ now ∧ now ≤ t + period then 1 else 0 := by
  simp [countIn, List.countP_append, List.countP_cons]

/-- Nothing is counted before its time. -/
theorem countIn_eq_zero {nows : List Int} (h : ∀ n ∈ nows, n < t) : countIn period t nows = 0 := by
  rw [countIn, List.countP_eq_zero]
  intro n hn
  have hlt := h n hn
  simp only [decide_eq_true_eq]
  omega

/-- Where a run stands in relation to an interval: in a window from before the interval, in
one that was opened within it, or behind it. -/
def Placed (period limit t : Int) (nows : List Int) (w : Option Window) : Prop :=
  (w = none ∧ countIn period t nows = 0) ∨
  ∃ v, w = some v ∧ (v.count ≤ limit ∨ countIn period t nows = 0) ∧
    ((countIn period t nows : Int) ≤ v.count - 1 ∨
      (t ≤ v.start ∧ (countIn period t nows : Int) ≤ v.count + limit - 1) ∨
      ((∃ n ∈ nows, t + period < n) ∧ (countIn period t nows : Int) ≤ 2 * limit - 1))

/-- **Step lemma.** A further event, not earlier than the others. -/
theorem placed_step {nows : List Int} {now : Int} {w w' : Option Window}
    (hsorted : ∀ n ∈ nows, n ≤ now) (h : Placed period limit t nows w)
    (hs : step period limit w now = some w') : Placed period limit t (nows ++ [now]) w' := by
  obtain ⟨v', hgrant, rfl⟩ := Option.map_eq_some_iff.mp hs
  refine Or.inr ⟨v', rfl, ?_⟩
  have hearly : now < t → countIn period t nows = 0 := fun hlt =>
    countIn_eq_zero fun n hn => (hsorted n hn).trans_lt hlt
  have hself : now ∈ nows ++ [now] := by simp
  rw [countIn_concat]
  rcases grant_eq_some hgrant with ⟨hlimit, rfl, hlate⟩ | ⟨v, rfl, -, hroom, rfl⟩
  · -- a new window: the one before it reached into the interval only with its tail
    have hfirst : (countIn period t nows : Int) ≤ limit - 1 ∨
        (t + period < now ∧ (countIn period t nows : Int) ≤ 2 * limit - 1) := by
      rcases h with ⟨-, hzero⟩ |
        ⟨v, hv, hfull, hbefore | ⟨hstart, hwithin⟩ | ⟨⟨n, hn, hover⟩, hbound⟩⟩
      · omega
      · omega
      · have hv := hlate v hv
        omega
      · have hn := hsorted n hn
        omega
    refine ⟨Or.inl (show (1 : Int) ≤ limit by omega), ?_⟩
    -- the new event is behind the interval, in it, or in front
    by_cases hover : t + period < now
    · have hout : ¬ (t ≤ now ∧ now ≤ t + period) := by omega
      rw [if_neg hout]
      exact Or.inr (Or.inr ⟨⟨now, hself, hover⟩, by omega⟩)
    · by_cases hin : t ≤ now
      · rw [if_pos ⟨hin, by omega⟩]
        refine Or.inr (Or.inl ⟨hin, ?_⟩)
        show ((countIn period t nows + 1 : Nat) : Int) ≤ 1 + limit - 1
        omega
      · have hzero := hearly (by omega)
        have hout : ¬ (t ≤ now ∧ now ≤ t + period) := by omega
        rw [if_neg hout, hzero]
        exact Or.inl (by simp)
  · -- one more event of the same window
    obtain ⟨u, hu, hfull, hcases⟩ := h.resolve_left fun hnone => absurd hnone.1 (by simp)
    obtain rfl := Option.some.inj hu
    refine ⟨Or.inl (by show v.count + 1 ≤ limit; omega), ?_⟩
    -- where the window stands to the interval does not change
    rcases hcases with hbefore | ⟨hstart, hwithin⟩ | ⟨⟨n, hn, hover⟩, hbound⟩
    · left
      show _ ≤ v.count + 1 - 1
      split <;> omega
    · refine Or.inr (Or.inl ⟨hstart, ?_⟩)
      show _ ≤ v.count + 1 + limit - 1
      split <;> omega
    · have hn' := hsorted n hn
      rw [if_neg (by omega)]
      exact Or.inr (Or.inr ⟨⟨n, List.mem_append_left _ hn, hover⟩, by omega⟩)

/-- **The bound.** From no window, or from one with an event in it, an interval of the length
of the period contains at most `2 * limit - 1` admitted events. -/
theorem countIn_le {w₀ w : Option Window} (hw₀ : ∀ v, w₀ = some v → 1 ≤ v.count) {nows : List Int}
    (hsorted : nows.Pairwise (· ≤ ·)) (h : exec (step period limit) w₀ nows = some w) (t : Int) :
    countIn period t nows ≤ (2 * limit - 1).toNat := by
  have hplaced : ∀ nows w, exec (step period limit) w₀ nows = some w →
      nows.Pairwise (· ≤ ·) → Placed period limit t nows w := by
    refine exec_induction (fun _ => ?_) fun nows u now w' _ ih hs hsorted => ?_
    · cases w₀ with
      | none => exact Or.inl ⟨rfl, rfl⟩
      | some v =>
        have hv := hw₀ v rfl
        exact Or.inr ⟨v, rfl, Or.inr rfl, Or.inl (by show (0 : Int) ≤ _; omega)⟩
    · obtain ⟨hpre, -, hlast⟩ := List.pairwise_append.mp hsorted
      exact placed_step (fun n hn => hlast n hn now (by simp)) (ih hpre) hs
  rcases hplaced nows w h hsorted with ⟨-, hzero⟩ | ⟨v, -, hfull, hcases⟩
  · omega
  · rcases hcases with hbefore | ⟨-, hwithin⟩ | ⟨-, hbound⟩
    · omega
    · omega
    · omega

/-- A window has counted no more events than there were since it was opened. -/
def CountedSince (nows : List Int) (w : Option Window) : Prop :=
  ∀ v, w = some v → v.count ≤ nows.countP fun now => v.start ≤ now

/-- **Step lemma.** A further event. -/
theorem countedSince_step {nows : List Int} {now : Int} {w w' : Option Window}
    (hopen : ∀ v, w = some v → v.start ≤ now) (h : CountedSince nows w)
    (hs : step period limit w now = some w') :
    CountedSince (nows ++ [now]) w' ∧ ∀ v, w' = some v → v.start ≤ now := by
  obtain ⟨v', hgrant, rfl⟩ := Option.map_eq_some_iff.mp hs
  have hcount : ∀ start : Int, start ≤ now →
      ((nows ++ [now]).countP fun n => start ≤ n) = (nows.countP fun n => start ≤ n) + 1 := by
    intro start hle
    rw [List.countP_append, List.countP_singleton, if_pos (by simpa using hle)]
  rcases grant_eq_some hgrant with ⟨-, rfl, -⟩ | ⟨v, rfl, -, -, rfl⟩
  · refine ⟨fun u hu => ?_, fun u hu => ?_⟩
    · obtain rfl := Option.some.inj hu
      rw [hcount now le_rfl]
      show (1 : Int) ≤ _
      omega
    · obtain rfl := Option.some.inj hu
      exact le_rfl
  · have hv := h v rfl
    refine ⟨fun u hu => ?_, fun u hu => ?_⟩
    · obtain rfl := Option.some.inj hu
      rw [hcount v.start (hopen v rfl)]
      show v.count + 1 ≤ _
      omega
    · obtain rfl := Option.some.inj hu
      exact hopen v rfl

/-- **A refusal has its reason**: from no window, an event is only refused when the interval of
the period's length that ends with it contains as many admitted events as the limit. -/
theorem le_countIn_of_refused {w : Option Window} {nows : List Int} {now : Int}
    (hsorted : nows.Pairwise (· ≤ ·)) (hpast : ∀ n ∈ nows, n ≤ now)
    (h : exec (step period limit) none nows = some w) (hrefused : grant period limit now w = none) :
    limit ≤ countIn period (now - period) nows := by
  -- along the run the open window counts what has come since its start
  have hcounted : ∀ nows w, exec (step period limit) none nows = some w →
      nows.Pairwise (· ≤ ·) →
      CountedSince nows w ∧ ∀ v, w = some v → ∃ n ∈ nows, v.start ≤ n := by
    refine exec_induction (fun _ => ⟨fun v hv => absurd hv (by simp),
      fun v hv => absurd hv (by simp)⟩) fun nows u now w' _ ih hs hsorted => ?_
    obtain ⟨hpre, -, hlast⟩ := List.pairwise_append.mp hsorted
    obtain ⟨hcount, hopen⟩ := ih hpre
    have hstart : ∀ v, u = some v → v.start ≤ now := by
      intro v hv
      obtain ⟨n, hn, hle⟩ := hopen v hv
      exact hle.trans (hlast n hn now (by simp))
    obtain ⟨hcount', hopen'⟩ := countedSince_step hstart hcount hs
    exact ⟨hcount', fun v hv => ⟨now, by simp, hopen' v hv⟩⟩
  have hfull : limit ≤ (roll period now w).count := by
    by_contra hroom
    have hadmitted := enter_eq_some.mpr ⟨not_le.mp hroom, rfl⟩
    exact absurd (hadmitted.symm.trans hrefused) (by simp)
  rcases roll_cases period now w with ⟨hroll, -⟩ | ⟨v, rfl, hroll, hopen⟩
  · -- a new window is full only for a limit of zero
    rw [hroll] at hfull
    have hzero : limit ≤ 0 := hfull
    omega
  · rw [hroll] at hfull
    -- the open window is full, and lies in the period
    have hle := (hcounted nows (some v) h hsorted).1 v rfl
    have hin : (nows.countP fun n => v.start ≤ n) ≤ countIn period (now - period) nows := by
      refine List.countP_mono_left fun n hn hstart => ?_
      have hn := hpast n hn
      simp only [decide_eq_true_eq] at hstart ⊢
      omega
    omega

end Bound

/-! ## A burst at the end of a window -/

section Burst

variable {period limit : Int}

/-- A window takes further events until it is full. -/
theorem exec_replicate {v : Window} {now : Int} (k : Nat) (hopen : now ≤ v.start + period)
    (hroom : v.count + k ≤ limit) :
    exec (step period limit) (some v) (List.replicate k now) =
      some (some ⟨v.count + k, v.start⟩) := by
  induction k generalizing v with
  | zero => simp
  | succ k ih =>
    have hfirst : step period limit (some v) now = some (some ⟨v.count + 1, v.start⟩) :=
      step_of_roll (if_neg (by omega)) (by omega)
    rw [List.replicate_succ, exec_cons, hfirst, Option.bind_some]
    rw [ih (by simpa using hopen) (by push_cast at hroom ⊢; omega)]
    have hcount : v.count + 1 + (k : Int) = v.count + ((k + 1 : Nat) : Int) := by
      push_cast
      omega
    rw [hcount]

/-- The last moment of a window, and the first behind it. -/
def burst (period : Int) (limit : Nat) : List Int :=
  0 :: List.replicate (limit - 1) period ++ List.replicate limit (period + 1)

/-- A burst is in order. -/
theorem pairwise_burst (hperiod : 0 ≤ period) (limit : Nat) :
    (burst period limit).Pairwise (· ≤ ·) := by
  have hrep : ∀ (k : Nat) (a : Int), (List.replicate k a).Pairwise (· ≤ ·) := fun k a =>
    List.pairwise_replicate.mpr (Or.inr le_rfl)
  rw [burst, List.cons_append, List.pairwise_cons, List.pairwise_append]
  refine ⟨?_, hrep _ _, hrep _ _, ?_⟩
  · intro b hb
    rcases List.mem_append.mp hb with hb | hb
    · rw [List.eq_of_mem_replicate hb]
      exact hperiod
    · rw [List.eq_of_mem_replicate hb]
      omega
  · intro a ha b hb
    rw [List.eq_of_mem_replicate ha, List.eq_of_mem_replicate hb]
    omega

/-- A burst is admitted. -/
theorem exec_burst (hperiod : 0 ≤ period) {limit : Nat} (hlimit : 1 ≤ limit) :
    ∃ w, exec (step period limit) none (burst period limit) = some w := by
  obtain ⟨k, rfl⟩ : ∃ k, limit = k + 1 := ⟨limit - 1, by omega⟩
  have hfirst : step period ((k + 1 : Nat) : Int) none 0 = some (some ⟨1, 0⟩) :=
    step_of_roll rfl (by show (0 : Int) < _; omega)
  -- the window is filled at its last moment
  have hfill : exec (step period ((k + 1 : Nat) : Int)) (some ⟨1, 0⟩) (List.replicate k period) =
      some (some ⟨1 + k, 0⟩) := exec_replicate k (by simp) (by push_cast; omega)
  -- the event right behind it opens the next one
  have hroll : roll period (period + 1) (some ⟨1 + (k : Int), 0⟩) = ⟨0, period + 1⟩ :=
    if_pos (by show period + 1 - 0 > period; omega)
  have hnext : step period ((k + 1 : Nat) : Int) (some ⟨1 + k, 0⟩) (period + 1) =
      some (some ⟨1, period + 1⟩) := step_of_roll hroll (by show (0 : Int) < _; omega)
  have hrefill : exec (step period ((k + 1 : Nat) : Int)) (some ⟨1, period + 1⟩)
      (List.replicate k (period + 1)) = some (some ⟨1 + k, period + 1⟩) :=
    exec_replicate k (by show period + 1 ≤ period + 1 + period; omega) (by push_cast; omega)
  refine ⟨some ⟨1 + k, period + 1⟩, ?_⟩
  rw [burst, Nat.add_sub_cancel, List.cons_append, exec_cons, hfirst, Option.bind_some,
    exec_append, hfill, Option.bind_some, List.replicate_succ, exec_cons, hnext, Option.bind_some]
  exact hrefill

/-- All of a burst but its first event lies in one interval. -/
theorem countIn_burst (hperiod : 1 ≤ period) {limit : Nat} (hlimit : 1 ≤ limit) :
    countIn period period (burst period limit) = 2 * limit - 1 := by
  have hall : ∀ a : Int, period ≤ a → a ≤ period + period → ∀ k : Nat,
      countIn period period (List.replicate k a) = k := by
    intro a hlo hhi k
    rw [countIn, List.countP_replicate, if_pos (by simpa using ⟨hlo, hhi⟩)]
  have hsplit : countIn period period (burst period limit) =
      countIn period period (List.replicate (limit - 1) period) +
        countIn period period (List.replicate limit (period + 1)) := by
    rw [burst, List.cons_append, countIn, List.countP_cons_of_neg (by simp; omega),
      List.countP_append]
    rfl
  rw [hsplit, hall period le_rfl (by omega), hall (period + 1) (by omega) (by omega)]
  omega

end Burst

end FixedWindow
