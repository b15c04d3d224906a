import Swayam.Lib.FixedWindow
import Swayam.Cas.Updates

/-!
# SWAYAM — `cas_commit.sh` with `rate_limit_transform.sh`

The limiter of the mutations: the transform reads `count` and `window_start`,
opens a new window when the one there is more than 3600 seconds old, and
rejects the update when the window is full. Its `now` is the clock when it
runs, between the GET and the PUT of its attempt.

`jq` reads the two fields of a text; the environment may answer a PUT with
anything, as long as it takes effect only when its sha is current.

* `accepted_admitted` — what the runs get accepted is what one fixed window
  admits, in the same order, under any interleaving;
* `accepted_le` — so no interval of 3600 seconds has more than `2 * max - 1`;
* `accepted_le_attained` — and some run has as many.
-/

namespace Swayam.Cas.RateLimit

open Interleaving Machine FixedWindow

/-! ## The transform -/

/-- `jq -n '{count: $c, window_start: $w}'` -/
def limitText (count windowStart : Int) : Text :=
  ascii "\x7b\n  \"count\": " ++ decimalInt count ++ ascii ",\n  \"window_start\": " ++
    decimalInt windowStart ++ ascii "\n\x7d"

/-- `now - window_start > 3600` -/
def period : Int := 3600

/-- `count` and `window_start`, as the old content and the clock give them. -/
def fields (jq : Text → Option (Int × Int)) (now : Int) (old : Text) : Option (Int × Int) :=
  if old = [] then some (0, now)
  else (jq old).map fun (count, windowStart) =>
    if now - windowStart > period then (0, now) else (count, windowStart)

/-- `rate_limit_transform.sh`: `none` is a rejection, or fields that cannot be read. -/
def rateLimitTransform (jq : Text → Option (Int × Int)) (max now : Int) (stdin : Text) :
    Option Text :=
  match fields jq now (commandSubst stdin) with
  | none => none
  | some (count, windowStart) =>
    if count ≥ max then none                -- RATE LIMIT EXCEEDED
    else some (limitText (count + 1) windowStart ++ [newline])

/-! ## The runs -/

/-- The file, the clock, and the record of the runs: the `now` of every update that took
effect, the oldest first. -/
structure Limited where
  file     : Option Text
  clock    : Int
  accepted : List Int := []
  deriving DecidableEq, Repr

/-- Where a run stands. -/
inductive Run
  | getting (attempt : Nat)
  | transforming (attempt : Nat) (requestSha oldContent : Text)
  | putting (attempt : Nat) (requestSha newContent : Text) (now : Int)
  | exited (code : Nat)
  deriving DecidableEq, Repr

/-- The choices of the environment for a run. -/
inductive Act
  | get                                     -- the GET is answered 200 or 404
  | fail                                    -- another status, or a command fails
  | transform
  | put (applied : Bool) (status : Nat)
  | tick (now : Int)                        -- the clock goes on
  deriving DecidableEq, Repr

/-- What a run does with the status of its PUT. -/
def afterPut : Nat → Nat → Run := afterStatus .getting .exited

/-- A PUT takes effect, or it does not. -/
def Limited.answer (m : Limited) (content : Text) (now : Int) (applied : Bool) : Limited :=
  if applied then { m with file := some content, accepted := m.accepted ++ [now] } else m

/-- One step of a run. -/
def move (jq : Text → Option (Int × Int)) (max : Int) (sha : Text → Text) (m : Limited) (_ : Nat) :
    Run → Act → Option (Limited × Run)
  | .getting attempt, .get =>
    some (m, .transforming attempt (shaOf sha m.file) (commandSubst (m.file.getD [])))
  | .transforming attempt requestSha oldContent, .transform =>
    match rateLimitTransform jq max m.clock oldContent with
    -- refused: the script exits
    | none => some (m, .exited 1)
    | some output => some (m, .putting attempt requestSha (commandSubst output) m.clock)
  | .putting attempt requestSha newContent now, .put applied status =>
    -- the server may apply the content and answer anything
    if unreliable (accepts sha m.file requestSha) applied status then
      some (m.answer newContent now applied, afterPut attempt status)
    else none
  | .exited _, .fail => none
  | _, .fail => some (m, .exited 1)
  | run, .tick now => if m.clock ≤ now then some ({ m with clock := now }, run) else none
  | _, _ => none

abbrev Sys := Interleaving.Config Limited Nat Run

def step (jq : Text → Option (Int × Int)) (max : Int) (sha : Text → Text) :
    Sys → Nat × Act → Option Sys :=
  Interleaving.step (move jq max sha)

/-- Every run is about to make its first GET. -/
def start (file : Option Text) (clock : Int) : Sys := ⟨⟨file, clock, []⟩, fun _ => .getting 1⟩

/-! ## The file as a window -/

/-- The text of a window. -/
def encode (w : Window) : Text := limitText w.count w.start

theorem limitText_ne_nil (count windowStart : Int) : limitText count windowStart ≠ [] := by
  simp [limitText, ascii]

/-- A command substitution takes away the newline that `jq` prints at the end, and nothing
else. -/
theorem commandSubst_limitText (count windowStart : Int) :
    commandSubst (limitText count windowStart ++ [newline]) = limitText count windowStart ∧
      commandSubst (limitText count windowStart) = limitText count windowStart := by
  have hcount : (0 : Byte) ∉ decimalInt count := notMem_decimalInt rfl (by decide) count
  have hstart : (0 : Byte) ∉ decimalInt windowStart :=
    notMem_decimalInt rfl (by decide) windowStart
  -- `$(...)` drops neither a byte of it, as none is NUL, nor its end, which is no newline
  have hkept : (limitText count windowStart).filter (· ≠ 0) = limitText count windowStart := by
    rw [List.filter_eq_self]
    intro b hb
    simp only [limitText, List.mem_append] at hb
    have hne : b ≠ 0 := by
      rintro rfl
      rcases hb with (((hb | hb) | hb) | hb) | hb
      · exact absurd hb (by decide)
      · exact hcount hb
      · exact absurd hb (by decide)
      · exact hstart hb
      · exact absurd hb (by decide)
    simpa using hne
  have hend : limitText count windowStart = (ascii "\x7b\n  \"count\": " ++ decimalInt count ++
      ascii ",\n  \"window_start\": " ++ decimalInt windowStart ++ [newline]) ++
        [asciiByte '\x7d'] := by
    simp only [limitText, List.append_assoc]
    rfl
  have hbare : (limitText count windowStart).rdropWhile (· = newline) =
      limitText count windowStart := by
    rw [hend, List.rdropWhile_concat_neg]
    decide
  constructor
  · rw [commandSubst, List.filter_append, hkept]
    show (limitText count windowStart ++ [newline]).rdropWhile (· = newline) = _
    rw [List.rdropWhile_concat_pos _ _ _ (by decide), hbare]
  · rw [commandSubst, hkept, hbare]

section Windows

variable {jq : Text → Option (Int × Int)}
  (hjq : ∀ count windowStart, jq (limitText count windowStart) = some (count, windowStart))

include hjq

/-- The text of a window determines it. -/
theorem encode_injective : Function.Injective encode := by
  intro v w h
  have hfields := (hjq v.count v.start).symm.trans ((congrArg jq h).trans (hjq w.count w.start))
  obtain ⟨hcount, hstart⟩ := Prod.mk.inj (Option.some.inj hfields)
  cases v
  cases w
  simp_all

/-- **The transform is a fixed window**: what it makes of the text of a window is the text of
the window after one more event, when there is room. -/
theorem rateLimitTransform_encode (max now : Int) (w : Option Window) :
    (rateLimitTransform jq max now (commandSubst ((w.map encode).getD []))).map commandSubst =
      (grant period max now w).map encode := by
  have hfields : fields jq now (commandSubst (commandSubst ((w.map encode).getD []))) =
      some ((roll period now w).count, (roll period now w).start) := by
    cases w with
    | none => rfl
    | some v =>
      have hsubst : commandSubst (commandSubst (encode v)) = encode v := by
        rw [commandSubst_idem]
        exact (commandSubst_limitText _ _).2
      have hne : encode v ≠ [] := limitText_ne_nil v.count v.start
      have hread : jq (encode v) = some (v.count, v.start) := hjq v.count v.start
      show fields jq now (commandSubst (commandSubst (encode v))) = _
      rw [hsubst, fields, if_neg hne, hread, Option.map_some, roll]
      by_cases hlate : now - v.start > period
      · simp only [if_pos hlate]
      · simp only [if_neg hlate]
  rw [rateLimitTransform, hfields, grant, enter]
  dsimp only
  split
  · rfl
  · rw [Option.map_some, Option.map_some, (commandSubst_limitText _ _).1]
    rfl

end Windows

/-! ## Along a run -/

section Invariant

variable {jq : Text → Option (Int × Int)} {max : Int} {sha : Text → Text} {w₀ : Option Window}

/-- The file is the window that the accepted updates lead to, and they were accepted in the
order of the clock. -/
structure Admitted (max : Int) (w₀ : Option Window) (m : Limited) : Prop where
  window : ∃ w, exec (FixedWindow.step period max) w₀ m.accepted = some w ∧ m.file = w.map encode
  sorted : m.accepted.Pairwise (· ≤ ·)
  past   : ∀ n ∈ m.accepted, n ≤ m.clock

/-- The sha that a run holds is that of the window after the updates `before`. -/
def ReadAfter (max : Int) (sha : Text → Text) (w₀ : Option Window) (m : Limited)
    (before : List Int) (w : Option Window) (requestSha : Text) : Prop :=
  before <+: m.accepted ∧ exec (FixedWindow.step period max) w₀ before = some w ∧
    requestSha = shaOf sha (w.map encode)

/-- What a run holds was made from one of the windows so far. -/
def RunOk (max : Int) (sha : Text → Text) (w₀ : Option Window) (m : Limited) (_ : Nat) :
    Run → Prop
  | .getting _ => True
  | .transforming _ requestSha oldContent =>
    ∃ before w, ReadAfter max sha w₀ m before w requestSha ∧
      oldContent = commandSubst ((w.map encode).getD [])
  | .putting _ requestSha newContent now =>
    ∃ before w w', ReadAfter max sha w₀ m before w requestSha ∧
      grant period max now w = some w' ∧ newContent = encode w' ∧
      (∀ n ∈ before, n ≤ now) ∧ now ≤ m.clock
  | .exited _ => True

/-- What a move guarantees: accepted updates stay, and the clock does not go back. -/
def Guar (_ : Nat) (m m' : Limited) : Prop := m.accepted <+: m'.accepted ∧ m.clock ≤ m'.clock

theorem guar_refl (r : Nat) (m : Limited) : Guar r m m := ⟨List.prefix_rfl, le_rfl⟩

/-- What was read stays what it was behind, -/
theorem ReadAfter.mono {m m' : Limited} {before : List Int} {w : Option Window} {requestSha : Text}
    (h : ReadAfter max sha w₀ m before w requestSha) (hguar : m.accepted <+: m'.accepted) :
    ReadAfter max sha w₀ m' before w requestSha :=
  ⟨h.1.trans hguar, h.2⟩

/-- so a run's state stays good under the others. -/
theorem RunOk.mono {m m' : Limited} {p r : Nat} {run : Run} (h : RunOk max sha w₀ m r run)
    (hguar : Guar p m m') : RunOk max sha w₀ m' r run := by
  cases run with
  | getting attempt => trivial
  | transforming attempt requestSha oldContent =>
    obtain ⟨before, w, hread, hold⟩ := h
    exact ⟨before, w, hread.mono hguar.1, hold⟩
  | putting attempt requestSha newContent now =>
    obtain ⟨before, w, w', hread, hgrant, hnew, hbefore, hnow⟩ := h
    exact ⟨before, w, w', hread.mono hguar.1, hgrant, hnew, hbefore, hnow.trans hguar.2⟩
  | exited code => trivial

/-- **What a move does**: it reads the file, it transforms what it has read, a PUT of it is
answered, the clock goes on, or it has no effect on anything but the run. -/
theorem move_cases {m m' : Limited} {r : Nat} {run run' : Run} {act : Act}
    (h : move jq max sha m r run act = some (m', run')) :
    (m' = m ∧ ∃ code, run' = .exited code) ∨
    (m' = m ∧ ∃ attempt,
      run' = .transforming attempt (shaOf sha m.file) (commandSubst (m.file.getD []))) ∨
    (∃ attempt requestSha oldContent output, run = .transforming attempt requestSha oldContent ∧
      rateLimitTransform jq max m.clock oldContent = some output ∧ m' = m ∧
      run' = .putting attempt requestSha (commandSubst output) m.clock) ∨
    (∃ attempt requestSha newContent now applied status,
      run = .putting attempt requestSha newContent now ∧
      unreliable (accepts sha m.file requestSha) applied status = true ∧
      m' = m.answer newContent now applied ∧ run' = afterPut attempt status) ∨
    (∃ now, m.clock ≤ now ∧ m' = { m with clock := now } ∧ run' = run) := by
  -- one case per act: a run takes it in one state, and only time passes and calls fail in several
  cases act with
  | tick now =>
    have htick : (if m.clock ≤ now then some ({ m with clock := now }, run) else none) =
        some (m', run') := by
      rw [← h]
      cases run <;> rfl
    rw [Option.ite_none_right_eq_some] at htick
    obtain ⟨hle, hnext⟩ := htick
    obtain ⟨rfl, rfl⟩ := Prod.mk.inj (Option.some.inj hnext)
    exact Or.inr (Or.inr (Or.inr (Or.inr ⟨now, hle, rfl, rfl⟩)))
  | fail =>
    left
    cases run with
    | getting attempt =>
      obtain ⟨rfl, rfl⟩ := Prod.mk.inj (Option.some.inj h)
      exact ⟨rfl, 1, rfl⟩
    | transforming attempt requestSha oldContent =>
      obtain ⟨rfl, rfl⟩ := Prod.mk.inj (Option.some.inj h)
      exact ⟨rfl, 1, rfl⟩
    | putting attempt requestSha newContent now =>
      obtain ⟨rfl, rfl⟩ := Prod.mk.inj (Option.some.inj h)
      exact ⟨rfl, 1, rfl⟩
    | exited code => exact absurd h (by simp [move])
  | get =>
    cases run with
    | getting attempt =>
      obtain ⟨rfl, rfl⟩ := Prod.mk.inj (Option.some.inj h)
      exact Or.inr (Or.inl ⟨rfl, attempt, rfl⟩)
    | transforming attempt requestSha oldContent => exact absurd h (by simp [move])
    | putting attempt requestSha newContent now => exact absurd h (by simp [move])
    | exited code => exact absurd h (by simp [move])
  | transform =>
    cases run with
    | transforming attempt requestSha oldContent =>
      simp only [move] at h
      split at h
      · -- the limit is reached, or the file cannot be read
        obtain ⟨rfl, rfl⟩ := Prod.mk.inj (Option.some.inj h)
        exact Or.inl ⟨rfl, 1, rfl⟩
      · rename_i output houtput
        obtain ⟨rfl, rfl⟩ := Prod.mk.inj (Option.some.inj h)
        exact Or.inr (Or.inr (Or.inl
          ⟨attempt, requestSha, oldContent, output, rfl, houtput, rfl, rfl⟩))
    | getting attempt => exact absurd h (by simp [move])
    | putting attempt requestSha newContent now => exact absurd h (by simp [move])
    | exited code => exact absurd h (by simp [move])
  | put applied status =>
    cases run with
    | putting attempt requestSha newContent now =>
      simp only [move, Option.ite_none_right_eq_some] at h
      obtain ⟨hapi, hnext⟩ := h
      obtain ⟨rfl, rfl⟩ := Prod.mk.inj (Option.some.inj hnext)
      exact Or.inr (Or.inr (Or.inr (Or.inl
        ⟨attempt, requestSha, newContent, now, applied, status, rfl, hapi, rfl, rfl⟩)))
    | getting attempt => exact absurd h (by simp [move])
    | transforming attempt requestSha oldContent => exact absurd h (by simp [move])
    | exited code => exact absurd h (by simp [move])

/-- **A PUT that takes effect** replaces the very window that the run has read, so nothing was
accepted since. -/
theorem admitted_put
    (hjq : ∀ count windowStart, jq (limitText count windowStart) = some (count, windowStart))
    (hinj : Function.Injective sha) (hne : ∀ content, sha content ≠ []) {m : Limited} {r : Nat}
    {attempt : Nat} {requestSha newContent : Text} {now : Int} (h : Admitted max w₀ m)
    (hrun : RunOk max sha w₀ m r (.putting attempt requestSha newContent now))
    (haccepts : accepts sha m.file requestSha = true) :
    Admitted max w₀
      { m with file := some newContent, accepted := m.accepted ++ [now] } := by
  obtain ⟨before, w, w', ⟨⟨since, hsince⟩, hexec, rfl⟩, hgrant, rfl, hbefore, hnow⟩ := hrun
  obtain ⟨current, hcurrent, hfile⟩ := h.window
  have heq : m.file = w.map encode := eq_of_accepts hinj hne haccepts
  obtain rfl : current = w :=
    Option.map_injective (encode_injective hjq) (hfile.symm.trans heq)
  -- the updates since the GET lead from the window to itself
  have hloop : exec (FixedWindow.step period max) current since = some current := by
    rw [← hsince, exec_append, hexec, Option.bind_some] at hcurrent
    exact hcurrent
  have hperiod : (0 : Int) ≤ period := by decide
  rw [exec_eq_self hperiod hloop, List.append_nil] at hsince
  rw [hsince] at hbefore
  refine ⟨⟨some w', ?_, rfl⟩, ?_, ?_⟩
  · show exec (FixedWindow.step period max) w₀ (m.accepted ++ [now]) = _
    rw [exec_concat, hcurrent, Option.bind_some, FixedWindow.step, hgrant, Option.map_some]
  · rw [List.pairwise_append]
    refine ⟨h.sorted, List.pairwise_singleton _ _, fun a ha b hb => ?_⟩
    rw [List.mem_singleton.mp hb]
    exact hbefore a ha
  · intro n hn
    rcases List.mem_append.mp hn with hn | hn
    · exact h.past n hn
    · rw [List.mem_singleton.mp hn]
      exact hnow

/-- **Step lemma.** -/
theorem sound_limit
    (hjq : ∀ count windowStart, jq (limitText count windowStart) = some (count, windowStart))
    (hinj : Function.Injective sha) (hne : ∀ content, sha content ≠ []) :
    Sound (move jq max sha) (Admitted max w₀) (RunOk max sha w₀) Guar where
  stable _ _ hguar h := h.mono hguar
  own {m m' r run run' act} hm hrun h := by
    rcases move_cases h with ⟨rfl, code, rfl⟩ | ⟨rfl, attempt, rfl⟩ |
      ⟨attempt, requestSha, oldContent, output, rfl, houtput, rfl, rfl⟩ |
      ⟨attempt, requestSha, newContent, now, applied, status, rfl, hapi, rfl, rfl⟩ |
      ⟨now, hle, rfl, rfl⟩
    · exact ⟨hm, trivial, guar_refl r m'⟩
    · -- what it reads is the window of all accepted updates
      obtain ⟨w, hexec, hfile⟩ := hm.window
      refine ⟨hm, ⟨m'.accepted, w, ⟨List.prefix_rfl, hexec, ?_⟩, ?_⟩, guar_refl r m'⟩
      · rw [hfile]
      · rw [hfile]
    · -- what it makes of that is the window after one more event, now
      obtain ⟨before, w, hread, rfl⟩ := hrun
      have hgrant := rateLimitTransform_encode hjq max m'.clock w
      rw [houtput, Option.map_some, eq_comm, Option.map_eq_some_iff] at hgrant
      obtain ⟨w', hgrant, hnew⟩ := hgrant
      refine ⟨hm, ⟨before, w, w', hread, hgrant, hnew.symm, ?_, le_rfl⟩, guar_refl r m'⟩
      exact fun n hn => hm.past n (hread.1.subset hn)
    · -- whatever the answer, the run that goes on owes nothing
      have hnext : RunOk max sha w₀ (m.answer newContent now applied) r (afterPut attempt status) := by
        unfold afterPut afterStatus
        split
        · trivial
        · split
          · trivial
          · trivial
      cases applied with
      | true =>
        have haccepts : accepts sha m.file requestSha = true := by simpa [unreliable] using hapi
        exact ⟨admitted_put hjq hinj hne hm hrun haccepts, hnext,
          List.prefix_append m.accepted [now], le_rfl⟩
      | false => exact ⟨hm, hnext, guar_refl r m⟩
    · -- only time has passed
      have hguar : Guar r m { m with clock := now } := ⟨List.prefix_rfl, hle⟩
      refine ⟨⟨hm.window, hm.sorted, ?_⟩, hrun.mono hguar, hguar⟩
      exact fun n hn => (hm.past n hn).trans hle

theorem holds_start (w₀ : Option Window) (clock : Int) :
    Holds (Admitted max w₀) (RunOk max sha w₀) (start (w₀.map encode) clock) :=
  ⟨⟨⟨w₀, rfl, rfl⟩, List.Pairwise.nil, fun _ hn => absurd hn List.not_mem_nil⟩, fun _ => trivial⟩

/-- **Refinement.** Under any interleaving, the updates that take effect are those of one fixed
window, in the order of the clock. -/
theorem accepted_admitted
    (hjq : ∀ count windowStart, jq (limitText count windowStart) = some (count, windowStart))
    (hinj : Function.Injective sha) (hne : ∀ content, sha content ≠ []) (clock : Int)
    {as : List (Nat × Act)} {s : Sys}
    (hrun : exec (step jq max sha) (start (w₀.map encode) clock) as = some s) :
    (∃ w, exec (FixedWindow.step period max) w₀ s.shared.accepted = some w) ∧
      s.shared.accepted.Pairwise (· ≤ ·) := by
  have hinv : Holds (Admitted max w₀) (RunOk max sha w₀) s := by
    refine exec_invariant (fun s a s' h hs => ?_) (holds_start w₀ clock) hrun
    exact (sound_limit hjq hinj hne).step a h hs
  obtain ⟨w, hexec, -⟩ := hinv.1.window
  exact ⟨⟨w, hexec⟩, hinv.1.sorted⟩

end Invariant

/-! ## What a fixed window admits can happen -/

section Schedule

/-- The runs from `r` on, one after the other, each at its own time. -/
def schedule : Nat → List Int → List (Nat × Act)
  | _, [] => []
  | r, now :: nows =>
    (r, .tick now) :: (r, .get) :: (r, .transform) :: (r, .put true 200) :: schedule (r + 1) nows

variable {jq : Text → Option (Int × Int)} {max : Int} {sha : Text → Text}

variable (jq max sha) in
/-- A move of one run, with what becomes of the runs. -/
theorem step_of_move {s : Sys} {m : Limited} {r : Nat} (act : Act) {run run' : Run}
    (hproc : s.proc r = run) (h : move jq max sha s.shared r run act = some (m, run')) :
    ∃ s', step jq max sha s (r, act) = some s' ∧ s'.shared = m ∧ s'.proc r = run' ∧
      ∀ q, q ≠ r → s'.proc q = s.proc q := by
  refine ⟨⟨m, Function.update s.proc r run'⟩, step_eq_some.mpr ⟨m, run', ?_, rfl⟩, rfl, ?_, ?_⟩
  · rw [hproc]
    exact h
  · exact Function.update_self ..
  · intro q hq
    exact Function.update_of_ne hq ..

/-- A sha is that of the content it was read with. -/
theorem accepts_shaOf (hne : ∀ content, sha content ≠ []) (file : Option Text) :
    accepts sha file (shaOf sha file) = true := by
  cases file with
  | none => rfl
  | some content => simp [accepts, shaOf, hne content]

/-- A run that is alone gets its update accepted when its window admits it. -/
theorem exec_alone
    (hjq : ∀ count windowStart, jq (limitText count windowStart) = some (count, windowStart))
    (hne : ∀ content, sha content ≠ []) {s : Sys} {r : Nat} {now : Int} {w : Option Window}
    {w' : Window} (hproc : s.proc r = .getting 1) (hfile : s.shared.file = w.map encode)
    (hclock : s.shared.clock ≤ now) (hgrant : grant period max now w = some w') :
    ∃ s', exec (step jq max sha) s [(r, .tick now), (r, .get), (r, .transform), (r, .put true 200)] =
        some s' ∧
      s'.shared = ⟨some (encode w'), now, s.shared.accepted ++ [now]⟩ ∧
      ∀ q, q ≠ r → s'.proc q = s.proc q := by
  obtain ⟨s₁, hs₁, hshared₁, hproc₁, hothers₁⟩ := step_of_move jq max sha (.tick now) hproc
    (if_pos hclock)
  obtain ⟨s₂, hs₂, hshared₂, hproc₂, hothers₂⟩ := step_of_move jq max sha .get hproc₁ rfl
  -- it has read the window, and its transform admits one more
  have hfile₁ : s₁.shared.file = w.map encode := by
    rw [hshared₁]
    exact hfile
  have hclock₂ : s₂.shared.clock = now := by rw [hshared₂, hshared₁]
  obtain ⟨output, houtput, hnew⟩ := Option.map_eq_some_iff.mp
    ((rateLimitTransform_encode hjq max now w).trans (congrArg (Option.map encode) hgrant))
  have htransform : move jq max sha s₂.shared r (.transforming 1 (shaOf sha s₁.shared.file)
      (commandSubst (s₁.shared.file.getD []))) .transform =
        some (s₂.shared, .putting 1 (shaOf sha (w.map encode)) (encode w') now) := by
    rw [hfile₁]
    simp only [move, hclock₂, houtput, hnew]
  obtain ⟨s₃, hs₃, hshared₃, hproc₃, hothers₃⟩ := step_of_move _ _ _ _ hproc₂ htransform
  -- nobody has changed the file since
  have hput : move jq max sha s₃.shared r (.putting 1 (shaOf sha (w.map encode)) (encode w') now)
      (.put true 200) = some (⟨some (encode w'), now, s.shared.accepted ++ [now]⟩, .exited 0) := by
    have haccepts : accepts sha s₃.shared.file (shaOf sha (w.map encode)) = true := by
      rw [hshared₃, hshared₂, hfile₁]
      exact accepts_shaOf hne _
    simp only [move, haccepts]
    rw [hshared₃, hshared₂, hshared₁]
    rfl
  obtain ⟨s₄, hs₄, hshared₄, -, hothers₄⟩ := step_of_move _ _ _ _ hproc₃ hput
  refine ⟨s₄, ?_, hshared₄, fun q hq => ?_⟩
  · simp only [exec_cons, exec_nil, hs₁, hs₂, hs₃, hs₄, Option.bind_some]
  · rw [hothers₄ q hq, hothers₃ q hq, hothers₂ q hq, hothers₁ q hq]

/-- **Completeness.** What a fixed window admits, in the order of the clock, some runs get
accepted. -/
theorem exec_schedule
    (hjq : ∀ count windowStart, jq (limitText count windowStart) = some (count, windowStart))
    (hne : ∀ content, sha content ≠ []) {nows : List Int} {w w' : Option Window} {s : Sys} {r : Nat}
    (hexec : exec (FixedWindow.step period max) w nows = some w')
    (hsorted : (s.shared.clock :: nows).Pairwise (· ≤ ·)) (hfile : s.shared.file = w.map encode)
    (hproc : ∀ q, r ≤ q → s.proc q = .getting 1) :
    ∃ s', exec (step jq max sha) s (schedule r nows) = some s' ∧
      s'.shared.accepted = s.shared.accepted ++ nows := by
  induction nows generalizing w s r with
  | nil => exact ⟨s, rfl, by simp⟩
  | cons now nows ih =>
    rw [exec_cons, Option.bind_eq_some_iff] at hexec
    obtain ⟨u, hfirst, hrest⟩ := hexec
    obtain ⟨v, hgrant, rfl⟩ := Option.map_eq_some_iff.mp hfirst
    obtain ⟨hclock, htail⟩ := List.pairwise_cons.mp hsorted
    -- the first run alone, from its tick to its answer
    obtain ⟨s₁, hs₁, hshared, hothers⟩ := exec_alone hjq hne (hproc r le_rfl) hfile
      (hclock now List.mem_cons_self) hgrant
    have hproc₁ : ∀ q, r + 1 ≤ q → s₁.proc q = .getting 1 := by
      intro q hq
      rw [hothers q (by omega)]
      exact hproc q (by omega)
    have hclock₁ : s₁.shared.clock = now := by rw [hshared]
    obtain ⟨s', hs', haccepted⟩ :=
      ih hrest (by rw [hclock₁]; exact htail) (by rw [hshared]; rfl) hproc₁
    refine ⟨s', ?_, ?_⟩
    · rw [schedule, show (r, Act.tick now) :: (r, .get) :: (r, .transform) :: (r, .put true 200) ::
        schedule (r + 1) nows = [(r, .tick now), (r, .get), (r, .transform), (r, .put true 200)] ++
          schedule (r + 1) nows from rfl, exec_append, hs₁, Option.bind_some]
      exact hs'
    · rw [haccepted, hshared, List.append_assoc]
      rfl

end Schedule

/-- **The hourly limit.** From a file that is absent or that an earlier update has left, in any
interleaving of any number of runs, an interval of 3600 seconds contains the `now` of at
most `2 * max - 1` updates that took effect. -/
theorem accepted_le (jq : Text → Option (Int × Int)) (max : Int) (sha : Text → Text)
    (hjq : ∀ count windowStart, jq (limitText count windowStart) = some (count, windowStart))
    (hinj : Function.Injective sha) (hne : ∀ content, sha content ≠ []) (w₀ : Option Window)
    (hw₀ : ∀ v, w₀ = some v → 1 ≤ v.count) (clock : Int) (as : List (Nat × Act)) (s : Sys)
    (hrun : exec (step jq max sha) (start (w₀.map encode) clock) as = some s) (t : Int) :
    countIn period t s.shared.accepted ≤ (2 * max - 1).toNat := by
  obtain ⟨⟨w, hexec⟩, hsorted⟩ := accepted_admitted hjq hinj hne clock hrun
  exact countIn_le hw₀ hsorted hexec t

/-- **The bound is attained**, whatever the limit: at the end of a window and right behind it. -/
theorem accepted_le_attained (jq : Text → Option (Int × Int)) (sha : Text → Text)
    (hjq : ∀ count windowStart, jq (limitText count windowStart) = some (count, windowStart))
    (hne : ∀ content, sha content ≠ []) (max : Nat) (hmax : 1 ≤ max) :
    ∃ as s, exec (step jq max sha) (start none 0) as = some s ∧
      countIn period period s.shared.accepted = 2 * max - 1 := by
  obtain ⟨w, hexec⟩ := exec_burst (by decide : 0 ≤ period) hmax
  have hsorted : ((0 : Int) :: burst period max).Pairwise (· ≤ ·) := by
    have hburst := pairwise_burst (by decide : 0 ≤ period) max
    refine List.pairwise_cons.mpr ⟨fun n hn => ?_, hburst⟩
    rcases List.mem_cons.mp hn with rfl | hn
    · exact le_rfl
    · exact (List.pairwise_cons.mp hburst).1 n hn
  obtain ⟨s, hrun, haccepted⟩ := exec_schedule (s := start none 0) (r := 0) hjq hne hexec hsorted rfl
    (fun _ _ => rfl)
  refine ⟨_, s, hrun, ?_⟩
  rw [haccepted]
  exact countIn_burst (by decide) hmax

/-! ### Five updates in two hours -/

/-- The two fields, at their places in the text. -/
def readLimit (content : Text) : Option (Int × Int) :=
  let count := fieldAt (ascii "\x7b\n  \"count\": ").length comma content
  let front := ascii "\x7b\n  \"count\": " ++ count ++ ascii ",\n  \"window_start\": "
  some (ofDecimalInt count, ofDecimalInt (fieldAt front.length newline content))

/-- A limit is read back from its text. -/
theorem readLimit_limitText (count windowStart : Int) :
    readLimit (limitText count windowStart) = some (count, windowStart) := by
  have hcomma : comma ∉ decimalInt count := notMem_decimalInt rfl (by decide) count
  have hnewline : newline ∉ decimalInt windowStart := notMem_decimalInt rfl (by decide) windowStart
  have hmid : ascii ",\n  \"window_start\": " = comma :: ascii "\n  \"window_start\": " := rfl
  have hend : ascii "\n\x7d" = newline :: ascii "\x7d" := rfl
  have hcount : fieldAt (ascii "\x7b\n  \"count\": ").length comma (limitText count windowStart) =
      decimalInt count := by
    simp only [limitText, hmid, List.append_assoc, List.cons_append]
    exact fieldAt_append hcomma _
  have hstart : fieldAt (ascii "\x7b\n  \"count\": " ++ decimalInt count ++
      ascii ",\n  \"window_start\": ").length newline (limitText count windowStart) =
      decimalInt windowStart := by
    rw [limitText, List.append_assoc _ _ (ascii "\n\x7d"), hend]
    exact fieldAt_append hnewline _
  rw [readLimit, hcount, hstart, ofDecimalInt_decimalInt, ofDecimalInt_decimalInt]

/-- Two runs race for the last place of a window; the one that loses is rejected, and gets its
update accepted in another attempt of its own in the next window. -/
def race : List (Nat × Act) :=
  [(0, .get), (1, .get), (0, .transform), (1, .transform), (0, .put true 200), (1, .put false 409),
   (1, .tick 3601), (1, .get), (1, .transform), (1, .put true 200)]

/-- Two requests race for the last place. -/
theorem accepted_le_race :
    ∃ s, exec (step readLimit 2 tagged) (start ((some (Window.mk 1 0)).map encode) 0) race = some s ∧
      countIn period 0 s.shared.accepted ≤ (2 * (2 : Int) - 1).toNat := by
  have hview : (exec (step readLimit 2 tagged) (start ((some (Window.mk 1 0)).map encode) 0)
      race).isSome = true := by decide
  obtain ⟨s, hrun⟩ := Option.isSome_iff_exists.mp hview
  refine ⟨s, hrun, ?_⟩
  exact accepted_le readLimit 2 tagged readLimit_limitText (fun _ _ h => (List.cons.inj h).2)
    (fun content => List.cons_ne_nil sharp content) (some ⟨1, 0⟩)
    (fun v hv => by rw [← Option.some.inj hv]) 0 race s hrun 0

/-- **Not a sliding limit**: with a limit of two, three updates within two seconds, the second
of one window and both of the next. -/
theorem accepted_exceeds_max :
    ¬ ∀ (jq : Text → Option (Int × Int)) (max : Int) (sha : Text → Text) (clock : Int)
        (as : List (Nat × Act)) (s : Sys),
        (∀ count windowStart, jq (limitText count windowStart) = some (count, windowStart)) →
        Function.Injective sha → (∀ content, sha content ≠ []) →
        exec (step jq max sha) (start none clock) as = some s →
        ∀ t, countIn period t s.shared.accepted ≤ max.toNat := by
  intro h
  have hview : (exec (step readLimit 2 tagged) (start none 0)
      (schedule 0 [0, 3600, 3601, 3601])).map (fun s => s.shared.accepted) =
        some [0, 3600, 3601, 3601] := by decide
  obtain ⟨s, hrun, haccepted⟩ := Option.map_eq_some_iff.mp hview
  have hcount := h readLimit 2 tagged 0 _ s readLimit_limitText (fun _ _ h => (List.cons.inj h).2)
    (fun content => List.cons_ne_nil sharp content) hrun 3600
  rw [haccepted] at hcount
  exact absurd hcount (by decide)

end Swayam.Cas.RateLimit
