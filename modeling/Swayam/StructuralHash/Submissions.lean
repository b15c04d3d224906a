import Mathlib.Data.Nat.Pairing
import Swayam.Cas.Refusals

/-!
# SWAYAM — `structural_hash.py` on several files

`main` hashes its files one after the other and submits each hash to the manifest with
`cas_commit.sh`. A file that fails is noted, and the others are submitted all the same; so a
run that exits with 1 may have registered some of its files. Other runs do so meanwhile.

* `submissionsOk_exec` — what the submissions of all runs together keep, and what each run
  knows of its own ones;
* `accepted_once` — what an exit with 0 says: the hashes are new, and no other submission of
  one of them is accepted.
-/

namespace Swayam.StructuralHash.Submissions

open Cas Interleaving Machine

/-! ## `main` -/

/-- A run of `main`: in front of `resolve_inputs`, about to hash its file number `k`, in
`register_hash` with this file, or at its end. -/
inductive Pc
  | resolving
  | hashing (k : Nat) (failures : List Nat)
  | registering (k : Nat) (failures : List Nat)
  | exited (code : Nat)
  deriving DecidableEq, Repr

inductive Act
  | resolve (present : Bool)         -- all the files are on the disk
  | hash (answers : Bool)            -- `structural_hash` returns, or raises `HashingError`
  | submit (act : Cas.Act)           -- a step of `cas_commit.sh`
  | returns                          -- from `register_hash`
  | finish
  | crash                            -- an exception that `main` does not catch
  deriving DecidableEq, Repr

/-- The runs of `main`, over the runs of `cas_commit.sh` that they start. -/
structure Sys where
  submissions : Cas.Sys
  mains       : Nat → Pc

/-- The hash of each submission: number `k` of run `p` is `Nat.pair p k`. -/
def hashOf (hashes : Nat → List Text) (r : Nat) : Text := (hashes r.unpair.1).getD r.unpair.2 []

/-- Behind `register_hash`: `DuplicateError` and `RuntimeError` are noted. -/
def afterRegister (k : Nat) (failures : List Nat) (code : Nat) : Pc :=
  .hashing (k + 1) (if code = 0 then failures else failures ++ [k])

/-- One step of a run whose files have these hashes. -/
def step (hashes : Nat → List Text) (api : Api) (manifest : Text → Text → Option Text)
    (sha : Text → Text) (s : Sys) (a : Nat × Act) : Option Sys :=
  let goes := fun pc => some { s with mains := Function.update s.mains a.1 pc }
  match s.mains a.1, a.2 with
  | .resolving, .resolve present =>
    -- `resolve_inputs`: no file named, or one that is not there
    goes (if hashes a.1 = [] ∨ present = false then .exited 1 else .hashing 0 [])
  | .hashing k failures, .hash answers =>
    if k < (hashes a.1).length then
      -- a file that cannot be hashed is noted, and the loop goes on
      goes (if answers then .registering k failures else .hashing (k + 1) (failures ++ [k]))
    else none
  | .registering k _, .submit act =>
    -- each submission is a run of its own against the registry
    (Cas.step api (fun r => manifest (hashOf hashes r)) sha s.submissions
      (Nat.pair a.1 k, act)).map fun submissions => { s with submissions := submissions }
  | .registering k failures, .returns =>
    match s.submissions.proc (Nat.pair a.1 k) with
    | .exited code => goes (afterRegister k failures code)
    | _ => none
  | .hashing k failures, .finish =>
    if k < (hashes a.1).length then none
    else goes (.exited (if failures = [] then 0 else 1))
  | .hashing _ _, .crash => goes (.exited 1)
  | .registering _ _, .crash => goes (.exited 1)
  | _, _ => none

def start (file : Option Text) : Sys := ⟨Cas.start file, fun _ => .resolving⟩

/-! ## What a step does -/

section Steps

variable {hashes : Nat → List Text} {api : Api} {manifest : Text → Text → Option Text}
  {sha : Text → Text} {s s' : Sys}

/-- Submission `k` of the run has been accepted. -/
def Sys.Accepted (s : Sys) (p k : Nat) : Prop := s.submissions.proc (Nat.pair p k) = .exited 0

/-- There are files, and those in front of number `k` are accepted, but for the failures. -/
structure Through (hashes : Nat → List Text) (s : Sys) (p k : Nat) (failures : List Nat) :
    Prop where
  nonempty : hashes p ≠ []
  le       : k ≤ (hashes p).length
  accepted : ∀ j < k, j ∉ failures → s.Accepted p j

/-- What a run knows of its submissions. -/
def MainOk (hashes : Nat → List Text) (s : Sys) (p : Nat) : Pc → Prop
  | .resolving => True
  | .hashing k failures => Through hashes s p k failures
  | .registering k failures => Through hashes s p k failures ∧ k < (hashes p).length
  | .exited code => code = 0 → Through hashes s p (hashes p).length []

/-- **What a step does**: a run goes on by itself, or one of its submissions does. -/
theorem step_cases {p : Nat} {act : Act} (h : step hashes api manifest sha s (p, act) = some s') :
    (∃ pc, s' = { s with mains := Function.update s.mains p pc } ∧
      (MainOk hashes s p (s.mains p) → MainOk hashes s p pc)) ∨
    ∃ r casAct submissions, s' = { s with submissions := submissions } ∧
      Cas.step api (fun r => manifest (hashOf hashes r)) sha s.submissions (r, casAct) =
        some submissions := by
  unfold step at h
  dsimp only at h
  cases hpc : s.mains p with
  | resolving =>
    rw [hpc] at h
    cases act with
    | resolve present =>
      -- no file, nothing to submit: the run exits with an error
      refine Or.inl ⟨_, (Option.some.inj h).symm, fun _ => ?_⟩
      split
      · exact fun hcode => absurd hcode (by decide)
      · rename_i hfiles
        rw [not_or] at hfiles
        exact ⟨hfiles.1, Nat.zero_le _, fun j hj => absurd hj (Nat.not_lt_zero j)⟩
    | _ => exact absurd h (by simp)
  | hashing k failures =>
    rw [hpc] at h
    cases act with
    | hash answers =>
      simp only [Option.ite_none_right_eq_some] at h
      obtain ⟨hlt, h⟩ := h
      refine Or.inl ⟨_, (Option.some.inj h).symm, fun hok => ?_⟩
      split
      · exact ⟨hok, hlt⟩
      · -- the file is noted
        refine ⟨hok.nonempty, by omega, fun j hj hjf => ?_⟩
        rw [List.mem_append, List.mem_singleton, not_or] at hjf
        exact hok.accepted j (by omega) hjf.1
    | finish =>
      simp only [Option.ite_none_left_eq_some] at h
      obtain ⟨hlt, h⟩ := h
      refine Or.inl ⟨_, (Option.some.inj h).symm, fun hok hcode => ?_⟩
      -- exit 0 asks for no failure noted
      have hnone : failures = [] := by
        by_contra hsome
        rw [if_neg hsome] at hcode
        exact absurd hcode (by decide)
      have hk : k = (hashes p).length := Nat.le_antisymm hok.le (Nat.not_lt.mp hlt)
      exact hk ▸ hnone ▸ hok
    | crash => exact Or.inl ⟨_, (Option.some.inj h).symm, fun _ hcode => absurd hcode (by decide)⟩
    | _ => exact absurd h (by simp)
  | registering k failures =>
    rw [hpc] at h
    cases act with
    | submit casAct =>
      obtain ⟨submissions, hstep, rfl⟩ := Option.map_eq_some_iff.mp h
      exact Or.inr ⟨_, _, _, rfl, hstep⟩
    | returns =>
      dsimp only at h
      split at h
      · rename_i code hcode
        refine Or.inl ⟨_, (Option.some.inj h).symm, fun hok => ?_⟩
        refine ⟨hok.1.nonempty, hok.2, fun j hj hjf => ?_⟩
        -- a file from before, or the one just submitted
        rcases Nat.lt_succ_iff_lt_or_eq.mp hj with hj | rfl
        · refine hok.1.accepted j hj fun hmem => hjf ?_
          split
          · exact hmem
          · exact List.mem_append_left _ hmem
        · -- the submission that has just returned
          by_cases hzero : code = 0
          · rw [hzero] at hcode
            exact hcode
          · rw [if_neg hzero] at hjf
            exact absurd (List.mem_append_right _ (List.mem_singleton_self _)) hjf
      · exact absurd h (by simp)
    | crash => exact Or.inl ⟨_, (Option.some.inj h).symm, fun _ hcode => absurd hcode (by decide)⟩
    | _ => exact absurd h (by simp)
  | exited code =>
    rw [hpc] at h
    exact absurd h (by simp)

/-- A submission that is accepted stays so. -/
theorem Sys.Accepted.step {p k r : Nat} {casAct : Cas.Act} {submissions : Cas.Sys}
    {transform : Nat → Text → Option Text} (h : s.Accepted p k)
    (hstep : Cas.step api transform sha s.submissions (r, casAct) = some submissions) :
    { s with submissions := submissions }.Accepted p k := by
  obtain ⟨m, run, hmove, rfl⟩ := step_eq_some.mp hstep
  show Function.update _ _ _ _ = _
  rcases eq_or_ne (Nat.pair p k) r with rfl | hne
  · have hexited : s.submissions.proc (Nat.pair p k) = .exited 0 := h
    rw [hexited] at hmove
    exact absurd hmove (by simp [Cas.move])
  · rw [Function.update_of_ne hne]
    exact h

/-! ## Runs -/

/-- What all steps keep: the manifest has the first entries and those of the submissions that
changed it, the accepted ones among them, and each run knows of its own. -/
structure SubmissionsOk (entries : Text → List Text) (hashes : Nat → List Text) (sha : Text → Text)
    (first : List Text) (s : Sys) : Prop where
  recorded : Holds (Cas.Recorded entries (hashOf hashes) first)
    (RegistersNext entries (hashOf hashes) sha) s.submissions
  changed  : Holds (fun _ => True) ChangedBeforeExit s.submissions
  mains    : ∀ p, MainOk hashes s p (s.mains p)

/-- What a run knows survives when accepted submissions stay so. -/
theorem MainOk.mono {p : Nat} {pc : Pc} (h : MainOk hashes s p pc)
    (hstays : ∀ k, s.Accepted p k → s'.Accepted p k) : MainOk hashes s' p pc := by
  have hthrough : ∀ {k failures}, Through hashes s p k failures → Through hashes s' p k failures :=
    fun h => ⟨h.nonempty, h.le, fun j hj hjf => hstays j (h.accepted j hj hjf)⟩
  cases pc with
  | resolving => trivial
  | hashing k failures => exact hthrough h
  | registering k failures => exact ⟨hthrough h.1, h.2⟩
  | exited code => exact fun hcode => hthrough (h hcode)

section Runs

variable {entries : Text → List Text} (hmanifest : Registers entries manifest)
  (hinj : Function.Injective sha) (hne : ∀ content, sha content ≠ [])
  (hapi : ∀ accepted status, api accepted true status = true → accepted = true)
  (hhonest : ∀ accepted applied status, api accepted applied status = true →
    success status = true → applied = true)
include hmanifest hinj hne hapi hhonest

/-- **Step lemma.** -/
theorem submissionsOk_step {first : List Text} {a : Nat × Act}
    (h : SubmissionsOk entries hashes sha first s)
    (hstep : step hashes api manifest sha s a = some s') :
    SubmissionsOk entries hashes sha first s' := by
  rcases step_cases hstep with ⟨pc, rfl, hpc⟩ | ⟨r, casAct, submissions, rfl, hcas⟩
  · refine ⟨h.recorded, h.changed, fun q => ?_⟩
    have hq : MainOk hashes s q (Function.update s.mains a.1 pc q) :=
      forall_update (hpc (h.mains a.1)) (fun q _ => h.mains q) q
    exact hq.mono fun k hk => hk
  · refine ⟨(sound_manifest hmanifest hapi hinj hne first).step _ h.recorded hcas,
      (sound_exit hhonest).step _ h.changed hcas, fun q => ?_⟩
    exact (h.mains q).mono fun k hk => hk.step hcas

/-- Every run keeps what a step keeps. -/
theorem submissionsOk_exec {file : Option Text} (hfirst : (registered entries file).Nodup)
    {as : List (Nat × Act)} (hrun : exec (step hashes api manifest sha) (start file) as = some s) :
    SubmissionsOk entries hashes sha (registered entries file) s := by
  have hstart : SubmissionsOk entries hashes sha (registered entries file) (start file) :=
    ⟨⟨⟨(List.append_nil _).symm, hfirst⟩, fun _ => trivial⟩, ⟨trivial, fun _ => trivial⟩,
      fun _ => trivial⟩
  exact exec_invariant (fun _ _ _ h hs => submissionsOk_step hmanifest hinj hne hapi hhonest h hs)
    hstart hrun

end Runs

end Steps

section Invariant

variable {entries : Text → List Text} {hashes : Nat → List Text} {sha : Text → Text}
  {first : List Text} {s : Sys}

/-- The hash of a numbered submission. -/
theorem hashOf_pair {p k : Nat} (hk : k < (hashes p).length) :
    hashOf hashes (Nat.pair p k) = (hashes p).get ⟨k, hk⟩ := by
  rw [hashOf, Nat.unpair_pair]
  simp [hk]

/-- An accepted submission has changed the manifest. -/
theorem SubmissionsOk.mem_authors (h : SubmissionsOk entries hashes sha first s) {p k : Nat}
    (hk : s.Accepted p k) :
    Nat.pair p k ∈ s.submissions.shared.authors := by
  have hok := h.changed.2 (Nat.pair p k)
  rw [show s.submissions.proc (Nat.pair p k) = .exited 0 from hk] at hok
  exact hok rfl

/-- No two accepted submissions have one hash. -/
theorem SubmissionsOk.pair_eq (h : SubmissionsOk entries hashes sha first s) {p q j k : Nat}
    (hj : s.Accepted p j) (hk : s.Accepted q k)
    (hsame : hashOf hashes (Nat.pair p j) = hashOf hashes (Nat.pair q k)) :
    p = q ∧ j = k := by
  have hnodup := h.recorded.1.nodup
  rw [h.recorded.1.inOrder, List.nodup_append] at hnodup
  exact Nat.pair_eq_pair.mp
    (List.inj_on_of_nodup_map hnodup.2.1 (h.mem_authors hj) (h.mem_authors hk) hsame)

/-- The hash of an accepted submission is in the manifest, and was not there at first. -/
theorem SubmissionsOk.registered_new (h : SubmissionsOk entries hashes sha first s) {p k : Nat}
    (hk : s.Accepted p k) :
    hashOf hashes (Nat.pair p k) ∈ registered entries s.submissions.shared.file ∧
      hashOf hashes (Nat.pair p k) ∉ first := by
  have hnodup := h.recorded.1.nodup
  have hmem : hashOf hashes (Nat.pair p k) ∈
      s.submissions.shared.authors.map (hashOf hashes) :=
    List.mem_map_of_mem (h.mem_authors hk)
  rw [h.recorded.1.inOrder] at hnodup ⊢
  exact ⟨List.mem_append_right _ hmem, fun hold =>
    (List.nodup_append.mp hnodup).2.2 _ hold _ hmem rfl⟩

end Invariant

/-- **What an exit with 0 says.** In any interleaving of any number of runs of `main`, each with
any files: a run that exits with 0 had files, whose hashes are pairwise different, were not in the
manifest when the first run started, and are there now. And of every other run, whether it exits
with 0 or not, no submission that is accepted has one of these hashes: to repeat a run of which
any file was accepted is of no use, as it fails. -/
theorem accepted_once (entries : Text → List Text) (manifest : Text → Text → Option Text)
    (hmanifest : Registers entries manifest) (hashes : Nat → List Text) (sha : Text → Text)
    (hinj : Function.Injective sha) (hne : ∀ content, sha content ≠ []) (api : Api)
    (hapi : ∀ accepted status, api accepted true status = true → accepted = true)
    (hhonest : ∀ accepted applied status, api accepted applied status = true →
      success status = true → applied = true)
    (file : Option Text) (hfirst : (registered entries file).Nodup) (as : List (Nat × Act))
    (s : Sys) (hrun : exec (step hashes api manifest sha) (start file) as = some s) (p : Nat)
    (hexit : s.mains p = .exited 0) :
    hashes p ≠ [] ∧ (hashes p).Nodup ∧
      (∀ hash ∈ hashes p, hash ∈ registered entries s.submissions.shared.file ∧
        hash ∉ registered entries file) ∧
      ∀ q k, (hk : k < (hashes q).length) → q ≠ p → s.Accepted q k →
        (hashes q).get ⟨k, hk⟩ ∉ hashes p := by
  have hinv := submissionsOk_exec hmanifest hinj hne hapi hhonest hfirst hrun
  have hmain := hinv.mains p
  rw [hexit] at hmain
  -- exit 0: no failure, so every file was accepted
  have haccepted : ∀ j < (hashes p).length, s.Accepted p j :=
    fun j hj => (hmain rfl).accepted j hj List.not_mem_nil
  refine ⟨(hmain rfl).nonempty, ?_, ?_, ?_⟩
  · -- two accepted submissions of one hash are one submission
    rw [List.nodup_iff_injective_get]
    intro i j hij
    rw [← hashOf_pair i.2, ← hashOf_pair j.2] at hij
    exact Fin.ext (hinv.pair_eq (haccepted i i.2) (haccepted j j.2) hij).2
  · intro hash hmem
    obtain ⟨j, rfl⟩ := List.mem_iff_get.mp hmem
    rw [← hashOf_pair j.2]
    exact hinv.registered_new (haccepted j j.2)
  · intro q k hk hne hkept hmem
    obtain ⟨j, hj⟩ := List.mem_iff_get.mp hmem
    rw [← hashOf_pair j.2, ← hashOf_pair hk] at hj
    exact hne (hinv.pair_eq (haccepted j j.2) hkept hj).1.symm

/-- Two files each. The second run has a file of the first one, too, and is behind it. -/
def twoRuns (p : Nat) : List Text :=
  if p = 0 then [ascii "a", ascii "b"] else [ascii "c", ascii "b"]

def submitted (p : Nat) : List (Nat × Act) :=
  [(p, .hash true), (p, .submit .get), (p, .submit (.put true 200)), (p, .returns)]

/-- The second run has one file accepted, and exits with 1. -/
def secondFails : List (Nat × Act) :=
  [(0, .resolve true), (1, .resolve true)] ++ submitted 0 ++ submitted 1 ++ submitted 0 ++
    [(1, .hash true), (1, .submit .get), (1, .returns), (0, .finish), (1, .finish)]

/-- Two runs, the second upload refused. -/
theorem accepted_once_secondFails : ∃ s,
    exec (step twoRuns reliable addWord tagged) (start none) secondFails = some s ∧
      s.mains 1 = .exited 1 ∧ s.Accepted 1 0 ∧ ascii "c" ∉ twoRuns 0 := by
  have hview : (exec (step twoRuns reliable addWord tagged) (start none) secondFails).map
      (fun s => (s.mains 0, s.mains 1, s.submissions.proc (Nat.pair 1 0))) =
        some (.exited 0, .exited 1, .exited 0) := by decide +kernel
  obtain ⟨s, hrun, hs⟩ := Option.map_eq_some_iff.mp hview
  obtain ⟨hfirst, hs⟩ := Prod.mk.inj hs
  obtain ⟨hsecond, haccepted⟩ := Prod.mk.inj hs
  refine ⟨s, hrun, hsecond, haccepted, (accepted_once words addWord registers_addWord twoRuns tagged
    (fun _ _ h => (List.cons.inj h).2) (fun content => List.cons_ne_nil sharp content) reliable
    ?_ ?_ none (by decide) secondFails s hrun 0 hfirst).2.2.2 1 0 (by decide) (by decide) haccepted⟩
  · intro accepted status h
    obtain ⟨haccepted, -⟩ : accepted = true ∧ success status = true := by simpa [reliable] using h
    exact haccepted
  · intro accepted applied status h hsuccess
    obtain ⟨-, happlied⟩ : applied = accepted ∧ success status = applied := by
      simpa [reliable] using h
    exact happlied ▸ hsuccess

end Swayam.StructuralHash.Submissions
