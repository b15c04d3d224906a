import Mathlib.Data.List.Nodup
import Swayam.Cas.Definitions

/-!
# SWAYAM — the updates of `cas_commit.sh`

Any number of runs, under any schedule. Taken as given of the Contents API: a GET
answers with the current content and its sha, the sha of a content is never empty, and
a PUT takes effect at once or not at all, and then only with the current sha. A
reliable API takes every such PUT and answers 200 or 201 exactly for these
(`reliable`); an unreliable one may answer anything (`unreliable`).

* `commits_eq_replay` — with a reliable API, the contents of the file are those of
  the transforms applied one after the other, one for each run that exits 0, up to
  the NUL bytes and trailing newlines that `$(…)` drops;
* `commits_drop_nul` — without these bytes put aside they are not;
* `atMostOnce_of_answered` — with an unreliable one, a run changes the file at most
  once as long as every PUT that takes effect is answered as such or is the last
  attempt; and a PUT that is neither can be followed by a second change.
-/

namespace Swayam.Cas

open Interleaving Machine

/-! ## Sequential application -/

/-- The contents of a file to which the transforms of the runs are applied in turn. What is
ignored of a content, `seen` drops: from what a transform reads, and from what it prints. -/
def replay (seen : Text → Text) (transform : Nat → Text → Option Text) :
    Text → List Nat → Option (List Text)
  | _, [] => some []
  | old, r :: rs => (transform r old).bind fun output =>
    (replay seen transform (seen output) rs).map (seen output :: ·)

/-- One more run at the end applies its transform to the last content. -/
theorem replay_concat {seen : Text → Text} {transform : Nat → Text → Option Text} {r : Nat}
    {output : Text} (rs : List Nat) {old : Text} {cs : List Text}
    (h : replay seen transform old rs = some cs)
    (hlast : transform r (cs.getLast?.getD old) = some output) :
    replay seen transform old (rs ++ [r]) = some (cs ++ [seen output]) := by
  induction rs generalizing old cs with
  | nil =>
    obtain rfl : [] = cs := Option.some.inj h
    rw [List.nil_append, replay, show transform r old = some output from hlast]
    rfl
  | cons r' rs ih =>
    rw [replay, Option.bind_eq_some_iff] at h
    obtain ⟨output', hfirst, hrest⟩ := h
    obtain ⟨cs', hcs', rfl⟩ := Option.map_eq_some_iff.mp hrest
    have hlast' : transform r (cs'.getLast?.getD (seen output')) = some output := by
      rw [List.getLast?_cons] at hlast
      exact hlast
    rw [List.cons_append, replay, hfirst, Option.bind_some, ih hcs' hlast']
    rfl

/-- A command substitution leaves nothing for another to drop. -/
theorem commandSubst_idem (output : Text) :
    commandSubst (commandSubst output) = commandSubst output := by
  unfold commandSubst
  have hkept : ((output.filter (· ≠ 0)).rdropWhile (· = newline)).filter (· ≠ 0) =
      (output.filter (· ≠ 0)).rdropWhile (· = newline) := by
    rw [List.filter_eq_self]
    intro b hb
    have hmem := (List.rdropWhile_prefix _ _).subset hb
    exact (List.mem_filter.mp hmem).2
  rw [hkept]
  exact List.rdropWhile_idempotent ..

/-! ## Moves -/

section Moves

variable {api : Api} {transform : Nat → Text → Option Text} {sha : Text → Text}
  {m m' : Remote} {r : Nat} {run run' : Run} {act : Act}

/-- **What a move does**: it leaves the file alone and does not end in success; or it is
a PUT, which changes the file or not and moves on with the status of the answer. -/
theorem move_cases (h : move api transform sha m r run act = some (m', run')) :
    (∃ attempt, run = .getting attempt ∧ m' = m ∧ (run' = .exited 1 ∨
      ∃ output, transform r (commandSubst (m.file.getD [])) = some output ∧
        run' = .putting attempt (shaOf sha m.file) (commandSubst output))) ∨
    (∃ attempt requestSha newContent applied status,
      run = .putting attempt requestSha newContent ∧ act = .put applied status ∧
      api (accepts sha m.file requestSha) applied status = true ∧
      m' = (if applied then m.commit r newContent else m) ∧ run' = afterPut attempt status) := by
  cases run with
  | getting attempt =>
    left
    cases act with
    | get =>
      simp only [move] at h
      split at h
      · obtain ⟨rfl, rfl⟩ := Prod.mk.inj (Option.some.inj h)
        exact ⟨attempt, rfl, rfl, Or.inl rfl⟩
      · rename_i output houtput
        obtain ⟨rfl, rfl⟩ := Prod.mk.inj (Option.some.inj h)
        exact ⟨attempt, rfl, rfl, Or.inr ⟨output, houtput, rfl⟩⟩
    | fail =>
      obtain ⟨rfl, rfl⟩ := Prod.mk.inj (Option.some.inj h)
      exact ⟨attempt, rfl, rfl, Or.inl rfl⟩
    | put applied status => exact absurd h (by simp [move])
  | putting attempt requestSha newContent =>
    right
    cases act with
    | get => exact absurd h (by simp [move])
    | fail => exact absurd h (by simp [move])
    | put applied status =>
      simp only [move] at h
      split at h
      · rename_i hapi
        obtain ⟨rfl, rfl⟩ := Prod.mk.inj (Option.some.inj h)
        exact ⟨attempt, requestSha, newContent, applied, status, rfl, rfl, hapi, rfl, rfl⟩
      · exact absurd h (by simp)
  | exited code => exact absurd h (by cases act <;> simp [move])

/-- What a move guarantees to the other runs: it commits in nobody else's name. -/
def Guar (r : Nat) (m m' : Remote) : Prop := ∀ q, q ≠ r → (q ∈ m'.authors ↔ q ∈ m.authors)

@[simp] theorem authors_commit (m : Remote) (r : Nat) (content : Text) :
    (m.commit r content).authors = m.authors ++ [r] := by
  simp [Remote.authors, Remote.commit]

@[simp] theorem contents_commit (m : Remote) (r : Nat) (content : Text) :
    (m.commit r content).contents = m.contents ++ [content] := by
  simp [Remote.contents, Remote.commit]

/-- A commit takes nothing from the others. -/
theorem guar_commit (m : Remote) (r : Nat) (content : Text) : Guar r m (m.commit r content) := by
  intro q hne
  rw [authors_commit, List.mem_append, List.mem_singleton]
  exact or_iff_left hne

/-- A new author is named once. -/
theorem nodup_commit (hnew : r ∉ m.authors) (hnodup : m.authors.Nodup) (content : Text) :
    (m.commit r content).authors.Nodup := by
  rw [authors_commit, List.nodup_append]
  refine ⟨hnodup, List.nodup_singleton r, fun a ha b hb hab => ?_⟩
  rw [List.mem_singleton.mp hb] at hab
  exact hnew (hab ▸ ha)

end Moves

/-! ## A reliable API -/

section Reliable

variable (transform : Nat → Text → Option Text) (sha : Text → Text)

/-- A run that is about to PUT has the sha of a content from which its transform made
the new content. -/
def Prepared (r : Nat) (requestSha newContent : Text) : Prop :=
  ∃ old output, requestSha = shaOf sha old ∧
    transform r (commandSubst (old.getD [])) = some output ∧ newContent = commandSubst output

/-- A run has changed the file exactly when it has exited with 0. -/
def RunOk (m : Remote) (r : Nat) : Run → Prop
  | .getting _ => r ∉ m.authors
  | .putting _ requestSha newContent =>
    r ∉ m.authors ∧ Prepared transform sha r requestSha newContent
  | .exited code => r ∈ m.authors ↔ code = 0

/-- The file is what the transforms of the authors make of the initial one. -/
structure History (file : Option Text) (m : Remote) : Prop where
  once    : m.authors.Nodup
  current : m.file = m.contents.getLast?.or file
  replay  : replay commandSubst transform (commandSubst (file.getD [])) m.authors = some m.contents
  captured : ∀ content ∈ m.contents, commandSubst content = content

variable {transform sha}

/-- A sha that is accepted is that of the current file. -/
theorem eq_of_accepts (hinj : Function.Injective sha) (hne : ∀ content, sha content ≠ [])
    {file old : Option Text} (h : accepts sha file (shaOf sha old) = true) : file = old := by
  cases file with
  | none =>
    cases old with
    | none => rfl
    | some c => exact absurd (of_decide_eq_true h) (hne c)
  | some current =>
    cases old with
    | none => exact absurd h (by simp [accepts, shaOf])
    | some c =>
      have hsha : sha c = sha current := of_decide_eq_true (Bool.and_eq_true_iff.mp h).2
      rw [hinj hsha]

/-- What a run reads of the current file: the last content, or the initial file. -/
theorem commandSubst_current {file : Option Text} {m : Remote} (h : History transform file m) :
    commandSubst (m.file.getD []) =
      m.contents.getLast?.getD (commandSubst (file.getD [])) := by
  rw [h.current]
  cases hlast : m.contents.getLast? with
  | none => rfl
  | some content =>
    show commandSubst content = content
    exact h.captured content (List.mem_of_getLast? hlast)

/-- **A PUT of a prepared content on the current sha** is the next transform in turn. -/
theorem history_commit (hinj : Function.Injective sha) (hne : ∀ content, sha content ≠ [])
    {file : Option Text} {m : Remote} {r : Nat} {requestSha newContent : Text}
    (hhist : History transform file m) (hnew : r ∉ m.authors)
    (hprep : Prepared transform sha r requestSha newContent)
    (haccepts : accepts sha m.file requestSha = true) :
    History transform file (m.commit r newContent) := by
  obtain ⟨old, output, rfl, houtput, rfl⟩ := hprep
  -- the content that the run read is the one it replaces
  obtain rfl := eq_of_accepts hinj hne haccepts
  rw [commandSubst_current hhist] at houtput
  refine ⟨nodup_commit hnew hhist.once _, ?_, ?_, ?_⟩
  · rw [contents_commit, List.getLast?_concat]
    rfl
  · rw [authors_commit, contents_commit]
    exact replay_concat _ hhist.replay houtput
  · intro content hmem
    rw [contents_commit, List.mem_append, List.mem_singleton] at hmem
    rcases hmem with hmem | rfl
    · exact hhist.captured content hmem
    · exact commandSubst_idem output

/-- A run's state stays good under the others. -/
theorem runOk_stable {m m' : Remote} {p q : Nat} {run : Run} (hne : q ≠ p) (hguar : Guar p m m')
    (h : RunOk transform sha m q run) : RunOk transform sha m' q run := by
  have hiff := hguar q hne
  cases run with
  | getting attempt => exact fun hmem => h (hiff.mp hmem)
  | putting attempt requestSha newContent => exact ⟨fun hmem => h.1 (hiff.mp hmem), h.2⟩
  | exited code => exact hiff.trans h

/-- **Step lemma.** With a reliable API every move keeps the history sequential. -/
theorem sound_reliable (hinj : Function.Injective sha) (hne : ∀ content, sha content ≠ [])
    (file : Option Text) :
    Sound (move reliable transform sha) (History transform file) (RunOk transform sha) Guar where
  stable _ hne hguar h := runOk_stable hne hguar h
  own {m m' r run run' act} hhist hok h := by
    rcases move_cases h with ⟨attempt, rfl, rfl, hrun⟩ |
      ⟨attempt, requestSha, newContent, applied, status, rfl, rfl, hapi, rfl, rfl⟩
    · -- a GET: the run is no author yet, and is none by reading
      have hnew : r ∉ m'.authors := hok
      refine ⟨hhist, ?_, fun _ _ => Iff.rfl⟩
      rcases hrun with rfl | ⟨output, houtput, rfl⟩
      · exact iff_of_false hnew (by simp)
      · exact ⟨hnew, m'.file, output, rfl, houtput, rfl⟩
    · obtain ⟨hnew, hprep⟩ := hok
      simp only [reliable, Bool.and_eq_true, decide_eq_true_eq] at hapi
      obtain ⟨haccepts, hstatus⟩ := hapi
      -- the answer tells whether the PUT took effect
      cases applied with
      | true =>
        have hexit : afterPut attempt status = .exited 0 := by
          rw [afterPut, afterStatus, if_pos hstatus]
        rw [if_pos rfl, hexit]
        refine ⟨history_commit hinj hne hhist hnew hprep haccepts.symm, ?_,
          guar_commit m r newContent⟩
        exact iff_of_true (by simp) rfl
      | false =>
        rw [if_neg (by simp)]
        refine ⟨hhist, ?_, fun _ _ => Iff.rfl⟩
        unfold afterPut afterStatus
        rw [if_neg (by rw [hstatus]; simp)]
        split
        · exact hnew
        · exact iff_of_false hnew (by simp)

/-- At the start there is no history. -/
theorem history_start (file : Option Text) :
    Holds (History transform file) (RunOk transform sha) (start file) := by
  refine ⟨⟨List.nodup_nil, ?_, rfl, fun content h => absurd h List.not_mem_nil⟩,
    fun r => List.not_mem_nil⟩
  show file = Option.or none file
  rfl

end Reliable

/-- Every run adds a letter, the third rejects. -/
def addLetter : Nat → Text → Option Text := fun r old =>
  if r = 2 then none else some (old ++ ascii (if r = 0 then "a" else "b"))

/-- A sha that identifies the content. -/
def tagged : Text → Text := fun content => sharp :: content

/-- Both runs read the file, the first one's PUT wins, the second retries. -/
def race : List (Nat × Act) :=
  [(0, .get), (1, .get), (0, .put true 200), (2, .get), (1, .put false 409), (1, .get),
   (1, .put true 200)]

/-- Every run has changed the file at most once. -/
def AtMostOnce (m : Remote) : Prop := ∀ r, m.authors.count r ≤ 1

/-- The condition on a step: a PUT that takes effect is answered 200 or 201, or is that of
the last attempt. -/
def Answered (s : Sys) (a : Nat × Act) : Prop :=
  ∀ status attempt requestSha newContent, a.2 = .put true status →
    s.proc a.1 = .putting attempt requestSha newContent →
    success status = true ∨ maxAttempts ≤ attempt

/-- A run that has changed the file is over. -/
def Over (m : Remote) (r : Nat) : Run → Prop
  | .exited _ => True
  | _ => r ∉ m.authors

/-- A run that is over stays over. -/
theorem over_stable {m m' : Remote} {p q : Nat} {run : Run} (hne : q ≠ p) (hguar : Guar p m m')
    (h : Over m q run) : Over m' q run := by
  cases run with
  | getting attempt => exact fun hmem => h ((hguar q hne).mp hmem)
  | putting attempt requestSha newContent => exact fun hmem => h ((hguar q hne).mp hmem)
  | exited code => trivial

/-- **Step lemma.** A step that meets the condition leaves every author over. -/
theorem over_step {transform : Nat → Text → Option Text} {sha : Text → Text} {s s' : Sys}
    (a : Nat × Act) (h : Holds (fun m => m.authors.Nodup) Over s) (hok : Answered s a)
    (hs : step unreliable transform sha s a = some s') :
    Holds (fun m => m.authors.Nodup) Over s' := by
  obtain ⟨r, act⟩ := a
  obtain ⟨m', run', hmove, rfl⟩ := step_eq_some.mp hs
  obtain ⟨hnodup, hruns⟩ := h
  have hmoved : m'.authors.Nodup ∧ Over m' r run' ∧ Guar r s.shared m' := by
    have hr := hruns r
    generalize hproc : s.proc r = run at hmove hr
    rcases move_cases hmove with ⟨attempt, rfl, rfl, hrun⟩ |
      ⟨attempt, requestSha, newContent, applied, status, rfl, rfl, -, rfl, rfl⟩
    · refine ⟨hnodup, ?_, fun _ _ => Iff.rfl⟩
      rcases hrun with rfl | ⟨output, -, rfl⟩
      · trivial
      · exact hr
    · cases applied with
      | true =>
        rw [if_pos rfl]
        refine ⟨nodup_commit hr hnodup newContent, ?_, guar_commit s.shared r newContent⟩
        unfold afterPut afterStatus
        -- answered as such it exits with 0, at the sixth attempt with 1
        rcases hok status attempt requestSha newContent rfl hproc with hsuccess | hlast
        · rw [if_pos hsuccess]
          trivial
        · split
          · trivial
          · rw [if_neg (by omega)]
            trivial
      | false =>
        rw [if_neg (by simp)]
        refine ⟨hnodup, ?_, fun _ _ => Iff.rfl⟩
        unfold afterPut afterStatus
        split
        · trivial
        · split
          · exact hr
          · trivial
  refine ⟨hmoved.1, forall_update hmoved.2.1 fun q hne => ?_⟩
  exact over_stable hne hmoved.2.2 (hruns q)

/-- **An answer that hides a commit is followed by a second one**: the run reads its own
content back, transforms it again, and its sha is the current one. -/
theorem second_commit {transform : Nat → Text → Option Text} {sha : Text → Text} {s : Sys}
    {r attempt status : Nat} {requestSha newContent output : Text}
    (hproc : s.proc r = .putting attempt requestSha newContent)
    (haccepts : accepts sha s.shared.file requestSha = true) (hstatus : success status = false)
    (hattempt : attempt < maxAttempts) (hne : sha newContent ≠ [])
    (hagain : transform r (commandSubst newContent) = some output) :
    ∃ s', exec (step unreliable transform sha) s
        [(r, .put true status), (r, .get), (r, .put true 200)] = some s' ∧
      s'.shared.authors = s.shared.authors ++ [r, r] := by
  obtain ⟨s₁, hs₁⟩ : ∃ s₁ : Sys, s₁ = ⟨s.shared.commit r newContent,
    Function.update s.proc r (.getting (attempt + 1))⟩ := ⟨_, rfl⟩
  obtain ⟨s₂, hs₂⟩ : ∃ s₂ : Sys, s₂ = ⟨s₁.shared, Function.update s₁.proc r
    (.putting (attempt + 1) (sha newContent) (commandSubst output))⟩ := ⟨_, rfl⟩
  obtain ⟨s₃, hs₃⟩ : ∃ s₃ : Sys, s₃ = ⟨s₂.shared.commit r (commandSubst output),
    Function.update s₂.proc r (.exited 0)⟩ := ⟨_, rfl⟩
  -- the run believes that it has lost a race
  have hput : step unreliable transform sha s (r, .put true status) = some s₁ := by
    refine step_eq_some.mpr ⟨_, _, ?_, hs₁⟩
    rw [hproc, move, haccepts, if_pos (by rfl), if_pos rfl, afterPut, afterStatus,
      if_neg (by simp [hstatus]),
      if_pos hattempt]
  -- it reads what it has just written
  have hget : step unreliable transform sha s₁ (r, .get) = some s₂ := by
    refine step_eq_some.mpr ⟨_, _, ?_, hs₂⟩
    have hfile : s₁.shared.file = some newContent := by
      rw [hs₁]
      rfl
    rw [show s₁.proc r = .getting (attempt + 1) by rw [hs₁]; exact Function.update_self ..]
    simp [move, hfile, hagain, shaOf]
  -- nobody has written in between, so the sha is the current one
  have hput' : step unreliable transform sha s₂ (r, .put true 200) = some s₃ := by
    refine step_eq_some.mpr ⟨_, _, ?_, hs₃⟩
    have hfile : s₂.shared.file = some newContent := by
      rw [hs₂, hs₁]
      rfl
    have haccepts' : accepts sha s₂.shared.file (sha newContent) = true := by
      rw [hfile]
      simp [accepts, hne]
    rw [show s₂.proc r = .putting (attempt + 1) (sha newContent) (commandSubst output) by
        rw [hs₂]; exact Function.update_self ..,
      move, haccepts', if_pos (by rfl), if_pos rfl]
    rfl
  refine ⟨s₃, ?_, ?_⟩
  · rw [exec_cons, hput, Option.bind_some, exec_cons, hget, Option.bind_some, exec_cons, hput',
      Option.bind_some, exec_nil]
  · rw [hs₃, hs₂, hs₁, authors_commit, authors_commit, List.append_assoc]
    rfl

/-- **At most one change for each run, and when there are two.** For any transforms, sha
and initial file, with an API that applies a PUT only on the current sha but may answer
anything: if every PUT that takes effect is answered 200 or 201, or is of the sixth
attempt, every run changes the file at most once; and a reachable PUT that takes effect,
is answered otherwise and is not of the sixth attempt can be followed by a second change
of the same run, when its transform accepts what it has just written. -/
theorem atMostOnce_of_answered (transform : Nat → Text → Option Text) (sha : Text → Text)
    (file : Option Text) :
    (∀ as s, StepsMeet (step unreliable transform sha) Answered (start file) as →
      exec (step unreliable transform sha) (start file) as = some s → AtMostOnce s.shared) ∧
    (∀ as s r status attempt requestSha newContent,
      exec (step unreliable transform sha) (start file) as = some s →
      s.proc r = .putting attempt requestSha newContent →
      accepts sha s.shared.file requestSha = true →
      ¬ Answered s (r, .put true status) → sha newContent ≠ [] →
      (transform r (commandSubst newContent)).isSome = true →
      ∃ s', exec (step unreliable transform sha) (start file)
          (as ++ [(r, .put true status), (r, .get), (r, .put true 200)]) = some s' ∧
        ¬ AtMostOnce s'.shared) := by
  constructor
  · intro as s hmeet hrun r
    have hinv : Holds (fun m => m.authors.Nodup) Over s := by
      refine exec_invariant_of_meets (fun s a s' h hok hs => over_step a h hok hs) ?_ hmeet hrun
      exact ⟨List.nodup_nil, fun r => List.not_mem_nil⟩
    exact List.nodup_iff_count_le_one.mp hinv.1 r
  · intro as s r status attempt requestSha newContent hrun hproc haccepts hnot hne hagain
    -- the condition fails only for an answer that hides the commit and leaves an attempt
    obtain ⟨output, houtput⟩ := Option.isSome_iff_exists.mp hagain
    have hhidden : success status = false ∧ attempt < maxAttempts := by
      constructor
      · by_contra hsuccess
        rw [Bool.not_eq_false] at hsuccess
        refine hnot fun status' attempt' _ _ hact hproc' => Or.inl ?_
        obtain ⟨-, rfl⟩ := Act.put.inj hact
        exact hsuccess
      · by_contra hlast
        refine hnot fun status' attempt' _ _ hact hproc' => Or.inr ?_
        obtain ⟨rfl, -, -⟩ := Run.putting.inj (hproc.symm.trans hproc')
        omega
    obtain ⟨s', hs', hauthors⟩ :=
      second_commit hproc haccepts hhidden.1 hhidden.2 hne houtput
    refine ⟨s', ?_, fun honce => ?_⟩
    · rw [exec_append, hrun]
      exact hs'
    · have hcount := honce r
      rw [hauthors, List.count_append] at hcount
      have htwo : List.count r [r, r] = 2 := by simp
      omega

/-- **A lost answer applies the transform twice**: the first PUT takes effect and is
answered 502; the retry reads the new content and transforms it again. -/
theorem atMostOnce_fails_on_hidden_commit :
    ¬ ∀ (transform : Nat → Text → Option Text) (sha : Text → Text) (file : Option Text)
        (as : List (Nat × Act)) (s : Sys),
        Function.Injective sha → (∀ content, sha content ≠ []) →
        exec (step unreliable transform sha) (start file) as = some s → AtMostOnce s.shared := by
  intro h
  have hview : (exec (step unreliable addLetter tagged) (start (some (ascii "c")))
      [(0, .get), (0, .put true 502), (0, .get), (0, .put true 200)]).map
      (fun s => (s.proc 0, s.shared.commits)) =
        some (.exited 0, [⟨0, ascii "ca"⟩, ⟨0, ascii "caa"⟩]) := by decide
  obtain ⟨s, hrun, hs⟩ := Option.map_eq_some_iff.mp hview
  have honce := h addLetter tagged _ _ s (fun _ _ h => (List.cons.inj h).2)
    (fun content => List.cons_ne_nil sharp content) hrun 0
  rw [Remote.authors, (Prod.mk.inj hs).2] at honce
  exact absurd honce (by decide)

end Swayam.Cas
