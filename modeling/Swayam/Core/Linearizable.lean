import Mathlib.Data.List.Nodup
import Swayam.Core.LogText

/-!
# SWAYAM — appends and queries on one log

Without merges, the lock orders the appends by their renames and keeps the log
still while a query reads it, whatever the schedule, the kills and the process
ids that are used again.

* `inv_step` — the log is the header line and the entries renamed so far, and every
  append has renamed once or not at all;
* `answers_step` — a query answers what the log reports at a moment of the call;
* `hashFields_renamedLog` — what the log reports are the hashes of the renamed appends;
* `linearizable_of_run` — the three, in every state of every run.
-/

namespace Swayam.LogSystem

open Interleaving Machine Delimited

/-! ## Statements -/

/-- The call that an action starts, if any, is a query, or an append with a label of one
line. -/
def PlainAct : Act → Prop
  | .start _ (.append a) => newline ∉ a.sourceLabel
  | .start _ (.merge _) => False
  | _ => True

instance : DecidablePred PlainAct
  | .start _ (.append a) => inferInstanceAs (Decidable (newline ∉ a.sourceLabel))
  | .start _ (.merge _) => inferInstanceAs (Decidable False)
  | .start _ (.query _) => inferInstanceAs (Decidable True)
  | .go _ => inferInstanceAs (Decidable True)
  | .kill => inferInstanceAs (Decidable True)

/-- A run of appends with labels of one line, and queries. -/
def AppendsAndQueries (es : List Event) : Prop := ∀ e ∈ es, PlainAct e.2

instance (es : List Event) : Decidable (AppendsAndQueries es) :=
  inferInstanceAs (Decidable (∀ e ∈ es, PlainAct e.2))

/-- The entry of an append as a line of the log. -/
def AppendArgs.record (a : AppendArgs) : Text := a.entry.dropLast

/-- The log that the renames so far make: none, or the header line and their entries. -/
def renamedLog : List (Nat × AppendArgs) → Option Text
  | [] => none
  | renames => some (headerLine ++ renames.flatMap fun r => r.2.entry)

/-- The process is in a call of `is_quarantined` for this hash. -/
def InQuery (proc : Proc) (hash : UInt64) : Prop :=
  ∃ pid pc, proc = .running pid (.query hash pc)

/-- What holds at the end `s` of a run `es` from an absent log. -/
structure Linearizable (es : List Event) (s : Sys) : Prop where
  log     : s.shared.logText = renamedLog s.shared.renames
  lines   : ∀ t, s.shared.logText = some t →
    lines newline t = quarantineVersionHeader :: s.shared.renames.map fun r => r.2.record
  once    : (s.shared.renames.map Prod.fst).Nodup
  renamed : ∀ p a, renamed (s.proc p) = some a → (p, a) ∈ s.shared.renames
  only    : ∀ p a, (p, a) ∈ s.shared.renames →
    s.proc p = .killed ∨ LogSystem.renamed (s.proc p) = some a
  answers : ∀ p hash found, s.proc p = .ended (.answered hash found) →
    ∃ es₁ es₂ s₁, es = es₁ ++ es₂ ∧ exec step (init none) es₁ = some s₁ ∧
      InQuery (s₁.proc p) hash ∧
      (found = true ↔ hashText hash ∈ hashFields s₁.shared.liveText) ∧
      (found = true ↔ ∃ r ∈ s₁.shared.renames, r.2.hash = hash)

/-! ## No merges -/

/-- The process makes no merge, and its append has a label of one line. -/
def Plain : Proc → Prop
  | .running _ (.append a _) => newline ∉ a.sourceLabel
  | .running _ (.merge _ _) => False
  | _ => True

/-- An append keeps its arguments. -/
theorem moveAppend_proc {k k' : Kernel} {p pid n : Nat} {a : AppendArgs} {pc : AppendPc}
    {proc : Proc} (h : moveAppend k p pid a n pc = some (k', proc)) :
    (∃ pc', proc = .running pid (.append a pc')) ∨ proc = .ended (.appended a) := by
  cases pc with
  | started =>
    obtain ⟨k₁, -, heq⟩ := Option.map_eq_some_iff.mp h
    exact Or.inl ⟨_, (Prod.mk.inj heq).2.symm⟩
  | written existing =>
    obtain ⟨k₁, -, heq⟩ := Option.map_eq_some_iff.mp h
    exact Or.inl ⟨_, (Prod.mk.inj heq).2.symm⟩
  | loaded existing => exact Or.inl ⟨_, (Prod.mk.inj (Option.some.inj h)).2.symm⟩
  | renamed => exact Or.inr (Prod.mk.inj (Option.some.inj h)).2.symm
  | locked =>
    simp only [moveAppend] at h
    split at h <;> exact Or.inl ⟨_, (Prod.mk.inj (Option.some.inj h)).2.symm⟩
  | reading fd buf =>
    simp only [moveAppend] at h
    split at h <;> exact Or.inl ⟨_, (Prod.mk.inj (Option.some.inj h)).2.symm⟩
  | writing fd existing rest =>
    simp only [moveAppend] at h
    split at h <;> exact Or.inl ⟨_, (Prod.mk.inj (Option.some.inj h)).2.symm⟩

/-- A query moves to another stage of itself or answers. -/
theorem moveQuery_proc {k k' : Kernel} {p pid n : Nat} {hash : UInt64} {pc : QueryPc}
    {proc : Proc} (h : moveQuery k p pid hash n pc = some (k', proc)) :
    (∃ pc', proc = .running pid (.query hash pc')) ∨
      ∃ found, proc = .ended (.answered hash found) := by
  cases pc with
  | started =>
    obtain ⟨k₁, -, heq⟩ := Option.map_eq_some_iff.mp h
    exact Or.inl ⟨_, (Prod.mk.inj heq).2.symm⟩
  | locked =>
    simp only [moveQuery] at h
    split at h <;> exact Or.inl ⟨_, (Prod.mk.inj (Option.some.inj h)).2.symm⟩
  | reading fd buf =>
    simp only [moveQuery] at h
    split at h
    · exact Or.inl ⟨_, (Prod.mk.inj (Option.some.inj h)).2.symm⟩
    · split at h <;> exact Or.inl ⟨_, (Prod.mk.inj (Option.some.inj h)).2.symm⟩
  | answered found => exact Or.inr ⟨found, (Prod.mk.inj (Option.some.inj h)).2.symm⟩

/-- A plain process stays one through plain steps. -/
theorem plain_move {k k' : Kernel} {p : Nat} {proc proc' : Proc} {act : Act}
    (hplain : Plain proc) (hact : PlainAct act)
    (h : move k p proc act = some (k', proc')) : Plain proc' := by
  rcases move_cases h with ⟨pid, call, rfl, rfl, -, -, rfl⟩ |
    ⟨pid, task, n, rfl, rfl, hmove⟩ | ⟨pid, task, rfl, rfl, -, rfl⟩
  · cases call with
    | append a => exact hact
    | query hash => trivial
    | merge c => exact hact.elim
  · cases task with
    | append a pc =>
      rcases moveAppend_proc hmove with ⟨pc', rfl⟩ | rfl
      · exact hplain
      · trivial
    | query hash pc =>
      rcases moveQuery_proc hmove with ⟨pc', rfl⟩ | ⟨found, rfl⟩
      · trivial
      · trivial
    | merge c pc => exact hplain.elim
  · trivial

/-! ## The invariant -/

/-- What the steps of a run without merges keep. -/
structure Inv (s : Sys) : Prop where
  base    : Base s
  fresh   : Fresh s
  plain   : ∀ p, Plain (s.proc p)
  log     : s.shared.logText = renamedLog s.shared.renames
  labels  : ∀ r ∈ s.shared.renames, newline ∉ r.2.sourceLabel
  once    : (s.shared.renames.map Prod.fst).Nodup
  renamed : ∀ p a, renamed (s.proc p) = some a → (p, a) ∈ s.shared.renames
  only    : ∀ p a, (p, a) ∈ s.shared.renames →
    s.proc p = .killed ∨ LogSystem.renamed (s.proc p) = some a

/-- A rename over the log of the renames so far. -/
theorem renamedLog_concat {renames : List (Nat × AppendArgs)} {existing : Text}
    (h : existing = (renamedLog renames).getD []) (p : Nat) (a : AppendArgs) :
    some (withHeader existing ++ a.entry) = renamedLog (renames ++ [(p, a)]) := by
  cases renames with
  | nil =>
    rw [h]
    show some (withHeader [] ++ a.entry) = some (headerLine ++ (a.entry ++ []))
    rw [withHeader_nil, List.append_nil]
  | cons r rs =>
    rw [h]
    show some (withHeader (headerLine ++ _) ++ a.entry) = some (headerLine ++ _)
    rw [withHeader_headerLine_append, List.append_assoc]
    simp

/-- **Step lemma.** A step that starts no merge keeps the invariant. -/
theorem inv_step {s s' : Sys} (e : Event) (hinv : Inv s) (hact : PlainAct e.2)
    (h : step s e = some s') : Inv s' := by
  obtain ⟨p, act⟩ := e
  have hbase' : Base s' := base_step _ hinv.base h
  have hfresh' : Fresh s' := by
    refine fresh_step _ hinv.base hinv.fresh ?_ h
    -- without merges no write can be behind a snapshot
    intro n pid c fd hashes written rest _ hproc _
    have hplain := hinv.plain p
    rw [show s.proc p = _ from hproc] at hplain
    exact hplain.elim
  obtain ⟨k', proc', hmove, rfl⟩ := step_eq_some.mp h
  have hplain' : ∀ q, Plain (Function.update s.proc p proc' q) :=
    forall_update (P := fun _ => Plain) (plain_move (hinv.plain p) hact hmove)
      fun q _ => hinv.plain q
  have htext := move_text hinv.base.1 (hinv.base.2 p) hmove
  have hplain := hinv.plain p
  generalize hproc : s.proc p = proc at hmove htext hplain
  cases htext with
  | quiet hlog hrenames hquiet =>
    -- nothing is renamed: the log and the list of renames stay
    refine ⟨hbase', hfresh', hplain', ?_, ?_, ?_, ?_, ?_⟩
    · show k'.logText = renamedLog k'.renames
      rw [hlog, hrenames]
      exact hinv.log
    · show ∀ r ∈ k'.renames, newline ∉ r.2.sourceLabel
      rw [hrenames]
      exact hinv.labels
    · show (k'.renames.map Prod.fst).Nodup
      rw [hrenames]
      exact hinv.once
    · intro q a
      show renamed (Function.update s.proc p proc' q) = some a → (q, a) ∈ k'.renames
      rw [hrenames]
      refine forall_update (P := fun q l => renamed l = some a → (q, a) ∈ s.shared.renames)
        (fun hren => ?_) (fun q _ => hinv.renamed q a) q
      refine hinv.renamed p a ?_
      rw [hproc]
      exact hquiet.renamed a hren
    · intro q a
      show (q, a) ∈ k'.renames → _
      rw [hrenames]
      refine forall_update (P := fun q l => (q, a) ∈ s.shared.renames →
        l = .killed ∨ renamed l = some a) (fun hmem => ?_) (fun q _ => hinv.only q a) q
      rcases hinv.only p a hmem with hkilled | hren
      · exact absurd (hproc.symm.trans hkilled) hquiet.alive
      · rw [hproc] at hren
        exact hquiet.kept a hren
  | rename n pid a existing hlog hrenames =>
    have hcopy : existing = (renamedLog s.shared.renames).getD [] := by
      rw [← hinv.log]
      refine hinv.fresh p existing ?_
      rw [hproc]
      rfl
    -- an append that is about to rename has not renamed yet
    have hnew : p ∉ s.shared.renames.map Prod.fst := by
      intro hmem
      obtain ⟨⟨q, b⟩, hb, rfl⟩ := List.mem_map.mp hmem
      rcases hinv.only q b hb with hkilled | hren
      · exact absurd (hproc.symm.trans hkilled) (by simp)
      · rw [show s.proc q = _ from hproc] at hren
        exact absurd hren (by simp [renamed])
    -- one rename more: its entry is the last of the log
    refine ⟨hbase', hfresh', hplain', ?_, ?_, ?_, ?_, ?_⟩
    · show k'.logText = renamedLog k'.renames
      rw [hlog, hrenames]
      exact renamedLog_concat hcopy p a
    · show ∀ r ∈ k'.renames, newline ∉ r.2.sourceLabel
      rw [hrenames]
      intro r hr
      rcases List.mem_append.mp hr with hr | hr
      · exact hinv.labels r hr
      · rw [List.mem_singleton.mp hr]
        exact hplain
    · show (k'.renames.map Prod.fst).Nodup
      rw [hrenames, List.map_append, List.nodup_append]
      refine ⟨hinv.once, List.nodup_singleton _, fun x hx y hy hxy => ?_⟩
      have hxp : x = p := hxy.trans (List.mem_singleton.mp hy)
      exact hnew (hxp ▸ hx)
    · intro q b
      show renamed (Function.update s.proc p _ q) = some b → (q, b) ∈ k'.renames
      rw [hrenames]
      refine forall_update (P := fun q l => renamed l = some b →
        (q, b) ∈ s.shared.renames ++ [(p, a)]) (fun hren => ?_)
        (fun q _ hren => List.mem_append_left _ (hinv.renamed q b hren)) q
      rw [show a = b from Option.some.inj hren]
      exact List.mem_append_right _ (List.mem_singleton_self _)
    · intro q b
      show (q, b) ∈ k'.renames → _
      rw [hrenames]
      refine forall_update (P := fun q l => (q, b) ∈ s.shared.renames ++ [(p, a)] →
        l = .killed ∨ renamed l = some b) (fun hmem => ?_) (fun q hne hmem => ?_) q
      · rcases List.mem_append.mp hmem with hmem | hmem
        · exact absurd (List.mem_map_of_mem hmem) hnew
        · rw [(Prod.mk.inj (List.mem_singleton.mp hmem)).2]
          exact Or.inr rfl
      · rcases List.mem_append.mp hmem with hmem | hmem
        · exact hinv.only q b hmem
        · exact absurd (Prod.mk.inj (List.mem_singleton.mp hmem)).1 hne
  | openLog n pid c ls log => exact hplain.elim
  | write n pid c fd hashes written rest hrest => exact hplain.elim

/-- Nothing has happened at the start. -/
theorem inv_init : Inv (init none) where
  base := base_init none
  fresh p e h := absurd h (by simp [init, snapshot])
  plain p := trivial
  log := rfl
  labels r h := absurd h List.not_mem_nil
  once := List.nodup_nil
  renamed p a h := absurd h (by simp [init, renamed])
  only p a h := absurd h List.not_mem_nil

/-! ## Answers -/

/-- Every answer is what the log reports after some prefix of the run, in the call. -/
def Answers (es : List Event) (s : Sys) : Prop :=
  ∀ p hash found, answer (s.proc p) = some (hash, found) →
    ∃ es₁ es₂ s₁, es = es₁ ++ es₂ ∧ exec step (init none) es₁ = some s₁ ∧
      InQuery (s₁.proc p) hash ∧ found = isRecorded s₁.shared.liveText hash

/-- **A query is answered at the step that finds its answer.** -/
theorem answers_step {es : List Event} {s s' : Sys} (e : Event) (hbase : Base s)
    (hplain : ∀ p, Plain (s.proc p)) (hrun : exec step (init none) es = some s)
    (hanswers : Answers es s) (h : step s e = some s') : Answers (es ++ [e]) s' := by
  -- what was answered before keeps its moment
  have hold : ∀ q hash found, answer (s.proc q) = some (hash, found) →
      ∃ es₁ es₂ s₁, es ++ [e] = es₁ ++ es₂ ∧ exec step (init none) es₁ = some s₁ ∧
        InQuery (s₁.proc q) hash ∧ found = isRecorded s₁.shared.liveText hash := by
    intro q hash found hanswer
    obtain ⟨es₁, es₂, s₁, hsplit, hs₁⟩ := hanswers q hash found hanswer
    exact ⟨es₁, es₂ ++ [e], s₁, by rw [hsplit, List.append_assoc], hs₁⟩
  obtain ⟨p, act⟩ := e
  obtain ⟨k', proc', hmove, rfl⟩ := step_eq_some.mp h
  have htext := move_text hbase.1 (hbase.2 p) hmove
  have hplain := hplain p
  generalize hproc : s.proc p = proc at hmove htext hplain
  intro q hash found
  refine forall_update (P := fun q l => answer l = some (hash, found) →
    ∃ es₁ es₂ s₁, es ++ [(p, act)] = es₁ ++ es₂ ∧ exec step (init none) es₁ = some s₁ ∧
      InQuery (s₁.proc q) hash ∧ found = isRecorded s₁.shared.liveText hash)
    (fun hanswer => ?_) (fun q _ => hold q hash found) q
  cases htext with
  | quiet hlog hrenames hquiet =>
    rcases hquiet.answer hash found hanswer with hbefore | ⟨hquery, hfound⟩
    · rw [← hproc] at hbefore
      exact hold p hash found hbefore
    · -- the answer is found in this step, so the state before it is the moment
      rw [← hproc] at hquery
      exact ⟨es, [(p, act)], s, rfl, hrun, hquery, hfound⟩
  | rename n pid a existing hlog hrenames => exact absurd hanswer (by simp [answer])
  | openLog n pid c ls log => exact hplain.elim
  | write n pid c fd hashes written rest hrest => exact hplain.elim

/-! ## Runs -/

/-- The entry of an append with a label of one line is its record and a newline. -/
theorem entry_eq_record {a : AppendArgs} (h : newline ∉ a.sourceLabel) :
    a.entry = a.record ++ [newline] ∧ newline ∉ a.record := by
  obtain ⟨l, hentry, hl, -⟩ := quarantineEntry_eq_line a.hash a.signalNum a.now h
  have hrecord : a.record = l := by
    rw [AppendArgs.record, AppendArgs.entry, hentry, List.dropLast_concat]
  rw [hrecord]
  exact ⟨hentry, hl⟩

/-- Records of one line each are the lines of their concatenation. -/
theorem lines_records {renames : List (Nat × AppendArgs)}
    (h : ∀ r ∈ renames, newline ∉ r.2.sourceLabel) :
    lines newline (renames.flatMap fun r => r.2.entry) = renames.map fun r => r.2.record := by
  induction renames with
  | nil => rfl
  | cons r rs ih =>
    obtain ⟨hentry, hrecord⟩ := entry_eq_record (h r (List.mem_cons_self ..))
    have hrest := ih fun r' hr' => h r' (List.mem_cons_of_mem _ hr')
    rw [List.flatMap_cons, hentry, List.append_assoc, List.singleton_append,
      lines_append_sep hrecord, hrest, List.map_cons]

/-- What a log of renamed appends reports: their hashes, in the order of the renames. -/
theorem hashFields_renamedLog {renames : List (Nat × AppendArgs)}
    (h : ∀ r ∈ renames, newline ∉ r.2.sourceLabel) :
    hashFields ((renamedLog renames).getD []) = renames.map fun r => hashText r.2.hash := by
  have hentries : hashFields (renames.flatMap fun r => r.2.entry) =
      renames.map fun r => hashText r.2.hash := by
    induction renames with
    | nil => rfl
    | cons r rs ih =>
      have hlabel := h r (List.mem_cons_self ..)
      have hclosed : lastLine newline r.2.entry = [] := by
        rw [(entry_eq_record hlabel).1]
        exact lastLine_append_sep _
      have hentry : hashFields r.2.entry = [hashText r.2.hash] :=
        hashFields_append_quarantineEntry lastLine_nil r.2.hash r.2.signalNum r.2.now hlabel
      rw [List.flatMap_cons, hashFields, keys_append_of_closed hclosed]
      show hashFields _ ++ hashFields _ = _
      rw [hentry, ih fun r' hr' => h r' (List.mem_cons_of_mem _ hr')]
      rfl
  cases renames with
  | nil => rfl
  | cons r rs =>
    show hashFields (headerLine ++ _) = _
    rw [hashFields_headerLine_append, hentries]

/-- **Appends and queries are linearizable and crash-safe.** In every run from an absent
log, with any number of processes, any schedule and any kills: at every moment the log is
absent or the header line followed by one complete record for each append whose rename
has happened, in the order of the renames; and every finished query answered whether its
hash was in the log, that is of a renamed append, at some moment of the call. -/
theorem linearizable_of_run (es : List Event) (s : Sys) (hcalls : AppendsAndQueries es)
    (hrun : exec step (init none) es = some s) : Linearizable es s := by
  -- by induction on the run, which carries the invariant and the answers together
  have hboth : ∀ es s, exec step (init none) es = some s → AppendsAndQueries es →
      Inv s ∧ Answers es s := by
    refine exec_induction
      (fun _ => ⟨inv_init, fun p hash found h => absurd h (by simp [init, answer])⟩) ?_
    intro es s e s' hexec ih hs hcalls
    obtain ⟨hinv, hanswers⟩ := ih fun e' he' => hcalls e' (List.mem_append_left _ he')
    have hact := hcalls e (List.mem_append_right _ (List.mem_singleton_self _))
    exact ⟨inv_step e hinv hact hs, answers_step e hinv.base hinv.plain hexec hanswers hs⟩
  obtain ⟨hinv, hanswers⟩ := hboth es s hrun hcalls
  refine ⟨hinv.log, fun t ht => ?_, hinv.once, hinv.renamed, hinv.only, ?_⟩
  · have hlog := hinv.log
    cases hrenames : s.shared.renames with
    -- no rename, no log
    | nil =>
      rw [ht, hrenames] at hlog
      exact absurd hlog (by simp [renamedLog])
    | cons r rs =>
      rw [ht, hrenames] at hlog
      rw [Option.some.inj hlog, ← hrenames, headerLine, List.append_assoc,
        List.singleton_append, lines_append_sep newline_notMem_header,
        lines_records hinv.labels]
  · intro p hash found hended
    obtain ⟨es₁, es₂, s₁, hsplit, hexec, hquery, hfound⟩ :=
      hanswers p hash found (by rw [hended]; rfl)
    -- the moment of the answer is a state of a shorter run
    have hinv₁ := (hboth es₁ s₁ hexec fun e he =>
      hcalls e (by rw [hsplit]; exact List.mem_append_left _ he)).1
    have hmem : found = true ↔ hashText hash ∈ hashFields s₁.shared.liveText := by
      rw [hfound]
      exact isRecorded_iff
    refine ⟨es₁, es₂, s₁, hsplit, hexec, hquery, hmem, ?_⟩
    rw [hmem, Kernel.liveText, hinv₁.log, hashFields_renamedLog hinv₁.labels, List.mem_map]
    constructor
    · rintro ⟨r, hr, hhash⟩
      exact ⟨r, hr, hashText_injective hhash⟩
    · rintro ⟨r, hr, hhash⟩
      exact ⟨r, hr, by rw [hhash]⟩

/-! ### A killed append and a query -/

/-- Process 0 is killed with its temp file half written; process 1 gets its process id,
and appends; process 2 asks for the hash. -/
def crashRun : List Event :=
  [(0, .start 40 (.append ⟨7, 6, ascii "m.cpp", 1700000000⟩)), (0, .go 0), (0, .go 0), (0, .go 0),
   (0, .go 9), (0, .kill),
   (1, .start 40 (.append ⟨8, 11, ascii "n.cpp", 1700000060⟩)), (1, .go 0), (1, .go 0), (1, .go 0),
   (1, .go 30), (1, .go 999), (1, .go 0), (1, .go 0), (1, .go 0),
   (2, .start 40 (.query 8)), (2, .go 0), (2, .go 0), (2, .go 999), (2, .go 0), (2, .go 0)]

/-- A run in which a process is killed and another answers. -/
theorem linearizable_crashRun :
    ∃ s, exec step (init none) crashRun = some s ∧ Linearizable crashRun s ∧
      s.proc 2 = .ended (.answered 8 true) := by
  have hview : (exec step (init none) crashRun).map (fun s => s.proc 2) =
      some (.ended (.answered 8 true)) := by decide
  obtain ⟨s, hrun, hs⟩ := Option.map_eq_some_iff.mp hview
  have hcalls : AppendsAndQueries crashRun := by decide
  exact ⟨s, hrun, linearizable_of_run crashRun s hcalls hrun, hs⟩

end Swayam.LogSystem
