import Swayam.Core.LogInvariants

/-!
# SWAYAM — the text of the log, step by step

What a move does to the text that the log path names:

* `move_text` — nothing, a rename, a merge's open, or a merge's write;
* `fresh_step` — what an append has read stays the text of the log until it is
  renamed over it, as long as no merge writes in between.
-/

namespace Swayam.LogSystem

open Interleaving

/-! ## Moves -/

section LogText

variable {k k' : Kernel} {p pid : Nat}

/-- The log is what the path names. -/
theorem liveText_of_log {k : Kernel} {fd : Nat} (h : k.log = some fd) :
    k.liveText = k.data fd := by
  rw [Kernel.liveText, Kernel.logText, h]
  rfl

theorem liveText_of_none (h : k.log = none) : k.liveText = [] := by
  rw [Kernel.liveText, Kernel.logText, h]
  rfl

/-- New content in an inode that the path does not name. -/
theorem logText_data {fd : Nat} (h : k.log ≠ some fd) (t : Text) :
    Kernel.logText { k with data := Function.update k.data fd t } = k.logText := by
  unfold Kernel.logText
  cases hlog : k.log with
  | none => rfl
  | some fd' =>
    have hne : fd' ≠ fd := by
      rintro rfl
      exact h hlog
    show some (Function.update k.data fd t fd') = some (k.data fd')
    rw [Function.update_of_ne hne]

/-- A temporary file shows nothing in the log. -/
theorem logText_openTmp (hglob : Glob k) : (k.openTmp pid).1.logText = k.logText := by
  rcases openTmp_cases k pid with ⟨fd, htmp, h⟩ | ⟨-, h⟩
  · rw [h]
    -- the file emptied is not the log
    exact logText_data (fun hlog => (hglob.log fd hlog).2 pid htmp) []
  · rw [h]
    exact logText_data (fun hlog => absurd (hglob.log _ hlog).1 (lt_irrefl _)) []

/-- Creating the log empty changes nothing that a reader would read. -/
theorem liveText_openLog : k.openLog.1.liveText = k.liveText := by
  rcases openLog_cases k with ⟨fd, -, h⟩ | ⟨hnone, h⟩
  · rw [h]
  · have hnew : Kernel.log { k.create with log := some k.next } = some k.next := rfl
    rw [h, liveText_of_none hnone, liveText_of_log hnew]
    exact Function.update_self ..

/-- The snapshot of the log that a running append has read and not yet replaced. -/
def snapshot : Proc → Option Text
  | .running _ (.append _ (.loaded existing)) => some existing
  | .running _ (.append _ (.writing _ existing _)) => some existing
  | .running _ (.append _ (.written existing)) => some existing
  | _ => none

/-- The append whose rename a process has made. -/
def renamed : Proc → Option AppendArgs
  | .running _ (.append a .renamed) => some a
  | .ended (.appended a) => some a
  | _ => none

/-- The answer that a query has found. -/
def answer : Proc → Option (UInt64 × Bool)
  | .running _ (.query hash (.answered found)) => some (hash, found)
  | .ended (.answered hash found) => some (hash, found)
  | _ => none

/-- The hashes that a call has recorded: that of a finished or renamed append, those of
the records that a merge has written so far. -/
def recorded : Proc → List Text
  | .running _ (.append a .renamed) => [hashText a.hash]
  | .ended (.appended a) => [hashText a.hash]
  | .running _ (.merge _ (.appending _ _ written _)) => hashFields written
  | .ended (.merged _ hashes) => hashes
  | _ => []

/-- What a move that leaves the log alone does to its process. -/
structure Quiet (k : Kernel) (proc proc' : Proc) : Prop where
  alive    : proc ≠ .killed
  snapshot : ∀ e, snapshot proc' = some e → snapshot proc = some e ∨ e = k.liveText
  recorded : recorded proc' ⊆ recorded proc
  answer   : ∀ hash found, answer proc' = some (hash, found) →
    answer proc = some (hash, found) ∨
      (∃ pid pc, proc = .running pid (.query hash pc)) ∧ found = isRecorded k.liveText hash
  renamed  : ∀ a, renamed proc' = some a → renamed proc = some a
  kept     : ∀ a, LogSystem.renamed proc = some a →
    proc' = .killed ∨ LogSystem.renamed proc' = some a

/-- A move between stages that have none of these is quiet. -/
theorem quiet_of_none {proc proc' : Proc} (halive : proc ≠ .killed)
    (hsnapshot : snapshot proc' = none) (hrecorded : recorded proc' = [])
    (hanswer : answer proc' = none) (hrenamed : renamed proc' = none)
    (hkept : proc' = .killed ∨ renamed proc = none) : Quiet k proc proc' where
  alive := halive
  snapshot e h := by
    rw [hsnapshot] at h
    exact absurd h (by simp)
  recorded := by
    rw [hrecorded]
    exact List.nil_subset _
  answer hash found h := by
    rw [hanswer] at h
    exact absurd h (by simp)
  renamed a h := by
    rw [hrenamed] at h
    exact absurd h (by simp)
  kept a h := by
    rcases hkept with hkilled | hnone
    · exact Or.inl hkilled
    · rw [hnone] at h
      exact absurd h (by simp)

/-- A move to a stage with a snapshot, of the log or of the stage before. -/
theorem quiet_of_snapshot {pid : Nat} {a : AppendArgs} {pc pc' : AppendPc} {e : Text}
    (hpc : renamed (.running pid (.append a pc)) = none)
    (he : snapshot (.running pid (.append a pc')) = some e)
    (hold : snapshot (.running pid (.append a pc)) = some e ∨ e = k.liveText) :
    Quiet k (.running pid (.append a pc)) (.running pid (.append a pc')) := by
  have hpc' : renamed (.running pid (.append a pc')) = none ∧
      recorded (.running pid (.append a pc')) = [] := by
    cases pc' with
    | renamed => exact absurd he (by simp [snapshot])
    | started => exact ⟨rfl, rfl⟩
    | locked => exact ⟨rfl, rfl⟩
    | reading fd buf => exact ⟨rfl, rfl⟩
    | loaded existing => exact ⟨rfl, rfl⟩
    | writing fd existing rest => exact ⟨rfl, rfl⟩
    | written existing => exact ⟨rfl, rfl⟩
  refine ⟨by simp, fun e' he' => ?_, ?_, fun hash found h => absurd h (by simp [answer]),
    fun a' h => ?_, fun a' h => ?_⟩
  · rw [he] at he'
    obtain rfl := Option.some.inj he'
    exact hold
  · rw [hpc'.2]
    exact List.nil_subset _
  · rw [hpc'.1] at h
    exact absurd h (by simp)
  · rw [hpc] at h
    exact absurd h (by simp)

/-- **What a move does to the log.** -/
inductive TextStep (k : Kernel) (p : Nat) : Act → Proc → Proc → Kernel → Prop
  | quiet {act : Act} {proc proc' : Proc} {k' : Kernel} : k'.logText = k.logText →
      k'.renames = k.renames → Quiet k proc proc' → TextStep k p act proc proc' k'
  | rename {k' : Kernel} (n pid : Nat) (a : AppendArgs) (existing : Text) :
      k'.logText = some (withHeader existing ++ a.entry) →
      k'.renames = k.renames ++ [(p, a)] →
      TextStep k p (.go n) (.running pid (.append a (.written existing)))
        (.running pid (.append a .renamed)) k'
  | openLog (n pid : Nat) (c : MergeCall) (ls : List Text) (log : Text) :
      TextStep k p (.go n) (.running pid (.merge c (.loaded ls log)))
        (.running pid (.merge c (.appending k.openLog.2 (c.imports log ls) []
          (c.output (c.imports log ls))))) k.openLog.1
  | write (n pid : Nat) (c : MergeCall) (fd : Nat) (hashes : List Text)
      (written rest : Text) : rest ≠ [] →
      TextStep k p (.go n) (.running pid (.merge c (.appending fd hashes written rest)))
        (.running pid (.merge c (.appending fd hashes (written ++ rest.take (n + 1))
          (rest.drop (n + 1))))) (k.write fd (rest.take (n + 1)))

/-- A step of an append changes the log's text only by its rename. -/
theorem moveAppend_text {a : AppendArgs} {n : Nat} {pc : AppendPc} {proc : Proc}
    (hglob : Glob k) (hok : AppendOk k p pid a pc)
    (h : moveAppend k p pid a n pc = some (k', proc)) :
    TextStep k p (.go n) (.running pid (.append a pc)) proc k' := by
  cases pc with
  | started =>
    obtain ⟨k₁, hlock, heq⟩ := Option.map_eq_some_iff.mp h
    obtain ⟨rfl, rfl⟩ := Prod.mk.inj heq
    obtain ⟨-, rfl⟩ := lockEx_eq_some.mp hlock
    exact .quiet rfl rfl (quiet_of_none (by simp) rfl rfl rfl rfl (Or.inr rfl))
  | locked =>
    simp only [moveAppend] at h
    split at h
    · obtain ⟨rfl, rfl⟩ := Prod.mk.inj (Option.some.inj h)
      exact .quiet rfl rfl (quiet_of_none (by simp) rfl rfl rfl rfl (Or.inr rfl))
    · rename_i hlog
      obtain ⟨rfl, rfl⟩ := Prod.mk.inj (Option.some.inj h)
      exact .quiet rfl rfl (quiet_of_snapshot rfl rfl (Or.inr (liveText_of_none hlog).symm))
  | reading fd buf =>
    obtain ⟨-, hlog, hbuf⟩ := hok
    simp only [moveAppend] at h
    split at h
    · rename_i hend
      obtain ⟨rfl, rfl⟩ := Prod.mk.inj (Option.some.inj h)
      -- the read is at the end of the log that the path still names
      refine .quiet rfl rfl (quiet_of_snapshot rfl rfl (Or.inr ?_))
      rw [liveText_of_log hlog]
      exact eq_of_read_nil hbuf hend
    · obtain ⟨rfl, rfl⟩ := Prod.mk.inj (Option.some.inj h)
      exact .quiet rfl rfl (quiet_of_none (by simp) rfl rfl rfl rfl (Or.inr rfl))
  | loaded existing =>
    obtain ⟨rfl, rfl⟩ := Prod.mk.inj (Option.some.inj h)
    obtain ⟨-, -, -, hrenames⟩ := openTmp_frame k pid
    exact .quiet (logText_openTmp hglob) hrenames (quiet_of_snapshot rfl rfl (Or.inl rfl))
  | writing fd existing rest =>
    obtain ⟨-, htmp, -⟩ := hok
    simp only [moveAppend] at h
    split at h
    · obtain ⟨rfl, rfl⟩ := Prod.mk.inj (Option.some.inj h)
      exact .quiet rfl rfl (quiet_of_snapshot rfl rfl (Or.inl rfl))
    · obtain ⟨rfl, rfl⟩ := Prod.mk.inj (Option.some.inj h)
      refine .quiet ?_ rfl (quiet_of_snapshot rfl rfl (Or.inl rfl))
      exact logText_data (fun hlog => (hglob.log fd hlog).2 pid htmp) _
  | written existing =>
    obtain ⟨-, fd, htmp, hdata⟩ := hok
    obtain ⟨k₁, hrename, heq⟩ := Option.map_eq_some_iff.mp h
    obtain ⟨rfl, rfl⟩ := Prod.mk.inj heq
    obtain ⟨fd', htmp', rfl⟩ := rename_eq_some.mp hrename
    -- the file renamed is the one written
    rw [htmp] at htmp'
    obtain rfl := Option.some.inj htmp'
    refine .rename n pid a existing ?_ rfl
    show some (k.data fd) = _
    rw [hdata]
  | renamed =>
    obtain ⟨rfl, rfl⟩ := Prod.mk.inj (Option.some.inj h)
    refine .quiet rfl rfl ⟨by simp, fun e he => absurd he (by simp [snapshot]),
      List.Subset.refl _, fun _ _ h => absurd h (by simp [answer]), fun a' h => h,
      fun a' h => Or.inr h⟩

/-- A query leaves the log alone, and answers what the log reports when it answers. -/
theorem moveQuery_text {hash : UInt64} {n : Nat} {pc : QueryPc} {proc : Proc}
    (hok : QueryOk k p pc) (h : moveQuery k p pid hash n pc = some (k', proc)) :
    TextStep k p (.go n) (.running pid (.query hash pc)) proc k' := by
  have hanswered : ∀ found, found = isRecorded k.liveText hash →
      Quiet k (.running pid (.query hash pc)) (.running pid (.query hash (.answered found))) := by
    intro found hfound
    refine ⟨by simp, fun e he => absurd he (by simp [snapshot]), List.nil_subset _,
      fun hash' found' h => Or.inr ?_, fun a h => absurd h (by simp [renamed]),
      fun a h => absurd h (by simp [renamed])⟩
    obtain ⟨rfl, rfl⟩ := Prod.mk.inj (Option.some.inj h)
    exact ⟨⟨pid, pc, rfl⟩, hfound⟩
  cases pc with
  | started =>
    obtain ⟨k₁, hlock, heq⟩ := Option.map_eq_some_iff.mp h
    obtain ⟨rfl, rfl⟩ := Prod.mk.inj heq
    obtain ⟨-, rfl⟩ := lockSh_eq_some.mp hlock
    exact .quiet rfl rfl (quiet_of_none (by simp) rfl rfl rfl rfl (Or.inr rfl))
  | locked =>
    simp only [moveQuery] at h
    split at h
    · obtain ⟨rfl, rfl⟩ := Prod.mk.inj (Option.some.inj h)
      exact .quiet rfl rfl (quiet_of_none (by simp) rfl rfl rfl rfl (Or.inr rfl))
    · rename_i hlog
      obtain ⟨rfl, rfl⟩ := Prod.mk.inj (Option.some.inj h)
      -- without a log nothing is recorded
      refine .quiet rfl rfl (hanswered false ?_)
      rw [liveText_of_none hlog]
      rfl
  | reading fd buf =>
    obtain ⟨-, hlog, hbuf⟩ := hok
    simp only [moveQuery] at h
    split at h
    · rename_i hfound
      obtain ⟨rfl, rfl⟩ := Prod.mk.inj (Option.some.inj h)
      refine .quiet rfl rfl (hanswered true ?_)
      -- a hash in the lines read so far is one in the whole log
      obtain ⟨t, ht⟩ : closedPart buf <+: k.data fd := (List.take_prefix ..).trans hbuf
      rw [liveText_of_log hlog, eq_comm, isRecorded_iff, ← ht]
      exact hashFields_subset_append _ t (isRecorded_iff.mp hfound)
    · split at h
      · rename_i hend
        obtain ⟨rfl, rfl⟩ := Prod.mk.inj (Option.some.inj h)
        -- the loop has seen the whole log
        refine .quiet rfl rfl (hanswered _ ?_)
        rw [liveText_of_log hlog, ← eq_of_read_nil hbuf hend]
      · obtain ⟨rfl, rfl⟩ := Prod.mk.inj (Option.some.inj h)
        exact .quiet rfl rfl (quiet_of_none (by simp) rfl rfl rfl rfl (Or.inr rfl))
  | answered found =>
    obtain ⟨rfl, rfl⟩ := Prod.mk.inj (Option.some.inj h)
    exact .quiet rfl rfl ⟨by simp, fun e he => absurd he (by simp [snapshot]),
      List.nil_subset _, fun _ _ h => Or.inl h, fun a h => absurd h (by simp [renamed]),
      fun a h => absurd h (by simp [renamed])⟩

/-- And so for a merge. -/
theorem moveMerge_text {c : MergeCall} {n : Nat} {pc : MergePc} {proc : Proc}
    (hok : MergeOk k c pc) (h : moveMerge k p pid c n pc = some (k', proc)) :
    TextStep k p (.go n) (.running pid (.merge c pc)) proc k' := by
  cases pc with
  | started =>
    simp only [moveMerge] at h
    split at h
    · obtain ⟨rfl, rfl⟩ := Prod.mk.inj (Option.some.inj h)
      exact .quiet rfl rfl (quiet_of_none (by simp) rfl rfl rfl rfl (Or.inr rfl))
    · obtain ⟨rfl, rfl⟩ := Prod.mk.inj (Option.some.inj h)
      exact .quiet rfl rfl (quiet_of_none (by simp) rfl rfl rfl rfl (Or.inr rfl))
  | admitted ls =>
    simp only [moveMerge] at h
    split at h
    · obtain ⟨rfl, rfl⟩ := Prod.mk.inj (Option.some.inj h)
      exact .quiet rfl rfl (quiet_of_none (by simp) rfl rfl rfl rfl (Or.inr rfl))
    · obtain ⟨rfl, rfl⟩ := Prod.mk.inj (Option.some.inj h)
      exact .quiet rfl rfl (quiet_of_none (by simp) rfl rfl rfl rfl (Or.inr rfl))
  | reading ls fd buf =>
    simp only [moveMerge] at h
    split at h
    · obtain ⟨rfl, rfl⟩ := Prod.mk.inj (Option.some.inj h)
      exact .quiet rfl rfl (quiet_of_none (by simp) rfl rfl rfl rfl (Or.inr rfl))
    · obtain ⟨rfl, rfl⟩ := Prod.mk.inj (Option.some.inj h)
      exact .quiet rfl rfl (quiet_of_none (by simp) rfl rfl rfl rfl (Or.inr rfl))
  | loaded ls log =>
    obtain ⟨rfl, rfl⟩ := Prod.mk.inj (Option.some.inj h)
    exact .openLog n pid c ls log
  | appending fd hashes written rest =>
    obtain ⟨-, hout, hvalid⟩ := hok
    simp only [moveMerge] at h
    split at h
    · rename_i hrest
      obtain ⟨rfl, rfl⟩ := Prod.mk.inj (Option.some.inj h)
      rw [hrest, List.append_nil] at hout
      refine .quiet rfl rfl ⟨by simp, fun e he => absurd he (by simp [snapshot]), ?_,
        fun _ _ h => absurd h (by simp [answer]), fun a h => absurd h (by simp [renamed]),
        fun a h => absurd h (by simp [renamed])⟩
      -- everything is written, and every hash counted is in it
      show hashes ⊆ hashFields written
      rw [hout]
      exact subset_hashFields_output c hvalid
    · rename_i hrest
      obtain ⟨rfl, rfl⟩ := Prod.mk.inj (Option.some.inj h)
      exact .write n pid c fd hashes written rest hrest

/-- So for every move. -/
theorem move_text {proc proc' : Proc} {act : Act} (hglob : Glob k) (hok : Ok k p proc)
    (h : move k p proc act = some (k', proc')) : TextStep k p act proc proc' k' := by
  rcases move_cases h with ⟨pid, call, rfl, rfl, -, rfl, rfl⟩ |
    ⟨pid, task, n, rfl, rfl, hmove⟩ | ⟨pid, task, rfl, rfl, rfl, rfl⟩
  · refine .quiet rfl rfl ?_
    cases call with
    | append a => exact quiet_of_none (by simp) rfl rfl rfl rfl (Or.inr rfl)
    | query hash => exact quiet_of_none (by simp) rfl rfl rfl rfl (Or.inr rfl)
    | merge c => exact quiet_of_none (by simp) rfl rfl rfl rfl (Or.inr rfl)
  · obtain ⟨-, htask⟩ := hok
    cases task with
    | append a pc => exact moveAppend_text hglob htask hmove
    | query hash pc => exact moveQuery_text htask hmove
    | merge c pc => exact moveMerge_text htask hmove
  · -- a killed process has no snapshot left, and what it has renamed stays
    exact .quiet rfl rfl (quiet_of_none (by simp) rfl rfl rfl rfl (Or.inl rfl))

end LogText

/-! ## Snapshots -/

/-- Every snapshot is the text of the log. -/
def Fresh (s : Sys) : Prop :=
  ∀ p e, snapshot (s.proc p) = some e → e = s.shared.liveText

/-- No merge is about to write while an append has a snapshot. -/
def NoStaleSnapshot (s : Sys) (e : Event) : Prop :=
  ∀ n pid c fd hashes written rest, e.2 = .go n →
    s.proc e.1 = .running pid (.merge c (.appending fd hashes written rest)) → rest ≠ [] →
    ∀ q, snapshot (s.proc q) = none

/-- A process with a snapshot holds the exclusive lock. -/
theorem ex_of_snapshot {k : Kernel} {p : Nat} {proc : Proc} {e : Text} (hok : Ok k p proc)
    (h : snapshot proc = some e) : k.ex = some p := by
  cases proc with
  | idle => exact absurd h (by simp [snapshot])
  | ended o => exact absurd h (by simp [snapshot])
  | killed => exact absurd h (by simp [snapshot])
  | running pid task =>
    obtain ⟨-, htask⟩ := hok
    cases task with
    | append a pc =>
      cases pc with
      | loaded existing => exact htask
      | writing fd existing rest => exact htask.1
      | written existing => exact htask.1
      | started => exact absurd h (by simp [snapshot])
      | locked => exact absurd h (by simp [snapshot])
      | reading fd buf => exact absurd h (by simp [snapshot])
      | renamed => exact absurd h (by simp [snapshot])
    | query hash pc => exact absurd h (by simp [snapshot])
    | merge c pc => exact absurd h (by simp [snapshot])

/-- **A step keeps the snapshots fresh**, when no merge writes behind one. -/
theorem fresh_step {s s' : Sys} (e : Event) (hbase : Base s) (hfresh : Fresh s)
    (hok : NoStaleSnapshot s e) (h : step s e = some s') : Fresh s' := by
  obtain ⟨p, act⟩ := e
  obtain ⟨k', proc', hmove, rfl⟩ := step_eq_some.mp h
  have htext := move_text hbase.1 (hbase.2 p) hmove
  have hothers : (∀ q e, q ≠ p → snapshot (s.proc q) = some e → e = k'.liveText) ∧
      ∀ e, snapshot proc' = some e → e = k'.liveText := by
    generalize hproc : s.proc p = proc at hmove htext
    cases htext with
    | quiet hlog _ hquiet =>
      have hlive : k'.liveText = s.shared.liveText := by
        rw [Kernel.liveText, hlog]
        rfl
      refine ⟨fun q e _ he => ?_, fun e he => ?_⟩
      · -- the log is the same, and so is what the others have read
        rw [hlive]
        exact hfresh q e he
      · rw [hlive]
        rcases hquiet.snapshot e he with he | he
        · rw [← hproc] at he
          exact hfresh p e he
        · exact he
    | rename n pid a existing _ _ =>
      -- the append that renames is the only one with a snapshot, and has none after
      refine ⟨fun q e hne he => ?_, fun e he => absurd he (by simp [snapshot])⟩
      have hq := ex_of_snapshot (hbase.2 q) he
      have hp : s.shared.ex = some p :=
        ex_of_snapshot (hbase.2 p) (e := existing) (by rw [hproc]; rfl)
      exact absurd (Option.some.inj (hq.symm.trans hp)) hne
    | openLog n pid c ls log =>
      refine ⟨fun q e _ he => ?_, fun e he => absurd he (by simp [snapshot])⟩
      rw [liveText_openLog]
      exact hfresh q e he
    | write n pid c fd hashes written rest hrest =>
      refine ⟨fun q e _ he => ?_, fun e he => absurd he (by simp [snapshot])⟩
      have hnone := hok n pid c fd hashes written rest rfl hproc hrest q
      rw [hnone] at he
      exact absurd he (by simp)
  intro q e
  refine forall_update (P := fun _ proc => snapshot proc = some e → e = k'.liveText)
    (hothers.2 e) (fun q hne he => hothers.1 q e hne he) q

end Swayam.LogSystem
