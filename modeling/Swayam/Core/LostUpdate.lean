import Swayam.Core.LogText

/-!
# SWAYAM — appends and merges on one log

An append replaces the log by a copy it took under its lock; a merge writes to
the inode it opened, without the lock. A merge's write is lost when an append
has taken its copy already, or has replaced the log since the merge opened it;
and two writers that meet inside a line spoil each other's records. The system is
that of `Core/LogSystem.lean`, in which the calls move their bytes in any portions.

* `recorded_step` — a step that meets `NoLostUpdate` keeps every record that a
  process has made;
* `allRecorded_of_noLostUpdate` — so in a run of such steps the log holds the
  hash of every finished append and every hash that a finished merge counted.
-/

namespace Swayam.LogSystem

open Interleaving Machine Delimited

/-- Every finished call has its records in the log: an append its hash, a merge the
hashes counted in its return value. -/
def AllRecorded (s : Sys) : Prop :=
  ∀ p, (∀ a, s.proc p = .ended (.appended a) →
      hashText a.hash ∈ hashFields s.shared.liveText) ∧
    ∀ c hashes, s.proc p = .ended (.merged c hashes) →
      hashes ⊆ hashFields s.shared.liveText

/-- The condition on a step. A merge that is about to write has the log open that the
path names, no append has read that log and not yet replaced it, and the log ends in
the unterminated line that this merge has written so far, if in any; an append that is
about to rename replaces a log whose last line is complete. -/
structure NoLostUpdate (s : Sys) (e : Event) : Prop where
  write  : ∀ n pid c fd hashes written rest, e.2 = .go n →
    s.proc e.1 = .running pid (.merge c (.appending fd hashes written rest)) → rest ≠ [] →
    s.shared.log = some fd ∧ (∀ q, snapshot (s.proc q) = none) ∧
      lastLine newline s.shared.liveText = lastLine newline written
  rename : ∀ n pid a existing, e.2 = .go n →
    s.proc e.1 = .running pid (.append a (.written existing)) →
    lastLine newline s.shared.liveText = []

/-- What every process has recorded is in the log. -/
def RecordsKept (s : Sys) : Prop :=
  ∀ p, recorded (s.proc p) ⊆ hashFields s.shared.liveText

/-! ## One step -/

/-- A merge's write to the log extends it. -/
theorem liveText_write {k : Kernel} {fd : Nat} (h : k.log = some fd) (bytes : Text) :
    (k.write fd bytes).liveText = k.liveText ++ bytes := by
  rw [liveText_of_log h, liveText_of_log (k := k.write fd bytes) h]
  exact Function.update_self ..

/-- **Step lemma.** A step that meets the condition keeps every record. -/
theorem recorded_step {s s' : Sys} (e : Event) (hbase : Base s) (hfresh : Fresh s)
    (hkept : RecordsKept s) (hok : NoLostUpdate s e) (h : step s e = some s') :
    RecordsKept s' := by
  obtain ⟨p, act⟩ := e
  obtain ⟨k', proc', hmove, rfl⟩ := step_eq_some.mp h
  have htext := move_text hbase.1 (hbase.2 p) hmove
  have hmoved : hashFields s.shared.liveText ⊆ hashFields k'.liveText ∧
      recorded proc' ⊆ hashFields k'.liveText := by
    have hown := hkept p
    generalize hproc : s.proc p = proc at hmove htext hown
    cases htext with
    | quiet hlog _ hquiet =>
      have hlive : k'.liveText = s.shared.liveText := by
        rw [Kernel.liveText, hlog]
        rfl
      rw [hlive]
      exact ⟨List.Subset.refl _, List.Subset.trans hquiet.recorded hown⟩
    | rename n pid a existing hlog _ =>
      have hclosed : lastLine newline s.shared.liveText = [] :=
        hok.rename n pid a existing rfl hproc
      -- the copy that replaces the log is the log itself
      have hcopy : existing = s.shared.liveText := by
        refine hfresh p existing ?_
        rw [hproc]
        rfl
      have hlive : k'.liveText = withHeader s.shared.liveText ++ a.entry := by
        rw [Kernel.liveText, hlog, ← hcopy]
        rfl
      rw [hlive]
      constructor
      · intro f hf
        rw [← hashFields_withHeader] at hf
        exact hashFields_subset_append _ _ hf
      · intro f hf
        rw [show f = hashText a.hash from List.mem_singleton.mp hf]
        refine mem_hashFields_quarantineEntry ?_ _ _ _ _
        rw [lastLine_withHeader, hclosed]
    | openLog n pid c ls log =>
      rw [liveText_openLog]
      exact ⟨List.Subset.refl _, List.nil_subset _⟩
    | write n pid c fd hashes written rest hrest =>
      obtain ⟨hlog, -, hline⟩ := hok.write n pid c fd hashes written rest rfl hproc hrest
      rw [liveText_write hlog]
      have hgrow := hashFields_subset_append s.shared.liveText (rest.take (n + 1))
      refine ⟨hgrow, fun f hf => ?_⟩
      -- the piece goes on in the line that the merge's last piece left open
      rcases keys_append_subset_of_lastLine_eq hline _ hf with hold | hnew
      · exact hgrow (hown hold)
      · exact hnew
  intro q
  exact forall_update (P := fun _ proc => recorded proc ⊆ hashFields k'.liveText)
    hmoved.2 (fun q _ => List.Subset.trans (hkept q) hmoved.1) q

/-! ## Runs -/

/-- No lost update, no stale snapshot. -/
theorem noStaleSnapshot_of_noLostUpdate {s : Sys} {e : Event} (h : NoLostUpdate s e) :
    NoStaleSnapshot s e := by
  intro n pid c fd hashes written rest hgo hproc hrest
  exact (h.write n pid c fd hashes written rest hgo hproc hrest).2.1

/-- **No record is lost** in a run whose steps all meet the condition, whatever the log
held at its start: the hash of every finished append, and every hash counted by a
finished merge, is in the log that the path names. -/
theorem allRecorded_of_noLostUpdate (log : Option Text) (es : List Event) (s : Sys)
    (hmeet : StepsMeet step NoLostUpdate (init log) es)
    (hrun : exec step (init log) es = some s) : AllRecorded s := by
  have hinv : Base s ∧ Fresh s ∧ RecordsKept s := by
    refine exec_invariant_of_meets (I := fun s => Base s ∧ Fresh s ∧ RecordsKept s) ?_ ?_
      hmeet hrun
    · rintro s e s' ⟨hbase, hfresh, hkept⟩ hok hs
      exact ⟨base_step e hbase hs,
        fresh_step e hbase hfresh (noStaleSnapshot_of_noLostUpdate hok) hs,
        recorded_step e hbase hfresh hkept hok hs⟩
    · refine ⟨base_init log, fun p e he => absurd he (by simp [init, snapshot]), fun p => ?_⟩
      exact List.nil_subset _
  intro p
  have hkept := hinv.2.2 p
  refine ⟨fun a ha => ?_, fun c hashes hc => ?_⟩
  · rw [ha] at hkept
    exact hkept (List.mem_singleton_self _)
  · rw [hc] at hkept
    exact hkept

/-! ### One append and one merge -/

/-- The append of a crash. -/
def crash : AppendArgs := ⟨structuralHash (ascii "bad"), 11, ascii "m.cpp", 1700000000⟩

/-- The import of a peer file with one hash. -/
def peerImport : MergeCall where
  peerCsvPath := ascii "/tmp/peer_a.csv"
  peerFile := some (ascii "7,0,1,x\n")
  sessionImported := 0
  now := 1700000060

/-- Process 0 appends to a log that is there: it takes the lock and loads the log. -/
def appendLoads : List Event :=
  [(0, .start 40 (.append crash)), (0, .go 0), (0, .go 0), (0, .go 999), (0, .go 0)]

/-- It writes its temp file, renames it and ends. -/
def appendRenames : List Event :=
  [(0, .go 0), (0, .go 999), (0, .go 0), (0, .go 0), (0, .go 0)]

/-- Process 1 merges. -/
def mergeRuns : List Event :=
  [(1, .start 41 (.merge peerImport)), (1, .go 0), (1, .go 0), (1, .go 999), (1, .go 0),
   (1, .go 0), (1, .go 999), (1, .go 0)]

/-- A process that is not scheduled stays idle. -/
theorem idle_of_notMem {log : Option Text} {p : Nat} (es : List Event) (s : Sys)
    (h : exec step (init log) es = some s) : p ∉ es.map Prod.fst → s.proc p = .idle := by
  refine exec_induction (P := fun es s => p ∉ es.map Prod.fst → s.proc p = .idle)
    (fun _ => rfl) ?_ es s h
  rintro es s ⟨q, act⟩ s' - ih hs hnot
  obtain ⟨k', proc', -, rfl⟩ := step_eq_some.mp hs
  rw [List.map_append, List.mem_append, not_or] at hnot
  have hne : p ≠ q := fun heq => hnot.2 (by simp [heq])
  show Function.update s.proc q proc' p = .idle
  rw [Function.update_of_ne hne]
  exact ih hnot.1

/-- The condition, computed for a system in which only the processes `ps` have started. -/
def noLostUpdate (ps : List Nat) (s : Sys) (e : Event) : Bool :=
  match e.2, s.proc e.1 with
  | .go _, .running _ (.merge _ (.appending fd _ written rest)) =>
    rest = [] || (s.shared.log = some fd && ps.all (fun q => snapshot (s.proc q) = none) &&
      lastLine newline s.shared.liveText = lastLine newline written)
  | .go _, .running _ (.append _ (.written _)) => lastLine newline s.shared.liveText = []
  | _, _ => true

/-- The check over the processes that run speaks for all. -/
theorem noLostUpdate_sound {ps : List Nat} {s : Sys} {e : Event}
    (hidle : ∀ q, q ∉ ps → s.proc q = .idle) (h : noLostUpdate ps s e = true) :
    NoLostUpdate s e := by
  constructor
  · intro n pid c fd hashes written rest hgo hproc hrest
    simp only [noLostUpdate, hgo, hproc, hrest, decide_false, Bool.false_or, Bool.and_eq_true,
      decide_eq_true_eq, List.all_eq_true] at h
    refine ⟨h.1.1, fun q => ?_, h.2⟩
    by_cases hq : q ∈ ps
    · exact h.1.2 q hq
    · rw [hidle q hq]
      rfl
  · intro n pid a existing hgo hproc
    simpa [noLostUpdate, hgo, hproc] using h

/-- The append, and then the merge. -/
def inTurn : List Event := appendLoads ++ appendRenames ++ mergeRuns

/-- One after the other, both calls meet the condition at every step. -/
theorem stepsMeet_inTurn : StepsMeet step NoLostUpdate (init (some headerLine)) inTurn := by
  have hcheck : ∀ i < inTurn.length, (exec step (init (some headerLine)) (inTurn.take i)).all
      (fun s => (inTurn[i]?).all fun e => noLostUpdate [0, 1] s e) = true := by decide
  intro pre e post s hsplit hpre
  have hlen : pre.length < inTurn.length := by
    rw [hsplit, List.length_append, List.length_cons]
    omega
  have hi := hcheck pre.length hlen
  have htake : inTurn.take pre.length = pre := by rw [hsplit, List.take_left]
  have hget : inTurn[pre.length]? = some e := by
    rw [hsplit, List.getElem?_append_right (le_refl _), Nat.sub_self]
    rfl
  rw [htake, hpre, hget] at hi
  refine noLostUpdate_sound (fun q hq => ?_) hi
  refine idle_of_notMem pre s hpre ?_
  intro hmem
  have hall : ∀ x ∈ inTurn.map Prod.fst, x ∈ [0, 1] := by decide
  refine hq (hall q ?_)
  rw [hsplit, List.map_append, List.mem_append]
  exact Or.inl hmem

/-- A run in which the appends take turns. -/
theorem allRecorded_inTurn :
    ∃ s, exec step (init (some headerLine)) inTurn = some s ∧ AllRecorded s := by
  cases hrun : exec step (init (some headerLine)) inTurn with
  | none => exact absurd hrun (by decide)
  | some s =>
    exact ⟨s, rfl, allRecorded_of_noLostUpdate (some headerLine) inTurn s stepsMeet_inTurn hrun⟩

/-- **A merge is lost behind an append's copy**: the append has loaded the log when the
merge writes to it, and renames its copy over it. Both calls have ended. -/
theorem allRecorded_fails_behind_copy :
    ¬ ∀ (log : Option Text) (es : List Event) (s : Sys),
        exec step (init log) es = some s →
        (∀ p, s.proc p = .idle ∨ ∃ o, s.proc p = .ended o) → AllRecorded s := by
  intro h
  have hview : (exec step (init (some headerLine)) (appendLoads ++ mergeRuns ++ appendRenames)).map
      (fun s => (s.proc 0, s.proc 1, hashFields s.shared.liveText)) =
        some (.ended (.appended crash), .ended (.merged peerImport [ascii "7"]),
          [hashText crash.hash]) := by decide
  obtain ⟨s, hrun, hs⟩ := Option.map_eq_some_iff.mp hview
  simp only [Prod.mk.injEq] at hs
  obtain ⟨hzero, hone, hlog⟩ := hs
  have hended : ∀ p, s.proc p = .idle ∨ ∃ o, s.proc p = .ended o := by
    intro p
    rcases eq_or_ne p 0 with rfl | h0
    · exact Or.inr ⟨_, hzero⟩
    · rcases eq_or_ne p 1 with rfl | h1
      · exact Or.inr ⟨_, hone⟩
      · left
        refine idle_of_notMem _ s hrun ?_
        simp [appendLoads, mergeRuns, appendRenames, h0, h1]
  have hkept := (h _ _ s hrun hended 1).2 _ _ hone (List.mem_singleton_self _)
  rw [hlog] at hkept
  exact absurd hkept (by decide)

end Swayam.LogSystem
