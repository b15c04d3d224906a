import Mathlib.Data.List.Induction
import Swayam.Core.Append

/-!
# SWAYAM — sequential histories of the quarantine log

Four operations write one log path: `quarantine`, `quarantine_by_content`,
`merge_peer_signatures_guarded` and `migrate_quarantine_if_needed`. Appends
and merges only ever add records (`apply_keeps`); a migration drops every
record of a log whose first line is not the version header, and a merge
creates a log without one.

* `quarantineMonotone_iff` — a history keeps every hash it ever reports exactly when
  each migration in it finds no log, a log with the header, or a log that
  reports nothing (`MigrationsSafe`).
-/

namespace Swayam

open Delimited

/-- An operation on the log, without I/O failures. -/
inductive StoreOp
  | quarantine (mutationSourcePath content : Text) (signalNum now : Int)
  | quarantineByContent (content sourceLabel : Text) (signalNum now : Int)
  | merge (call : MergeCall)
  | migrate
  deriving DecidableEq, Repr

def StoreOp.apply (op : StoreOp) (fs : LogFiles) : LogFiles :=
  match op with
  | .quarantine path content signalNum now => Swayam.quarantine .clean path content signalNum now fs
  | .quarantineByContent content label signalNum now =>
    Swayam.quarantineByContent .clean content label signalNum now fs
  | .merge call => (mergePeerSignaturesGuarded call fs).2
  | .migrate => migrateQuarantineIfNeeded .clean fs

/-- The files after a sequence of operations. -/
def runOps (fs : LogFiles) (ops : List StoreOp) : LogFiles :=
  ops.foldl (fun fs op => op.apply fs) fs

/-- No log file, and no backup. -/
def noLog : LogFiles := ⟨none, none, none⟩

/-- What `is_quarantined` reports at some point of the run it reports at every later
point. -/
def QuarantineMonotone (ops : List StoreOp) : Prop :=
  ∀ a b c, ops = a ++ b ++ c → ∀ content,
    isQuarantined content (runOps noLog a).log = true →
    isQuarantined content (runOps noLog (a ++ b)).log = true

/-- A log that a migration may run on: it is absent, begins with the header line, or
reports no content. -/
def MigrationSafe (log : Option Text) : Prop :=
  ∀ c, log = some c → firstLine c = quarantineVersionHeader ∨
    ∀ content, isQuarantined content log = false

/-- Every migration of the sequence finds such a log. -/
def MigrationsSafe (ops : List StoreOp) : Prop :=
  ∀ a c, ops = a ++ .migrate :: c → MigrationSafe (runOps noLog a).log

/-! ## One operation -/

/-- An append keeps every record. -/
theorem hashFields_subset_appendedLog (log : Option Text) (entry : Text) :
    hashFields (log.getD []) ⊆ hashFields (appendedLog log entry) := by
  intro f hf
  rw [← hashFields_withHeader] at hf
  exact hashFields_subset_append _ entry hf

/-- A merge keeps every record. -/
theorem hashFields_subset_merge (call : MergeCall) (fs : LogFiles) :
    hashFields (fs.log.getD []) ⊆
      hashFields ((mergePeerSignaturesGuarded call fs).2.log.getD []) := by
  unfold mergePeerSignaturesGuarded
  split
  · exact fun _ h => h
  · dsimp only
    split
    · exact fun _ h => h
    · exact hashFields_subset_append _ _

/-- **Step lemma.** An operation keeps what the log reports, a migration on the
condition that the log is safe to migrate. -/
theorem apply_keeps {op : StoreOp} {fs : LogFiles} {content : Text}
    (hsafe : op = .migrate → MigrationSafe fs.log)
    (h : isQuarantined content fs.log = true) :
    isQuarantined content (op.apply fs).log = true := by
  cases op with
  | quarantine path source signalNum now =>
    rw [StoreOp.apply, Swayam.quarantine, atomicQuarantineAppend_clean, isQuarantined_iff]
    exact hashFields_subset_appendedLog _ _ (isQuarantined_iff.mp h)
  | quarantineByContent source label signalNum now =>
    rw [StoreOp.apply, Swayam.quarantineByContent, atomicQuarantineAppend_clean,
      isQuarantined_iff]
    exact hashFields_subset_appendedLog _ _ (isQuarantined_iff.mp h)
  | merge call =>
    rw [StoreOp.apply, isQuarantined_iff]
    exact hashFields_subset_merge call fs (isQuarantined_iff.mp h)
  | migrate =>
    rw [StoreOp.apply, migrateQuarantineIfNeeded, MigrateIO.clean]
    cases hlog : fs.log with
    | none =>
      -- an absent log reports nothing
      rw [hlog, isQuarantined_iff] at h
      simp [hashFields, keys] at h
    | some c =>
      rcases hsafe rfl c hlog with hfirst | hnone
      · simp only [hfirst, if_true]
        exact h
      · rw [hnone content] at h
        exact absurd h Bool.false_ne_true

/-- A migration of a log without the header loses everything it reports. -/
theorem migrate_drops {fs : LogFiles} {c content : Text} (hlog : fs.log = some c)
    (hfirst : firstLine c ≠ quarantineVersionHeader) :
    isQuarantined content ((StoreOp.migrate.apply fs).log) = false := by
  have hfresh : (StoreOp.migrate.apply fs).log = some headerLine := by
    simp [StoreOp.apply, migrateQuarantineIfNeeded, MigrateIO.clean, hlog, hfirst, freshLog]
  have hheader : hashFields headerLine = [] := by
    have := hashFields_headerLine_append []
    rwa [List.append_nil] at this
  rw [hfresh, ← Bool.not_eq_true, isQuarantined_iff, Option.getD_some, hheader]
  exact List.not_mem_nil

/-! ## Whole runs -/

theorem runOps_append (fs : LogFiles) (a b : List StoreOp) :
    runOps fs (a ++ b) = runOps (runOps fs a) b := by
  rw [runOps, runOps, runOps, List.foldl_append]

/-- **Quarantine is monotone, exactly.** A run from no log file keeps every reported
content reported if and only if each of its migrations is safe. -/
theorem quarantineMonotone_iff (ops : List StoreOp) :
    QuarantineMonotone ops ↔ MigrationsSafe ops := by
  constructor
  · -- a migration of a log without the header, which reports something, is not monotone
    intro hmono a c hsplit old hold
    by_cases hfirst : firstLine old = quarantineVersionHeader
    · exact Or.inl hfirst
    · right
      intro content
      by_contra hreported
      rw [Bool.not_eq_false] at hreported
      -- the run up to this migration reports the content, the migration drops it
      have hlater := hmono a [.migrate] c (by simp [hsplit]) content hreported
      rw [runOps_append] at hlater
      have hdrop : isQuarantined content (runOps (runOps noLog a) [.migrate]).log = false :=
        migrate_drops hold hfirst
      rw [hdrop] at hlater
      exact absurd hlater Bool.false_ne_true
  · intro hsafe a b
    -- induction on the operations in between, from the right
    induction b using List.reverseRecOn with
    | nil =>
      intro c _ content h
      rwa [List.append_nil]
    | append_singleton b op ih =>
      intro c hsplit content h
      have hprev := ih (op :: c) (by simp [hsplit]) content h
      rw [← List.append_assoc, runOps_append]
      refine apply_keeps ?_ hprev
      intro hop
      subst hop
      exact hsafe (a ++ b) c (by simp [hsplit])

/-- **A migration forgets what a merge imported.** From no log file, one import and one
migration: the imported hash is reported after the first and not after the second. -/
theorem quarantineMonotone_fails_after_import :
    ¬ QuarantineMonotone
      [.merge { peerCsvPath := ascii "/tmp/peer_a.csv",
                peerFile := some (hashText (structuralHash (ascii "bad")) ++ ascii ",11,0,m\n"),
                sessionImported := 0, now := 1700000000 },
       .migrate] := by
  intro h
  have hlater := h [_] [.migrate] [] rfl (ascii "bad") (by decide)
  exact absurd hlater (by decide)

end Swayam
