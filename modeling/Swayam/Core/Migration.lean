import Swayam.Core.Log

/-!
# SWAYAM — what a migration leaves of the records

`migrate_quarantine_if_needed` moves a log without the version header to the
backup name and starts a new one. The move replaces a backup that is already
there; and when it fails, or when the log cannot be read, the truncating stream
still starts the new log in the old one's place. The header that it writes is taken to
reach the file, once the stream has opened it.

* `migrate_cases` — the files behind a migration, in the three cases;
* `conserved_migrate_iff` — exactly when every record line is still there.
-/

namespace Swayam

open Delimited

/-- The lines of a log that hold a record. -/
def recordLines (file : Option Text) : List Text :=
  (lines newline (file.getD [])).filter fun line => (hashField line).isSome

/-- Every record line of the log and of its backup is still in one of them. -/
def Conserved (fs fs' : LogFiles) : Prop :=
  ∀ line, line ∈ recordLines fs.log ∨ line ∈ recordLines fs.backup →
    line ∈ recordLines fs'.log ∨ line ∈ recordLines fs'.backup

/-- The log is moved to the backup name. -/
def Moves (io : MigrateIO) (c : Text) : Prop :=
  io.read = true ∧ firstLine c ≠ quarantineVersionHeader ∧ io.rename = true

/-- The log is truncated where it stands. -/
def Truncates (io : MigrateIO) (c : Text) : Prop :=
  io.fresh = true ∧
    (io.read = false ∨ firstLine c ≠ quarantineVersionHeader ∧ io.rename = false)

@[simp] theorem recordLines_none : recordLines none = [] := rfl

/-- The new log has no record. -/
@[simp] theorem recordLines_headerLine : recordLines (some headerLine) = [] := by decide

/-- A log made afresh has none either. -/
theorem recordLines_freshLog (opens : Bool) {fs : LogFiles} (h : recordLines fs.log = []) :
    recordLines (freshLog opens fs).log = [] := by
  cases opens with
  | false => exact h
  | true => exact recordLines_headerLine

/-- And leaves the backup alone. -/
theorem freshLog_backup (opens : Bool) (fs : LogFiles) :
    (freshLog opens fs).backup = fs.backup := by
  cases opens with
  | false => rfl
  | true => rfl

/-- **The files behind a migration** of an existing log: moved, truncated, or as they were. -/
theorem migrate_cases (io : MigrateIO) (c : Text) (tmp backup : Option Text) :
    (Moves io c ∧ recordLines (migrateQuarantineIfNeeded io ⟨some c, tmp, backup⟩).log = [] ∧
      (migrateQuarantineIfNeeded io ⟨some c, tmp, backup⟩).backup = some c) ∨
    (Truncates io c ∧ migrateQuarantineIfNeeded io ⟨some c, tmp, backup⟩ =
      ⟨some headerLine, tmp, backup⟩) ∨
    (¬ Moves io c ∧ ¬ Truncates io c ∧
      migrateQuarantineIfNeeded io ⟨some c, tmp, backup⟩ = ⟨some c, tmp, backup⟩) := by
  unfold migrateQuarantineIfNeeded
  cases hread : io.read with
  | false =>
    -- a log that does not open for reading is taken for an absent one
    have hmoves : ¬ Moves io c := fun h => absurd (h.1.symm.trans hread) (by simp)
    cases hfresh : io.fresh with
    | true => exact Or.inr (Or.inl ⟨⟨hfresh, Or.inl hread⟩, rfl⟩)
    | false =>
      exact Or.inr (Or.inr ⟨hmoves, fun h => absurd (h.1.symm.trans hfresh) (by simp), rfl⟩)
  | true =>
    dsimp only
    split
    · rename_i hheader
      refine Or.inr (Or.inr ⟨fun h => h.2.1 hheader, fun h => ?_, rfl⟩)
      rcases h.2 with hno | ⟨hne, -⟩
      · exact absurd (hread.symm.trans hno) (by simp)
      · exact hne hheader
    · rename_i hheader
      cases hrename : io.rename with
      | true =>
        refine Or.inl ⟨⟨hread, hheader, hrename⟩, recordLines_freshLog _ rfl, ?_⟩
        rw [freshLog_backup]
        rfl
      | false =>
        have hmoves : ¬ Moves io c := fun h => absurd (h.2.2.symm.trans hrename) (by simp)
        cases hfresh : io.fresh with
        | true => exact Or.inr (Or.inl ⟨⟨hfresh, Or.inr ⟨hheader, hrename⟩⟩, rfl⟩)
        | false =>
          exact Or.inr (Or.inr ⟨hmoves, fun h => absurd (h.1.symm.trans hfresh) (by simp), rfl⟩)

/-- A log is not moved and truncated in one. -/
theorem not_truncates_of_moves {io : MigrateIO} {c : Text} (h : Moves io c) :
    ¬ Truncates io c := by
  rintro ⟨-, hread | ⟨-, hrename⟩⟩
  · exact absurd (h.1.symm.trans hread) (by simp)
  · exact absurd (h.2.2.symm.trans hrename) (by simp)

/-- **A migration conserves the records, when it does.** For every content of the log and of its
backup and all results of the rename and the opens: every record line is still in one of the two
files if and only if a log that is moved has every record line of the backup it replaces, and a
log that is truncated has all of its own in the backup. -/
theorem conserved_migrate_iff (io : MigrateIO) (fs : LogFiles) :
    Conserved fs (migrateQuarantineIfNeeded io fs) ↔
      ∀ c, fs.log = some c →
        (Moves io c → ∀ line ∈ recordLines fs.backup, line ∈ recordLines (some c)) ∧
        (Truncates io c → ∀ line ∈ recordLines (some c), line ∈ recordLines fs.backup) := by
  obtain ⟨log, tmp, backup⟩ := fs
  cases log with
  | none =>
    -- without a log there is nothing to lose
    refine ⟨fun _ c h => absurd h (by simp), fun _ line hline => Or.inr ?_⟩
    rw [migrateQuarantineIfNeeded, freshLog_backup]
    simpa using hline
  | some c =>
    constructor
    · rintro hkept c' hc'
      obtain rfl := Option.some.inj hc'
      refine ⟨fun hmoves line hline => ?_, fun htruncates line hline => ?_⟩
      · have hthere := hkept line (Or.inr hline)
        rcases migrate_cases io c tmp backup with ⟨-, hlog, hbackup⟩ | ⟨htr, -⟩ | ⟨hnot, -⟩
        · -- the new log has no record, so the line of the old backup is in the moved log
          rw [hlog, hbackup] at hthere
          exact hthere.resolve_left List.not_mem_nil
        · exact absurd htr (not_truncates_of_moves hmoves)
        · exact absurd hmoves hnot
      · have hthere := hkept line (Or.inl hline)
        rcases migrate_cases io c tmp backup with ⟨hmoves, -⟩ | ⟨-, hfiles⟩ | ⟨-, hnot, -⟩
        · exact absurd htruncates (not_truncates_of_moves hmoves)
        · rw [hfiles, recordLines_headerLine] at hthere
          exact hthere.resolve_left List.not_mem_nil
        · exact absurd htruncates hnot
    · intro h line hline
      obtain ⟨hmove, htruncate⟩ := h c rfl
      rcases migrate_cases io c tmp backup with ⟨hmoves, -, hbackup⟩ | ⟨htr, hfiles⟩ | ⟨-, -, hfiles⟩
      · -- the log is the backup now
        rw [hbackup]
        rcases hline with hlog | hold
        · exact Or.inr hlog
        · exact Or.inr (hmove hmoves line hold)
      · -- the backup is what it was, and the log is gone
        rw [hfiles]
        rcases hline with hlog | hold
        · exact Or.inr (htruncate htr line hlog)
        · exact Or.inr hold
      · rw [hfiles]
        exact hline

/-- **Two migrations that destroy a record**: one that replaces an earlier backup, and one whose
rename fails. -/
theorem conserved_migrate_fails :
    ¬ Conserved ⟨some (ascii "5,11,0,n.cpp\n"), none, some (ascii "9,11,0,m.cpp\n")⟩
        (migrateQuarantineIfNeeded .clean
          ⟨some (ascii "5,11,0,n.cpp\n"), none, some (ascii "9,11,0,m.cpp\n")⟩) ∧
    ¬ Conserved ⟨some (ascii "5,11,0,n.cpp\n"), none, none⟩
        (migrateQuarantineIfNeeded ⟨true, false, true⟩
          ⟨some (ascii "5,11,0,n.cpp\n"), none, none⟩) := by
  constructor
  · intro h
    have hthere := h (ascii "9,11,0,m.cpp") (Or.inr (by decide))
    exact absurd hthere (by decide)
  · intro h
    have hthere := h (ascii "5,11,0,n.cpp") (Or.inl (by decide))
    exact absurd hthere (by decide)

end Swayam
