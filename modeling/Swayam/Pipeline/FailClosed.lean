import Swayam.Pipeline.Runner

/-!
# SWAYAM — the ban check under failures

The ledger holds an entry for the source, and the system calls of the check may
fail. A lock that cannot be had counts as a ban. An `open` that fails does not,
and a `read` that fails ends the reading as the end of the file does.

* `readLedger_until` — the check searches what stands in front of the failing read;
* `failsClosed_iff` — so it reports the ban exactly when the ledger opens, and no read
  fails in front of the hash unless the lock did;
* `compiler_of_open_failure` — and where it does not, the runner compiles the source.
-/

namespace Swayam

open Delimited

/-! ## Reads that may fail -/

/-- The read calls on a file, in chunks of 1 to 4096 bytes: up to its end (`none`), or until
one fails behind these bytes. -/
inductive ReadsUntil : Text → List (Option Text) → Option Text → Prop
  | eof (rest : List (Option Text)) : ReadsUntil [] (some [] :: rest) none
  | fails (content : Text) (rest : List (Option Text)) :
      ReadsUntil content (none :: rest) (some [])
  | chunk (c content : Text) (rest : List (Option Text)) (failed : Option Text) :
      c ≠ [] → c.length ≤ 4096 → ReadsUntil content rest failed →
      ReadsUntil (c ++ content) (some c :: rest) (failed.map (c ++ ·))

/-- A complete entry for the hash, on a line of its own. -/
def HasEntry (hash : UInt64) (content : Text) : Prop :=
  ∃ before exitCode behind, content = before ++ (banEntry hash exitCode ++ behind) ∧
    lastLine newline before = []

/-- **What is searched**: the whole file, or what was read before a read failed. -/
theorem readLedger_until {content : Text} {reads : List (Option Text)} {failed : Option Text}
    (h : ReadsUntil content reads failed) : readLedger reads = failed.getD content := by
  induction h with
  | eof rest => rfl
  | fails content rest => rfl
  | chunk c content rest failed hne _ _ ih =>
    obtain ⟨b, bs, rfl⟩ := List.exists_cons_of_ne_nil hne
    rw [readLedger, ih]
    cases failed with
    | none => rfl
    | some read => rfl

theorem searchTarget_infix_of_hasEntry {hash : UInt64} {content : Text}
    (h : HasEntry hash content) : searchTarget hash <:+: content := by
  obtain ⟨before, exitCode, behind, rfl, -⟩ := h
  have hmid : ascii " | EXIT_CODE: " = ascii " |" ++ ascii " EXIT_CODE: " := rfl
  refine ⟨before, ascii " EXIT_CODE: " ++ decimalInt exitCode ++ newline :: behind, ?_⟩
  simp [banEntry, searchTarget, hmid]

/-! ## When the check fails closed -/

/-- The check looks at the ledger, and no read fails in front of the hash, unless the lock
did. -/
def LedgerReached (hash : UInt64) (io : LedgerIO) (failed : Option Text) : Prop :=
  io.opens = true ∧
    (io.flock = false ∨ ∀ read, failed = some read → searchTarget hash <:+: read)

/-- **The check fails closed, when it does.** For every ledger with a complete entry for the
source's hash, every split of it into chunks and every failure of `open`, `flock` or a `read`:
the check reports the source if and only if `open` succeeds and either `flock` fails, or every
read succeeds, or the failing one comes behind the hash and its ` |`. -/
theorem failsClosed_iff (stdHash : StdHash) (sourceCode content : Text) (io : LedgerIO)
    (failed : Option Text) (hentry : HasEntry (stdHash sourceCode) content)
    (hreads : ReadsUntil content io.reads failed) :
    isBanned stdHash io sourceCode = true ↔ LedgerReached (stdHash sourceCode) io failed := by
  unfold isBanned LedgerReached
  cases hopens : io.opens with
  | false => simp
  | true =>
    cases hflock : io.flock with
    | false => simp
    | true =>
      rw [readLedger_until hreads]
      cases failed with
      | none =>
        -- the whole ledger, with the entry
        simpa using searchTarget_infix_of_hasEntry hentry
      | some read => simp

/-- The entry is in the first chunk, and the second read fails. -/
theorem failsClosed_iff_late :
    isBanned (fun _ => 7) ⟨true, true, [some (ascii "7 | EXIT_"), none]⟩ (ascii "bad") = true ↔
      LedgerReached 7 ⟨true, true, [some (ascii "7 | EXIT_"), none]⟩ (some (ascii "7 | EXIT_")) := by
  have hreads : ReadsUntil (ascii "7 | EXIT_" ++ ascii "CODE: 1\n")
      [some (ascii "7 | EXIT_"), none] ((some []).map (ascii "7 | EXIT_" ++ ·)) :=
    .chunk _ _ _ _ (by decide) (by decide) (.fails _ [])
  exact failsClosed_iff (fun _ => 7) (ascii "bad") _
    ⟨true, true, [some (ascii "7 | EXIT_"), none]⟩ _ ⟨[], 1, [], by decide, rfl⟩ hreads

/-- **The check fails open**: with the source banned, an `open` without permission and a failing
first read both answer that it is not. -/
theorem failsClosed_fails :
    HasEntry 7 (ascii "7 | EXIT_CODE: 1\n") ∧
    ReadsUntil (ascii "7 | EXIT_CODE: 1\n") [none] (some []) ∧
    isBanned (fun _ => 7) ⟨false, true, [none]⟩ (ascii "bad") = false ∧
    isBanned (fun _ => 7) ⟨true, true, [none]⟩ (ascii "bad") = false :=
  ⟨⟨[], 1, [], by decide, rfl⟩, .fails _ [], by decide, by decide⟩

/-! ## What the runner makes of it -/

namespace Pipeline

/-- **A ban that is not reported is not kept**: when the check does not reach the entry of an
accepted source, the runner forks its compiler. -/
theorem compiler_of_open_failure {stdHash : StdHash} {env : RunnerEnv}
    {sourceCode content : Text} {io : LedgerIO} {failed : Option Text} (mutationId : Text)
    (hentry : HasEntry (stdHash sourceCode) content) (hreads : ReadsUntil content io.reads failed)
    (hmissed : ¬ LedgerReached (stdHash sourceCode) io failed)
    (hsafe : (evaluateMutation sourceCode).isSafe = true) (hanalyzer : env.analyzer = .ok ())
    (hvault : env.vault = .ok true) (hcheck : env.banCheck = .ok io)
    (hfork : env.compileFork = true) (w : World) :
    Child.compiler ∈
      (Stages.endState (evaluateAndExecute stdHash env sourceCode mutationId w)).forks := by
  have hban : isBanned stdHash io sourceCode = false := by
    rw [← Bool.not_eq_true, failsClosed_iff stdHash sourceCode content io failed hentry hreads]
    exact hmissed
  exact compiler_of_not_refused .harmless mutationId hsafe hban hanalyzer hvault hcheck hfork w

end Pipeline

end Swayam
