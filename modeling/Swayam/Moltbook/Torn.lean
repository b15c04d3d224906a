import Swayam.Moltbook.Ledger

/-!
# SWAYAM — torn appends to the ledger of `Moltbook`

A crash may cut an append after any number of its bytes. The next `Moltbook`
loads what is there and goes on appending behind the torn bytes, so that its
first record shares a line with them.

* `ledger_run` — the ledger after any calls and crashes: one line for each record
  written in full, behind the bytes torn in front of it;
* `tornCostsItself_iff` — exactly when every record written in full is known after
  the next reload.
-/

namespace Swayam.Moltbook

open Delimited

/-! ## Runs with crashes -/

/-- A `record_mutation` call; with `cut`, its append is cut after so many bytes by a crash, and
a new `Moltbook` takes over. -/
structure BookEvent where
  hashDna : Text
  status  : Text
  cut     : Option Nat
  deriving DecidableEq, Repr

/-- A record written in full, and the bytes of torn appends in front of it on its line. -/
structure FullRecord where
  torn    : Text
  hashDna : Text
  status  : Text
  deriving DecidableEq, Repr

/-- The book, the torn bytes at the end of its ledger, and the records written in full. -/
structure BookRun where
  book    : Book
  pending : Text
  full    : List FullRecord

/-- A workspace without a ledger. -/
def BookRun.start : BookRun := ⟨Book.load none, [], []⟩

/-- The crash of a call that does not know the mutation, `n` bytes into its append. -/
def Book.crash (m : Book) (hashDna status : Text) (n : Nat) : Book :=
  Book.load (some (m.file.getD [] ++ (recordEntry hashDna status).take n))

/-- One call, and what it writes. -/
def BookRun.step (r : BookRun) (e : BookEvent) : BookRun :=
  let written : FullRecord := ⟨r.pending, e.hashDna, e.status⟩
  if r.book.isKnown e.hashDna then
    -- the call appends nothing, and a crash has nothing to cut
    match e.cut with
    | none => r
    | some _ => { r with book := Book.load r.book.file }
  else match e.cut with
    | none => ⟨r.book.recordMutation e.hashDna e.status, [], r.full ++ [written]⟩
    | some n =>
      let book := r.book.crash e.hashDna e.status n
      if (recordEntry e.hashDna e.status).length ≤ n then ⟨book, [], r.full ++ [written]⟩
      else ⟨book, r.pending ++ (recordEntry e.hashDna e.status).take n, r.full⟩

def BookRun.run (r : BookRun) (events : List BookEvent) : BookRun := events.foldl BookRun.step r

/-! ## The ledger of a run -/

/-- The key of a record behind the bytes torn in front of it. -/
def FullRecord.key (a : FullRecord) : Option Text :=
  recordKey (a.torn ++ recordLine a.hashDna a.status)

/-- The ledger: the lines of the records written in full, and the torn bytes. -/
structure LedgerInv (r : BookRun) : Prop where
  lines   : closedKeys newline recordKey (r.book.file.getD []) =
    r.full.flatMap fun a => a.key.toList
  pending : lastLine newline (r.book.file.getD []) = r.pending
  plain   : ∀ a ∈ r.full, Plain a.hashDna a.status ∧ newline ∉ a.torn

/-- The line of a record that is written in full. -/
theorem ledgerInv_full {r : BookRun} {d s : Text} {book : Book} (hinv : LedgerInv r)
    (hplain : Plain d s) (hfile : book.file.getD [] = r.book.file.getD [] ++ recordEntry d s) :
    LedgerInv ⟨book, [], r.full ++ [⟨r.pending, d, s⟩]⟩ := by
  refine ⟨?_, ?_, ?_⟩
  · show closedKeys newline recordKey (book.file.getD []) = _
    rw [hfile, recordEntry, closedKeys_append_line hplain.newline_notMem, hinv.lines, hinv.pending,
      List.flatMap_append, List.flatMap_singleton]
    rfl
  · show lastLine newline (book.file.getD []) = []
    rw [hfile, recordEntry, ← List.append_assoc]
    exact lastLine_append_sep _
  · intro a ha
    rcases List.mem_append.mp ha with hold | hnew
    · exact hinv.plain a hold
    · rw [List.mem_singleton.mp hnew]
      refine ⟨hplain, ?_⟩
      rw [← hinv.pending]
      exact notMem_lastLine _

/-- The bytes of an append that is cut. -/
theorem ledgerInv_torn {r : BookRun} {d s : Text} {n : Nat} {book : Book} (hinv : LedgerInv r)
    (hplain : Plain d s) (hcut : n < (recordEntry d s).length)
    (hfile : book.file.getD [] = r.book.file.getD [] ++ (recordEntry d s).take n) :
    LedgerInv ⟨book, r.pending ++ (recordEntry d s).take n, r.full⟩ := by
  -- the newline is the last byte of the record
  have htaken : newline ∉ (recordEntry d s).take n := by
    intro hmem
    refine hplain.newline_notMem ?_
    rw [recordEntry, List.length_append, List.length_singleton] at hcut
    rw [recordEntry, List.take_append_of_le_length (by omega)] at hmem
    exact List.mem_of_mem_take hmem
  refine ⟨?_, ?_, hinv.plain⟩
  · show closedKeys newline recordKey (book.file.getD []) = _
    rw [hfile, closedKeys_append_of_notMem htaken, hinv.lines]
  · show lastLine newline (book.file.getD []) = _
    rw [hfile, lastLine_append_of_notMem htaken, hinv.pending]

/-- **Step lemma.** -/
theorem ledgerInv_step {r : BookRun} {e : BookEvent} (hinv : LedgerInv r)
    (hplain : Plain e.hashDna e.status) : LedgerInv (r.step e) := by
  unfold BookRun.step
  split
  · -- a known mutation: the file stays, whether the process dies or not
    cases e.cut with
    | none => exact hinv
    | some n => exact ⟨hinv.lines, hinv.pending, hinv.plain⟩
  · rename_i hnew
    cases e.cut with
    | none =>
      refine ledgerInv_full hinv hplain ?_
      rw [Book.recordMutation, if_neg hnew]
      rfl
    | some n =>
      dsimp only
      split
      · rename_i hwhole
        -- the cut comes behind the whole record, which then counts as written in full
        refine ledgerInv_full hinv hplain ?_
        rw [Book.crash, List.take_of_length_le hwhole]
        rfl
      · rename_i hcut
        -- what is left of the record is the start of the next one's line
        exact ledgerInv_torn hinv hplain (Nat.lt_of_not_le hcut) rfl

/-- **The ledger of a run**, after any calls with plain fields and any crashes. -/
theorem ledger_run {events : List BookEvent} (hplain : ∀ e ∈ events, Plain e.hashDna e.status) :
    LedgerInv (BookRun.start.run events) := by
  -- by induction on the events, from any run so far
  have hfold : ∀ (events : List BookEvent) (r : BookRun), LedgerInv r →
      (∀ e ∈ events, Plain e.hashDna e.status) → LedgerInv (r.run events) := by
    intro events
    induction events with
    | nil => exact fun r hinv _ => hinv
    | cons e events ih =>
      intro r hinv hplain
      have hstep : LedgerInv (r.step e) :=
        ledgerInv_step hinv (hplain e (List.mem_cons_self ..))
      exact ih (r.step e) hstep fun e' he' => hplain e' (List.mem_cons_of_mem _ he')
  refine hfold events .start ⟨rfl, rfl, fun a ha => ?_⟩ hplain
  exact absurd ha List.not_mem_nil

/-! ## What a reload finds -/

/-- The line of the record `b`, torn bytes and all, is read as a record of `h`. -/
def ReadsAs (b : FullRecord) (h : Text) : Prop :=
  bar ∉ b.torn ∧ b.torn ++ b.hashDna = h ∧
    checksumText (rawRecord h b.status) = checksumText (rawRecord b.hashDna b.status)

/-- The torn bytes at the end are a whole record of `h` but for the newline. -/
def LeftWhole (pending h : Text) : Prop :=
  ∃ status, bar ∉ h ∧ bar ∉ status ∧ pending = recordLine h status

/-- What a torn line is read as. -/
theorem key_eq_some_iff {a : FullRecord} (hplain : Plain a.hashDna a.status)
    (htorn : newline ∉ a.torn) (h : Text) : a.key = some h ↔ ReadsAs a h := by
  rw [FullRecord.key, recordKey_append htorn hplain, ReadsAs]
  constructor
  · rintro ⟨hbar, rfl, hsum⟩
    exact ⟨hbar, rfl, hsum⟩
  · rintro ⟨hbar, rfl, hsum⟩
    exact ⟨hbar, rfl, hsum⟩

/-- A record with nothing torn in front of it is read as itself. -/
theorem readsAs_of_untorn {a : FullRecord} (h : a.torn = []) : ReadsAs a a.hashDna := by
  rw [ReadsAs, h]
  exact ⟨List.not_mem_nil, rfl, rfl⟩

/-- **What a reload finds** after a run. -/
theorem mem_loadLedger_run {events : List BookEvent}
    (hplain : ∀ e ∈ events, Plain e.hashDna e.status) (h : Text) :
    h ∈ loadLedger (BookRun.start.run events).book.file ↔
      (∃ b ∈ (BookRun.start.run events).full, ReadsAs b h) ∨
        LeftWhole (BookRun.start.run events).pending h := by
  obtain ⟨hlines, hpending, hfull⟩ := ledger_run hplain
  have hlast : newline ∉ (BookRun.start.run events).pending := by
    rw [← hpending]
    exact notMem_lastLine _
  rw [mem_loadLedger, keys_eq_closedKeys recordKey_nil, hlines, hpending, List.mem_append,
    List.mem_flatMap, Option.mem_toList, recordKey_eq_some_iff hlast, LeftWhole]
  refine or_congr_left (exists_congr fun b => and_congr_right fun hb => ?_)
  rw [Option.mem_toList, key_eq_some_iff (hfull b hb).1 (hfull b hb).2]

/-- **A torn append costs its own record alone, exactly when** every record written in full has
nothing torn in front of it, or is what another such line, or the torn rest of the ledger, is read
as. -/
theorem tornCostsItself_iff (events : List BookEvent)
    (hplain : ∀ e ∈ events, Plain e.hashDna e.status) :
    (∀ a ∈ (BookRun.start.run events).full,
        (Book.load (BookRun.start.run events).book.file).isKnown a.hashDna = true) ↔
      ∀ a ∈ (BookRun.start.run events).full,
        a.torn = [] ∨ (∃ b ∈ (BookRun.start.run events).full, ReadsAs b a.hashDna) ∨
          LeftWhole (BookRun.start.run events).pending a.hashDna := by
  have hloaded : ∀ h, (Book.load (BookRun.start.run events).book.file).isKnown h = true ↔ _ :=
    fun h => decide_eq_true_iff.trans (mem_loadLedger_run hplain h)
  refine forall_congr' fun a => forall_congr' fun ha => ?_
  rw [hloaded]
  constructor
  · exact Or.inr
  · -- an untorn record is read as itself, so the first case is one of the others
    rintro (huntorn | hread)
    · exact Or.inl ⟨a, ha, readsAs_of_untorn huntorn⟩
    · exact hread

/-- A record, and one behind it that is cut after a byte. -/
def lastTorn : List BookEvent :=
  [⟨ascii "a", ascii "ok", none⟩, ⟨ascii "b", ascii "ok", some 1⟩]

/-- A record that is cut after a byte, and one behind it. -/
def firstTorn : List BookEvent :=
  [⟨ascii "a", ascii "ok", some 1⟩, ⟨ascii "b", ascii "ok", none⟩]

/-- A tear in the last record. -/
theorem tornCostsItself_iff_lastTorn :
    (∀ a ∈ (BookRun.start.run lastTorn).full,
        (Book.load (BookRun.start.run lastTorn).book.file).isKnown a.hashDna = true) ↔
      ∀ a ∈ (BookRun.start.run lastTorn).full,
        a.torn = [] ∨ (∃ b ∈ (BookRun.start.run lastTorn).full, ReadsAs b a.hashDna) ∨
          LeftWhole (BookRun.start.run lastTorn).pending a.hashDna := by
  refine tornCostsItself_iff lastTorn fun e he => ?_
  rcases List.mem_cons.mp he with rfl | he
  · exact ⟨by decide, by decide, by decide, by decide⟩
  · rw [List.mem_singleton.mp he]
    exact ⟨by decide, by decide, by decide, by decide⟩

/-- **The record behind the torn one is lost**: one byte of the first record stays, the second is
written in full behind it, and the next `Moltbook` does not know the second. -/
theorem tornCostsItself_fails :
    (∀ e ∈ firstTorn, Plain e.hashDna e.status) ∧
    (BookRun.start.run firstTorn).full = [⟨ascii "a", ascii "b", ascii "ok"⟩] ∧
    (Book.load (BookRun.start.run firstTorn).book.file).isKnown (ascii "b") = false := by
  refine ⟨fun e he => ?_, by decide, by decide⟩
  rcases List.mem_cons.mp he with rfl | he
  · exact ⟨by decide, by decide, by decide, by decide⟩
  · rw [List.mem_singleton.mp he]
    exact ⟨by decide, by decide, by decide, by decide⟩

end Swayam.Moltbook
