import Mathlib.Data.List.Infix
import Swayam.Pipeline.Runner

/-!
# SWAYAM — `status.json`

The two `write_status` put the same text into `meta/status.json`. Each opens the
file with truncation and writes from its start, at an offset of its own, so the
texts of two writers lie over each other.

* `recordedOutcome_of_mark` — a file that starts with the outcome of a status records it;
* `mark_writeAt` — and goes on to do so under a write behind it;
* `mark_prefix_flush` — a text whose first flush is long enough starts with its outcome;
* `outcome_leave_iff` — what one write that may fail leaves there. A file that cannot be opened
  stays as it was, and one that is opened is emptied first, so that a write that fails behind
  that leaves a front part of the text.
-/

namespace Swayam.Pipeline

/-! ## The text -/

def quote : Byte := 34

def statusHead : Text := ascii "\x7b\n  \"outcome\": \""

/-- The text up to the quote behind its outcome. -/
def outcomeMark (outcome : Text) : Text := statusHead ++ (outcome ++ [quote])

/-- What `write_status` writes. -/
def statusText (status : Status) : Text :=
  outcomeMark status.outcome ++
  (if status.reason = [] then []
    else ascii ",\n  \"reason\": \"" ++ status.reason ++ [quote]) ++
  ascii "\n\x7d\n"

/-- The outcome that a file records: the string behind the head of a status. -/
def recordedOutcome (file : Text) : Option Text :=
  if statusHead <+: file then some (fieldAt statusHead.length quote file) else none

def published : Text := ascii "published"
def quarantined : Text := ascii "quarantined"

/-- The outcomes there are. -/
def IsOutcome (outcome : Text) : Prop := outcome = published ∨ outcome = quarantined

theorem IsOutcome.quote_notMem {outcome : Text} (h : IsOutcome outcome) : quote ∉ outcome := by
  rcases h with rfl | rfl
  · decide
  · decide

/-- An outcome is short enough for the first flush. -/
theorem IsOutcome.length_le {outcome : Text} (h : IsOutcome outcome) :
    (outcomeMark outcome).length ≤ 32 := by
  rcases h with rfl | rfl
  · decide
  · decide

/-- A status starts with its outcome. -/
theorem mark_prefix_statusText (status : Status) :
    outcomeMark status.outcome <+: statusText status := by
  unfold statusText
  rw [List.append_assoc]
  exact List.prefix_append _ _

/-- **A file that starts with an outcome** records it, whatever follows. -/
theorem recordedOutcome_of_mark {outcome file : Text} (houtcome : IsOutcome outcome)
    (h : outcomeMark outcome <+: file) : recordedOutcome file = some outcome := by
  obtain ⟨rest, rfl⟩ := h
  have hsplit : outcomeMark outcome ++ rest = statusHead ++ (outcome ++ quote :: rest) := by
    simp [outcomeMark]
  rw [hsplit, recordedOutcome, if_pos (List.prefix_append _ _),
    fieldAt_append houtcome.quote_notMem]

/-! ## Files without an outcome -/

/-- An empty file, or one that starts with a hole. -/
def Blank (file : Text) : Prop := file.headD 0 = 0

/-- A file that does not start like a status records nothing. -/
theorem recordedOutcome_of_blank {file : Text} (h : Blank file) : recordedOutcome file = none := by
  rw [recordedOutcome, if_neg]
  rintro ⟨rest, rfl⟩
  -- the head of a status starts with a brace
  have hhead : (123 : Byte) = 0 := h
  exact absurd hhead (by decide)

/-! ## Writes at an offset -/

/-- These bytes at this offset of a file, with zeros in front of them where it is too short. -/
def writeAt (file : Text) (offset : Nat) (bytes : Text) : Text :=
  file.take offset ++ (List.replicate (offset - file.length) 0 ++
    (bytes ++ file.drop (offset + bytes.length)))

/-- A write at the start lies over whatever was there. -/
theorem prefix_writeAt_zero (file bytes : Text) : bytes <+: writeAt file 0 bytes := by
  have hstart : writeAt file 0 bytes = bytes ++ file.drop bytes.length := by
    simp [writeAt]
  rw [hstart]
  exact List.prefix_append _ _

/-- A write behind the outcome leaves it there. -/
theorem mark_writeAt {front file : Text} {offset : Nat} (hfront : front <+: file)
    (hle : front.length ≤ offset) (bytes : Text) : front <+: writeAt file offset bytes := by
  have htake : front <+: file.take offset := List.prefix_take_iff.mpr ⟨hfront, hle⟩
  exact htake.trans (List.prefix_append _ _)

/-- A write behind the first byte does not touch it, or leaves a hole in front. -/
theorem blank_writeAt {file : Text} {offset : Nat} (h : Blank file) (hpos : 0 < offset)
    (bytes : Text) : Blank (writeAt file offset bytes) := by
  obtain ⟨offset, rfl⟩ : ∃ n, offset = n + 1 := ⟨offset - 1, by omega⟩
  cases file with
  -- the zeros in front of the bytes
  | nil => rfl
  | cons b rest => exact h

/-! ## Flushes -/

/-- The stream writes no less than this before it is closed, but at the end of its text. -/
def streamBuffer : Nat := 1024

/-- A first flush has the outcome in it. -/
theorem mark_prefix_flush {status : Status} (houtcome : IsOutcome status.outcome) {n : Nat}
    (hn : min streamBuffer (statusText status).length ≤ n) :
    outcomeMark status.outcome <+: (statusText status).take n := by
  have hmark := mark_prefix_statusText status
  have hshort : (outcomeMark status.outcome).length ≤ 32 := houtcome.length_le
  have hlen : (outcomeMark status.outcome).length ≤ (statusText status).length := hmark.length_le
  -- 32 bytes are less than a buffer, and no more than the text
  rw [List.prefix_take_iff]
  refine ⟨hmark, ?_⟩
  unfold streamBuffer at hn
  omega

/-! ## Writes that fail -/

/-- What one `write_status` leaves in the file. -/
inductive StatusWrite
  | lands            -- the whole of the status
  | unopened         -- what was there
  | cut (n : Nat)    -- only the first bytes: `std::ofstream` truncates when it opens
  deriving DecidableEq, Repr

/-- One `write_status`: what it leaves, and what it throws behind that. -/
structure StatusCall where
  write  : StatusWrite
  throws : Option Fault
  deriving DecidableEq, Repr

def StatusWrite.leave (write : StatusWrite) (status : Status) (w : World) : World :=
  match write with
  | .lands =>
    { w with statuses := w.statuses ++ [status], statusFile := some (statusText status) }
  | .unopened => w
  | .cut n => { w with statusFile := some ((statusText status).take n) }

/-- The outcome that this run has left in the file. -/
def lastOutcome (w : World) : Option Text := w.statusFile.bind recordedOutcome

/-- Behind the write the file records its outcome, if it has done so before where the write does
not get to it. -/
def StatusWrite.Names (write : StatusWrite) (outcome : Text) (before : Prop) : Prop :=
  match write with
  | .lands => True
  | .unopened => before
  | .cut n => statusHead.length + outcome.length ≤ n

/-- A status that is written whole records its outcome. -/
theorem recordedOutcome_statusText {status : Status} (h : IsOutcome status.outcome) :
    recordedOutcome (statusText status) = some status.outcome :=
  recordedOutcome_of_mark h (mark_prefix_statusText status)

/-- **A text that is cut** records what is left of its outcome. -/
theorem recordedOutcome_take {status : Status} (h : IsOutcome status.outcome) {n : Nat} :
    recordedOutcome ((statusText status).take n) =
      if statusHead.length ≤ n then some (status.outcome.take (n - statusHead.length))
      else none := by
  obtain ⟨rest, hrest⟩ := mark_prefix_statusText status
  have hsplit : statusText status = statusHead ++ (status.outcome ++ quote :: rest) := by
    simp [← hrest, outcomeMark]
  by_cases hn : statusHead.length ≤ n
  · obtain ⟨k, rfl⟩ : ∃ k, n = statusHead.length + k := ⟨n - statusHead.length, by omega⟩
    rw [if_pos hn, hsplit, List.take_length_add_append, recordedOutcome,
      if_pos (List.prefix_append _ _), fieldAt, List.drop_left, Nat.add_sub_cancel_left]
    -- up to the quote, or up to the cut
    have hquote : ∀ b ∈ status.outcome.take k, decide (b ≠ quote) = true := by
      intro b hb
      rw [decide_eq_true_iff]
      rintro rfl
      exact h.quote_notMem (List.mem_of_mem_take hb)
    rw [List.take_append, List.takeWhile_append_of_pos hquote]
    cases k - status.outcome.length with
    | zero => simp
    | succ m => simp
  · rw [if_neg hn, recordedOutcome, if_neg]
    intro hprefix
    have hlen : statusHead.length ≤ n :=
      le_trans hprefix.length_le (List.length_take_le n (statusText status))
    exact hn hlen

/-- **One write and the outcome in the file**: its own. -/
theorem outcome_leave_iff {outcome : Text} (h : IsOutcome outcome) (write : StatusWrite)
    (reason : Text) (w : World) :
    lastOutcome (write.leave ⟨outcome, reason⟩ w) = some outcome ↔
      write.Names outcome (lastOutcome w = some outcome) := by
  cases write with
  | lands => exact iff_of_true (recordedOutcome_statusText h) trivial
  | unopened => exact Iff.rfl
  | cut n =>
    have hrecorded : lastOutcome (StatusWrite.leave (.cut n) ⟨outcome, reason⟩ w) =
        recordedOutcome ((statusText ⟨outcome, reason⟩).take n) := rfl
    have hne : outcome ≠ [] := by
      rcases h with rfl | rfl
      · decide
      · decide
    have hpos : 0 < outcome.length := List.length_pos_iff.mpr hne
    rw [hrecorded, recordedOutcome_take h, StatusWrite.Names]
    split
    · rw [Option.some.injEq, List.take_eq_self_iff]
      show outcome.length ≤ n - statusHead.length ↔ statusHead.length + outcome.length ≤ n
      omega
    · exact iff_of_false (by simp) (by omega)

/-- **And the other one**: only a write that does not open the file lets it stand. -/
theorem outcome_leave_other {outcome other : Text} (h : IsOutcome outcome)
    (hother : IsOutcome other) (hne : outcome ≠ other) (write : StatusWrite) (reason : Text)
    (w : World) : lastOutcome (write.leave ⟨outcome, reason⟩ w) = some other ↔
      write = .unopened ∧ lastOutcome w = some other := by
  cases write with
  | lands =>
    refine iff_of_false ?_ (by simp)
    show recordedOutcome (statusText ⟨outcome, reason⟩) ≠ some other
    rw [recordedOutcome_statusText h]
    simpa using hne
  | unopened => exact (and_iff_right rfl).symm
  | cut n =>
    refine iff_of_false ?_ (by simp)
    show recordedOutcome ((statusText ⟨outcome, reason⟩).take n) ≠ some other
    rw [recordedOutcome_take h]
    split
    · -- neither outcome is a front part of the other
      intro heq
      have hprefix : other <+: outcome := by
        rw [← Option.some.inj heq]
        exact List.take_prefix _ _
      rcases h with rfl | rfl <;> rcases hother with rfl | rfl
      · exact hne rfl
      · exact absurd hprefix (by decide)
      · exact absurd hprefix (by decide)
      · exact hne rfl
    · simp

end Swayam.Pipeline
