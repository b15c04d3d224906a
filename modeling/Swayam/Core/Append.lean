import Swayam.Core.Log

/-!
# SWAYAM — `atomic_quarantine_append` under I/O failures

The append copies the log to a temp file, adds the record and renames the
temp file over the log. It looks at the results of the lock, of opening the
temp file and of the rename, but not at the state of its two streams after
reading the log and after writing the temp file; so a short read or a short
write goes into the rename. Each of these calls may fail by itself (`AppendIO`); no
other writer of the log is at work in the meantime.

* `atomicQuarantineAppend_clean` — without failures the log becomes the old
  records, with the header in front, and the new record;
* `allOrNothing_iff` — the call keeps the log whole exactly when `AppendIntact`
  holds of the failures, the old log and the record.
-/

namespace Swayam

open Delimited

/-- The log as a call without failures leaves it. -/
def appendedLog (log : Option Text) (entry : Text) : Text :=
  withHeader (log.getD []) ++ entry

@[simp] theorem readExisting_whole (log : Option Text) :
    readExisting .whole log = log.getD [] := by
  cases log <;> rfl

/-- With no I/O failure the log has one more line under the header. -/
theorem atomicQuarantineAppend_clean (hash : UInt64) (signalNum now : Int)
    (sourceLabel : Text) (fs : LogFiles) :
    atomicQuarantineAppend .clean hash signalNum now sourceLabel fs =
      { fs with
        log := some (appendedLog fs.log (quarantineEntry hash signalNum now sourceLabel))
        tmp := none } := by
  simp [atomicQuarantineAppend, AppendIO.clean, TmpWrite.bytes, appendedLog]

/-- The log after a call: untouched unless the lock, the temp file and the rename
all succeed, and then whatever reached the temp file. -/
theorem atomicQuarantineAppend_log (io : AppendIO) (hash : UInt64) (signalNum now : Int)
    (sourceLabel : Text) (fs : LogFiles) :
    (atomicQuarantineAppend io hash signalNum now sourceLabel fs).log =
      if io.lock ∧ io.tmp ∧ io.rename then
        some (io.write.bytes (withHeader (readExisting io.read fs.log) ++
          quarantineEntry hash signalNum now sourceLabel))
      else fs.log := by
  unfold atomicQuarantineAppend
  cases io.lock <;> cases io.tmp <;> cases io.rename <;> rfl

/-! ## All or nothing -/

/-- The log after the call is byte for byte the old one, or the old records with
the header in front and the new record. -/
def AllOrNothing (before after : Option Text) (entry : Text) : Prop :=
  after = before ∨ after = some (appendedLog before entry)

instance (before after : Option Text) (entry : Text) :
    Decidable (AllOrNothing before after entry) :=
  inferInstanceAs (Decidable (_ ∨ _))

/-- When a failure pattern keeps the log whole: the call gives up before the
rename or the rename fails; or nothing is cut; or what is cut is nothing the
log needs. -/
def AppendIntact (io : AppendIO) (log : Option Text) (entry : Text) : Prop :=
  let old := log.getD []
  let existing := readExisting io.read log
  let text := withHeader existing ++ entry
  let reached := (io.write.bytes text).length
  -- the call stops before it replaces the log
  io.lock = false ∨ io.tmp = false ∨ io.rename = false ∨
  -- the log is read in full and the temp file written in full
  (existing = old ∧ reached = text.length) ∨
  -- the log is read in full and the write is cut right behind it
  (existing = old ∧ withHeader old = old ∧ reached = old.length) ∨
  -- the log is the header line: nothing read and all written, or cut behind the header
  (old = headerLine ∧
    (existing = [] ∧ reached = text.length ∨
      withHeader existing ≠ existing ∧ reached = headerLine.length)) ∨
  -- the only part not read is a record equal to the one appended
  (old = text ∧ reached = text.length)

instance (io : AppendIO) (log : Option Text) (entry : Text) :
    Decidable (AppendIntact io log entry) := by
  unfold AppendIntact
  infer_instance

/-! ### Reading and writing are prefixes -/

/-- A read cut short returns a front part of the log. -/
theorem readExisting_prefix (read : LogRead) (log : Option Text) :
    readExisting read log <+: log.getD [] := by
  cases log with
  | none => exact List.nil_prefix
  | some c =>
    cases read with
    | cannotOpen => exact List.nil_prefix
    | part n => exact List.take_prefix n c
    | whole => exact List.prefix_rfl

/-- A write cut short leaves a front part of what was to be written. -/
theorem bytes_prefix (write : TmpWrite) (t : Text) : write.bytes t <+: t := by
  cases write with
  | cut n => exact List.take_prefix n t
  | complete => exact List.prefix_rfl

/-- Two prefixes of one text that are equally long are equal. -/
private theorem eq_of_prefix_of_length {a b t : Text} (ha : a <+: t) (hb : b <+: t)
    (h : a.length = b.length) : a = b :=
  (List.prefix_of_prefix_length_le ha hb (le_of_eq h)).eq_of_length h

/-- A part of a log with the header that does not have it is a part of the header. -/
private theorem prefix_header {existing old : Text} (hpre : existing <+: old)
    (hold : quarantineVersionHeader <+: old) (hno : ¬ quarantineVersionHeader <+: existing) :
    existing <+: quarantineVersionHeader := by
  rcases List.prefix_or_prefix_of_prefix hpre hold with h | h
  · exact h
  · exact absurd h hno

/-- A log that starts with the header and ends in a newline starts with the header
line. -/
private theorem exists_eq_headerLine_append {old b t : Text} (hend : old = b ++ [newline])
    (hpre : old <+: headerLine ++ t) :
    ∃ rest, old = headerLine ++ rest ∧ rest <+: t := by
  rcases List.prefix_or_prefix_of_prefix hpre (List.prefix_append headerLine t) with h | h
  · have hb : b = quarantineVersionHeader := by
      rw [hend, headerLine] at h
      exact eq_of_prefix_line newline_notMem_header h
    refine ⟨[], ?_, List.nil_prefix⟩
    rw [hend, hb, List.append_nil, headerLine]
  · obtain ⟨rest, rfl⟩ := h
    exact ⟨rest, rfl, (List.prefix_append_right_inj _).mp hpre⟩

/-! ### The exact condition -/

section Exact

variable {old existing reached entry line b : Text}

/-- What follows the header, when the existing log reads as a part of the header:
a rest that ends in a newline is the whole rest. -/
private theorem rest_eq_of_prefix {rest q : Text} (hentry : entry = line ++ [newline])
    (hline : newline ∉ line) (hexisting : newline ∉ existing) (hrest : rest = q ++ [newline])
    (hpre : rest <+: existing ++ entry) : rest = existing ++ entry := by
  have hnot : newline ∉ existing ++ line := by
    rw [List.mem_append, not_or]
    exact ⟨hexisting, hline⟩
  have hq : q = existing ++ line := by
    refine eq_of_prefix_line hnot ?_
    rw [← hrest, List.append_assoc, ← hentry]
    exact hpre
  rw [hrest, hq, hentry, List.append_assoc]

/-- A part of the header holds no newline. -/
private theorem newline_notMem_of_prefix_header
    (h : existing <+: quarantineVersionHeader) : newline ∉ existing :=
  fun hmem => newline_notMem_header (h.subset hmem)

/-- The rest behind the header line is empty or ends in the log's last newline. -/
private theorem rest_nil_or_line {rest : Text} (hend : old = b ++ [newline])
    (hold : old = headerLine ++ rest) : rest = [] ∨ ∃ q, rest = q ++ [newline] := by
  rcases List.eq_nil_or_concat rest with rfl | ⟨q, x, rfl⟩
  · exact Or.inl rfl
  · right
    refine ⟨q, ?_⟩
    rw [List.concat_eq_append] at hold ⊢
    have hlast : b ++ [newline] = headerLine ++ q ++ [x] := by
      rw [← hend, hold, List.append_assoc]
    rw [(List.append_inj' hlast rfl).2]

/-- **When the replaced log is the old one**: the write is cut behind a log that was
read in full; or behind the header line of a log that holds nothing else; or the
text written is the old log. -/
private theorem reached_eq_old_iff (hend : old = b ++ [newline]) (hread : existing <+: old)
    (hentry : entry = line ++ [newline]) (hline : newline ∉ line)
    (hreached : reached <+: withHeader existing ++ entry) :
    reached = old ↔
      (existing = old ∧ withHeader old = old ∧ reached.length = old.length) ∨
      (old = headerLine ∧ withHeader existing ≠ existing ∧
        reached.length = headerLine.length) ∨
      (old = withHeader existing ++ entry ∧
        reached.length = (withHeader existing ++ entry).length) := by
  constructor
  · intro heq
    rw [heq] at hreached ⊢
    by_cases hhead : quarantineVersionHeader <+: existing
    · -- the header was read: the unread rest is a prefix of the entry
      rw [withHeader_of_headed hhead] at hreached ⊢
      have hfull : withHeader old = old := withHeader_of_headed (hhead.trans hread)
      obtain ⟨rest, rfl⟩ := hread
      rw [List.prefix_append_right_inj] at hreached
      -- the whole log was read, or its last line is the entry
      rcases List.eq_nil_or_concat rest with rfl | ⟨q, x, rfl⟩
      · rw [List.append_nil] at hfull
        exact Or.inl ⟨by simp, by simpa using hfull, rfl⟩
      · rw [List.concat_eq_append] at hend hreached ⊢
        rw [← List.append_assoc] at hend
        rw [(List.append_inj' hend rfl).2] at hreached ⊢
        rw [hentry] at hreached ⊢
        rw [eq_of_prefix_line hline hreached]
        exact Or.inr (Or.inr ⟨rfl, rfl⟩)
    · -- the header was not read: the log begins with the header line
      have hne : withHeader existing ≠ existing := fun h => hhead (withHeader_eq_self_iff.mp h)
      rw [withHeader_of_not_headed hhead] at hne
      rw [withHeader_of_not_headed hhead, List.append_assoc] at hreached ⊢
      obtain ⟨rest, hrest, hpre⟩ := exists_eq_headerLine_append hend hreached
      -- the log is the header alone, or the entry behind it
      rcases rest_nil_or_line hend hrest with rfl | ⟨q, hq⟩
      · rw [List.append_nil] at hrest
        exact Or.inr (Or.inl ⟨hrest, hne, by rw [hrest]⟩)
      · have hheader : quarantineVersionHeader <+: old := by
          rw [hrest, headerLine, List.append_assoc]
          exact List.prefix_append ..
        have hpart := prefix_header hread hheader hhead
        have hall := rest_eq_of_prefix hentry hline (newline_notMem_of_prefix_header hpart) hq hpre
        rw [hrest, hall]
        exact Or.inr (Or.inr ⟨rfl, rfl⟩)
  · rintro (⟨rfl, hfull, hlen⟩ | ⟨rfl, hne, hlen⟩ | ⟨hold, hlen⟩)
    · rw [hfull] at hreached
      exact eq_of_prefix_of_length hreached (List.prefix_append ..) hlen
    · have hhead : ¬ quarantineVersionHeader <+: existing :=
        fun h => hne (withHeader_eq_self_iff.mpr h)
      rw [withHeader_of_not_headed hhead, List.append_assoc] at hreached
      exact eq_of_prefix_of_length hreached (List.prefix_append ..) hlen
    · rw [hold]
      exact hreached.eq_of_length hlen

/-- **When the replaced log is the old one and the new record**: everything was read
and written; or the old log was the header line, none of it was read, and
everything was written. -/
private theorem reached_eq_appended_iff (hend : old = [] ∨ ∃ b, old = b ++ [newline])
    (hread : existing <+: old) (hentry : entry = line ++ [newline]) (hline : newline ∉ line)
    (hsharp : line.head? ≠ some sharp)
    (hreached : reached <+: withHeader existing ++ entry) :
    reached = withHeader old ++ entry ↔
      (existing = old ∧ reached.length = (withHeader existing ++ entry).length) ∨
      (old = headerLine ∧ existing = [] ∧
        reached.length = (withHeader existing ++ entry).length) := by
  constructor
  · intro heq
    have hle : (withHeader old ++ entry).length ≤ (withHeader existing ++ entry).length := by
      rw [← heq]
      exact hreached.length_le
    have hexisting := hread.length_le
    rw [List.length_append, List.length_append] at hle
    by_cases hhead : quarantineVersionHeader <+: existing
    · rw [withHeader_of_headed hhead, withHeader_of_headed (hhead.trans hread)] at hle
      have hsame : existing = old := hread.eq_of_length (by omega)
      exact Or.inl ⟨hsame, by rw [heq, hsame]⟩
    · by_cases hold : quarantineVersionHeader <+: old
      · -- the log had the header and the part read does not
        rw [heq, withHeader_of_headed hold, withHeader_of_not_headed hhead,
          List.append_assoc] at hreached
        rw [heq, withHeader_of_headed hold, withHeader_of_not_headed hhead]
        rcases hend with rfl | ⟨b, hb⟩
        · exact absurd hold (by decide)
        · obtain ⟨rest, hrest, -⟩ := exists_eq_headerLine_append hb
            ((List.prefix_append old entry).trans hreached)
          rw [hrest, List.append_assoc, List.prefix_append_right_inj] at hreached
          have hpart := prefix_header hread hold hhead
          have hnl := newline_notMem_of_prefix_header hpart
          have hrestpre : rest <+: existing ++ entry := (List.prefix_append ..).trans hreached
          rcases rest_nil_or_line hb hrest with rfl | ⟨q, hq⟩
          · rw [List.nil_append] at hreached
            rw [List.append_nil] at hrest
            -- the entry would start inside the part read, which starts with `#`
            have hnil : existing = [] := by
              cases existing with
              | nil => rfl
              | cons x xs =>
                obtain ⟨t, ht⟩ := hpart
                have hx : x = sharp := by
                  have := congrArg List.head? ht
                  simpa [quarantineVersionHeader, ascii, sharp] using this
                obtain ⟨t', ht'⟩ := hreached
                rw [hentry] at ht'
                have hfirst := congrArg List.head? ht'
                cases line with
                | nil =>
                  rw [hx] at hfirst
                  exact absurd (Option.some.inj hfirst) (by decide)
                | cons y ys =>
                  rw [hx] at hfirst
                  exact absurd hfirst hsharp
            exact Or.inr ⟨hrest, hnil, by rw [hrest, hnil, List.append_nil]⟩
          · -- the rest already holds the entry's newline: no room for the entry
            have hall := rest_eq_of_prefix hentry hline hnl hq hrestpre
            have hlen := hreached.length_le
            rw [hall, hentry, List.length_append, List.length_append] at hlen
            simp only [List.length_append, List.length_cons, List.length_nil] at hlen
            omega
      · rw [withHeader_of_not_headed hold, withHeader_of_not_headed hhead,
          List.length_append, List.length_append] at hle
        have hsame : existing = old := hread.eq_of_length (by omega)
        exact Or.inl ⟨hsame, by rw [heq, hsame]⟩
  · rintro (⟨rfl, hlen⟩ | ⟨rfl, rfl, hlen⟩)
    · exact hreached.eq_of_length hlen
    · exact hreached.eq_of_length hlen

end Exact

/-- **All-or-nothing, exactly.** For a log that is absent or ends in a newline and a
newline-free label, a call under any combination of I/O failures leaves the old
log, or the old records and the new one, if and only if `AppendIntact` holds. -/
theorem allOrNothing_iff (io : AppendIO) (hash : UInt64) (signalNum now : Int)
    (sourceLabel : Text) (fs : LogFiles)
    (hlog : ∀ c, fs.log = some c → ∃ b, c = b ++ [newline]) (hlabel : newline ∉ sourceLabel) :
    AllOrNothing fs.log (atomicQuarantineAppend io hash signalNum now sourceLabel fs).log
        (quarantineEntry hash signalNum now sourceLabel) ↔
      AppendIntact io fs.log (quarantineEntry hash signalNum now sourceLabel) := by
  obtain ⟨line, hentry, hline, hsharp, -⟩ :=
    quarantineEntry_eq_line hash signalNum now hlabel
  rw [AllOrNothing, AppendIntact, atomicQuarantineAppend_log]
  by_cases hok : io.lock ∧ io.tmp ∧ io.rename
  · obtain ⟨hlock, htmp, hrename⟩ := hok
    have hreached := bytes_prefix io.write (withHeader (readExisting io.read fs.log) ++
      quarantineEntry hash signalNum now sourceLabel)
    have hread := readExisting_prefix io.read fs.log
    have hend : fs.log.getD [] = [] ∨ ∃ b, fs.log.getD [] = b ++ [newline] := by
      cases hfs : fs.log with
      | none => exact Or.inl rfl
      | some c => exact Or.inr (hlog c hfs)
    have happended := reached_eq_appended_iff hend hread hentry hline hsharp hreached
    rw [if_pos ⟨hlock, htmp, hrename⟩, Option.some.injEq, appendedLog, happended]
    simp only [hlock, htmp, hrename, Bool.true_eq_false, false_or]
    cases hfs : fs.log with
    | none =>
      -- without a log only the complete write counts
      have hempty : headerLine ≠ [] := by decide
      simp [hempty.symm, hempty, hentry]
    | some c =>
      obtain ⟨b, hb⟩ := hlog c hfs
      rw [hfs] at hread hreached
      have hold := reached_eq_old_iff hb hread hentry hline hreached
      rw [Option.some.injEq, hold, Option.getD_some]
      constructor
      · rintro ((hbehind | ⟨hheader, hne, hlen⟩ | hsame) | (hfull | ⟨hheader, hnil, hlen⟩))
        · exact Or.inr (Or.inl hbehind)
        · exact Or.inr (Or.inr (Or.inl ⟨hheader, Or.inr ⟨hne, hlen⟩⟩))
        · exact Or.inr (Or.inr (Or.inr hsame))
        · exact Or.inl hfull
        · exact Or.inr (Or.inr (Or.inl ⟨hheader, Or.inl ⟨hnil, hlen⟩⟩))
      · rintro (hfull | hbehind | ⟨hheader, ⟨hnil, hlen⟩ | ⟨hne, hlen⟩⟩ | hsame)
        · exact Or.inr (Or.inl hfull)
        · exact Or.inl (Or.inl hbehind)
        · exact Or.inr (Or.inr ⟨hheader, hnil, hlen⟩)
        · exact Or.inl (Or.inr (Or.inl ⟨hheader, hne, hlen⟩))
        · exact Or.inl (Or.inr (Or.inr hsame))
  · rw [if_neg hok]
    simp only [true_or, true_iff]
    rw [not_and_or, not_and_or, Bool.not_eq_true, Bool.not_eq_true, Bool.not_eq_true] at hok
    rcases hok with hlock | htmp | hrename
    · exact Or.inl hlock
    · exact Or.inr (Or.inl htmp)
    · exact Or.inr (Or.inr (Or.inl hrename))

/-- Without failures the condition holds, and the call is all-or-nothing. -/
theorem allOrNothing_iff_clean :
    AllOrNothing (some headerLine)
        (atomicQuarantineAppend .clean 7 11 1700000000 (ascii "m.cpp")
          ⟨some headerLine, none, none⟩).log
        (quarantineEntry 7 11 1700000000 (ascii "m.cpp")) :=
  (allOrNothing_iff .clean 7 11 1700000000 (ascii "m.cpp") ⟨some headerLine, none, none⟩
    (fun c h => ⟨quarantineVersionHeader, (Option.some.inj h).symm⟩) (by decide)).mpr
    (by decide)

/-- **A full disk empties the ledger**: the temp file stays empty, and the rename
puts it in the place of a log with one record. -/
theorem allOrNothing_fails_on_full_disk :
    newline ∉ ascii "n.cpp" ∧
    (∃ b, headerLine ++ quarantineEntry 7 11 1700000000 (ascii "m.cpp") = b ++ [newline]) ∧
    (atomicQuarantineAppend ⟨true, .whole, true, .cut 0, true, true⟩ 8 6 1700000060
      (ascii "n.cpp")
      ⟨some (headerLine ++ quarantineEntry 7 11 1700000000 (ascii "m.cpp")), none, none⟩).log =
        some [] ∧
    ¬ AllOrNothing (some (headerLine ++ quarantineEntry 7 11 1700000000 (ascii "m.cpp")))
        (atomicQuarantineAppend ⟨true, .whole, true, .cut 0, true, true⟩ 8 6 1700000060
          (ascii "n.cpp")
          ⟨some (headerLine ++ quarantineEntry 7 11 1700000000 (ascii "m.cpp")), none,
            none⟩).log
        (quarantineEntry 8 6 1700000060 (ascii "n.cpp")) := by
  refine ⟨by decide, ?_, by decide, by decide⟩
  exact ⟨headerLine ++ (quarantineEntry 7 11 1700000000 (ascii "m.cpp")).dropLast, by decide⟩

end Swayam
