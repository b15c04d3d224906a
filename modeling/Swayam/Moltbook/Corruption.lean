import Swayam.Lib.FoldHash
import Swayam.Lib.SignedHash
import Swayam.Moltbook.Ledger

/-!
# SWAYAM — corrupted records

The checksum of a record is there to find corruption. FNV-1a takes a record in
byte by byte, and its step loses nothing modulo 2^64: the prime is odd, and the
bytes, sign-extended to words, stay different. So a record with one byte of a
field replaced has another checksum, and the loader, which recomputes it,
skips the line.

The fields must stay where they are for that: a byte that is replaced by the
separator or by a newline moves them, and is left out here.

* `calculateChecksum_set_ne` — one replaced byte changes the checksum;
* `recordKey_corrupted` — a corrupted line has no key;
* `loadLedger_corrupted` — the ledger loads as it would without that line.
-/

namespace Swayam.Moltbook

open Delimited

/-! ## The checksum -/

/-- The inverse of the FNV prime modulo 2^64. -/
def primeInverse : UInt64 := 14886173955864302971

theorem lossless_checksum :
    FoldHash.Lossless (SignedHash.signedStep 1099511628211) :=
  FoldHash.lossless_xor_mul SignedHash.signedWord_injective (q := primeInverse) (by decide)

/-- **One replaced byte changes the checksum**, anywhere in the record. -/
theorem calculateChecksum_set_ne {record : Text} {i : Nat} (hi : i < record.length) {b : Byte}
    (hb : b ≠ record[i]) : calculateChecksum (record.set i b) ≠ calculateChecksum record :=
  lossless_checksum.foldl_set_ne hi hb 14695981039346656037

/-- And the decimal that stands in the line. -/
theorem checksumText_set_ne {record : Text} {i : Nat} (hi : i < record.length) {b : Byte}
    (hb : b ≠ record[i]) : checksumText (record.set i b) ≠ checksumText record := by
  intro heq
  have hnat := decimal_injective heq
  exact calculateChecksum_set_ne hi hb (UInt64.toNat_inj.mp hnat)

/-! ## Corrupted lines -/

/-- The two fields of a record with one byte of one of them replaced, by a byte that is neither a
separator nor a newline. -/
inductive Corrupted (hashDna status : Text) : Text → Text → Prop
  | hashDna (i : Nat) (hi : i < hashDna.length) (b : Byte) (hb : b ≠ hashDna[i])
      (hbar : b ≠ bar) (hline : b ≠ newline) : Corrupted hashDna status (hashDna.set i b) status
  | status (i : Nat) (hi : i < status.length) (b : Byte) (hb : b ≠ status[i])
      (hbar : b ≠ bar) (hline : b ≠ newline) : Corrupted hashDna status hashDna (status.set i b)

/-- The line with the corrupted fields: the checksum is still that of the record as written. -/
def corruptedLine (hashDna status hashDna' status' : Text) : Text :=
  rawRecord hashDna' status' ++ bar :: checksumText (rawRecord hashDna status)

/-- Changing one byte to another than the separator adds none. -/
theorem notMem_set {t : Text} {sep : Byte} (ht : sep ∉ t) {b : Byte} (hb : b ≠ sep) (i : Nat) :
    sep ∉ t.set i b := by
  intro hmem
  rcases List.mem_or_eq_of_mem_set hmem with hmem | heq
  · exact ht hmem
  · exact hb heq.symm

variable {hashDna status hashDna' status' : Text}

/-- Corrupted fields are still plain. -/
theorem Corrupted.plain (h : Corrupted hashDna status hashDna' status')
    (hplain : Plain hashDna status) : Plain hashDna' status' := by
  cases h with
  | hashDna i hi b hb hbar hline =>
    exact ⟨notMem_set hplain.dnaBar hbar i, notMem_set hplain.dnaLine hline i, hplain.statBar,
      hplain.statLine⟩
  | status i hi b hb hbar hline =>
    exact ⟨hplain.dnaBar, hplain.dnaLine, notMem_set hplain.statBar hbar i,
      notMem_set hplain.statLine hline i⟩

/-- So a corrupted line is still one line. -/
theorem Corrupted.newline_notMem (h : Corrupted hashDna status hashDna' status')
    (hplain : Plain hashDna status) :
    newline ∉ corruptedLine hashDna status hashDna' status' := by
  have hplain' := h.plain hplain
  have hbar : newline ≠ bar := by decide
  simp only [corruptedLine, rawRecord, List.mem_append, List.mem_cons, not_or]
  exact ⟨⟨hplain'.dnaLine, hbar, hplain'.statLine⟩, hbar, newline_notMem_checksumText _⟩

/-- The record as a whole has one byte replaced. -/
theorem Corrupted.checksumText_ne (h : Corrupted hashDna status hashDna' status') :
    checksumText (rawRecord hashDna' status') ≠ checksumText (rawRecord hashDna status) := by
  cases h with
  | hashDna i hi b hb hbar hline =>
    have hset : rawRecord (hashDna.set i b) status = (rawRecord hashDna status).set i b := by
      rw [rawRecord, rawRecord, List.set_append_left i b hi]
    have hlen : i < (rawRecord hashDna status).length := by
      rw [rawRecord, List.length_append]
      omega
    rw [hset]
    refine checksumText_set_ne hlen ?_
    have hget : (rawRecord hashDna status)[i] = hashDna[i] := List.getElem_append_left hi
    rw [hget]
    exact hb
  | status i hi b hb hbar hline =>
    -- the status stands behind the first field and the bar
    have hraw : ∀ s : Text, rawRecord hashDna s = (hashDna ++ [bar]) ++ s := by
      intro s
      rw [rawRecord, List.append_assoc]
      rfl
    have hset : rawRecord hashDna (status.set i b) =
        (rawRecord hashDna status).set ((hashDna ++ [bar]).length + i) b := by
      rw [hraw, hraw, List.set_append_right _ _ (by omega)]
      congr 2
      omega
    have hlen : (hashDna ++ [bar]).length + i < (rawRecord hashDna status).length := by
      have hall : ((hashDna ++ [bar]) ++ status).length =
          (hashDna ++ [bar]).length + status.length := List.length_append
      rw [hraw, hall]
      omega
    rw [hset]
    refine checksumText_set_ne hlen ?_
    have hget : (rawRecord hashDna status)[(hashDna ++ [bar]).length + i] = status[i] := by
      simp only [hraw]
      rw [List.getElem_append_right (by omega)]
      congr 1
      omega
    rw [hget]
    exact hb

/-- **A corrupted line has no key.** -/
theorem recordKey_corrupted (h : Corrupted hashDna status hashDna' status')
    (hplain : Plain hashDna status) :
    recordKey (corruptedLine hashDna status hashDna' status') = none := by
  have hplain' := h.plain hplain
  have hline := h.newline_notMem hplain
  rw [Option.eq_none_iff_forall_ne_some]
  intro key hkey
  obtain ⟨s, hkeyBar, hsBar, heq⟩ := (recordKey_eq_some_iff hline).mp hkey
  -- the line is cut where the fields were cut, and the checksum is the old one
  rw [corruptedLine, recordLine, append_sep_inj_last (bar_notMem_checksumText _)
    (bar_notMem_checksumText _), rawRecord_inj hplain'.dnaBar hkeyBar] at heq
  obtain ⟨⟨rfl, rfl⟩, hsum⟩ := heq
  exact h.checksumText_ne hsum.symm

/-- **Every single-byte corruption is detected**: a ledger with a corrupted record in it loads
what stands in front of that line and what stands behind it, and nothing from the line. -/
theorem loadLedger_corrupted (h : Corrupted hashDna status hashDna' status')
    (hplain : Plain hashDna status) {before : Text} (hbefore : lastLine newline before = [])
    (after : Text) :
    loadLedger (some (before ++
        (corruptedLine hashDna status hashDna' status' ++ newline :: after))) =
      loadLedger (some before) ∪ loadLedger (some after) := by
  have hline := h.newline_notMem hplain
  have hkeys : keys newline recordKey (before ++
      (corruptedLine hashDna status hashDna' status' ++ newline :: after)) =
      keys newline recordKey before ++ keys newline recordKey after := by
    rw [keys_append_of_closed hbefore]
    congr 1
    rw [keys, lines_append_sep hline, List.filterMap_cons, recordKey_corrupted h hplain]
    rfl
  ext key
  rw [Finset.mem_union, mem_loadLedger, mem_loadLedger, mem_loadLedger]
  simp only [Option.getD_some]
  rw [hkeys, List.mem_append]

/-- The record `ab|ok` with its first byte replaced by `x`, between two lines that stay. -/
theorem loadLedger_corrupted_record :
    loadLedger (some (recordEntry (ascii "m0") (ascii "ok") ++
        (corruptedLine (ascii "ab") (ascii "ok") (ascii "xb") (ascii "ok") ++ newline ::
          recordEntry (ascii "m1") (ascii "ok")))) =
      loadLedger (some (recordEntry (ascii "m0") (ascii "ok"))) ∪
        loadLedger (some (recordEntry (ascii "m1") (ascii "ok"))) := by
  have hcorrupt : Corrupted (ascii "ab") (ascii "ok") (ascii "xb") (ascii "ok") :=
    .hashDna 0 (by decide) (asciiByte 'x') (by decide) (by decide) (by decide)
  exact loadLedger_corrupted hcorrupt ⟨by decide, by decide, by decide, by decide⟩
    (lastLine_append_sep _) _

end Swayam.Moltbook
