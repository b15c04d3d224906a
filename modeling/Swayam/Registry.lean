import Swayam.Lib.Search
import Swayam.Text

/-!
# SWAYAM — `QuarantineRegistry`

The workspace ledger `.swayam_quarantine.ledger`. A ban appends

    <std::hash of the source> | EXIT_CODE: <code>

and the ban check reads the whole ledger in chunks and searches it for the
decimal hash of the source followed by ` |`. `std::hash` is an arbitrary
function `stdHash` to 64-bit values.

* `readLedger_chunks` — however the reads split the ledger, the check searches
  the whole of it;
* `isBanned_iff` — the check answers whether the decimal hash of some banned
  source *ends in* the decimal hash of the source;
* `isBanned_exact_iff` — so it answers exactly unless a banned source's decimal
  hash ends in it and none equals it.
-/

namespace Swayam

/-- `std::hash<std::string>` of the standard library in use. -/
abbrev StdHash := Text → UInt64

/-! ## Reading the ledger -/

/-- The results of one ban check's system calls: `open` (`none` when it fails),
`flock`, and the `read` calls, of which `none` is an error and `[]` the end. -/
structure LedgerIO where
  opens : Bool
  flock : Bool
  reads : List (Option Text)
  deriving DecidableEq, Repr

/-- `while ((bytes_read = read(fd, buffer, sizeof(buffer))) > 0) append` -/
def readLedger : List (Option Text) → Text
  | some (b :: bs) :: rest => (b :: bs) ++ readLedger rest
  | _ => []

/-- `hash_str + " |"` -/
def searchTarget (hash : UInt64) : Text := decimal hash.toNat ++ ascii " |"

/-- `QuarantineRegistry::is_banned` -/
def isBanned (stdHash : StdHash) (io : LedgerIO) (sourceCode : Text) : Bool :=
  if io.opens = false then false
  else if io.flock = false then true
  else decide (searchTarget (stdHash sourceCode) <:+: readLedger io.reads)

/-- The entry that `ban_mutation` writes. -/
def banEntry (hash : UInt64) (exitCode : Int) : Text :=
  decimal hash.toNat ++ ascii " | EXIT_CODE: " ++ decimalInt exitCode ++ [newline]

/-- An entry starts with what the check searches for. -/
theorem searchTarget_prefix_banEntry (hash : UInt64) (exitCode : Int) :
    searchTarget hash <+: banEntry hash exitCode :=
  ⟨ascii " EXIT_CODE: " ++ decimalInt exitCode ++ [newline],
    by simp [searchTarget, banEntry, ascii]⟩

/-- `QuarantineRegistry::ban_mutation`, with a complete write: the ledger is created
when it is absent and the entry appended. -/
def banMutation (stdHash : StdHash) (sourceCode : Text) (exitCode : Int)
    (ledger : Option Text) : Option Text :=
  some (ledger.getD [] ++ banEntry (stdHash sourceCode) exitCode)

/-- The results of the system calls of one append to a workspace ledger: `open`, `flock`,
and the bytes that the write moves (`none` for all of them). -/
structure LedgerWriteIO where
  opens : Bool
  flock : Bool
  write : Option Nat
  deriving DecidableEq, Repr

def LedgerWriteIO.clean : LedgerWriteIO := ⟨true, true, none⟩

/-- An append to a ledger under any outcome of its system calls. A ledger that opens is
created before it is locked. -/
def appendToLedger (io : LedgerWriteIO) (entry : Text) (ledger : Option Text) : Option Text :=
  if io.opens = false then ledger
  else if io.flock = false then some (ledger.getD [])
  else some (ledger.getD [] ++ match io.write with
    | some n => entry.take n
    | none => entry)

/-- An append keeps the ledger, whichever of its system calls fail. -/
theorem prefix_appendToLedger (io : LedgerWriteIO) (entry : Text) (ledger : Option Text) :
    ledger.getD [] <+: (appendToLedger io entry ledger).getD [] := by
  unfold appendToLedger
  split
  · exact List.prefix_refl _
  · split
    · exact List.prefix_refl _
    · exact List.prefix_append ..

/-- `ban_mutation` under any outcome of its system calls. -/
def banMutationIO (stdHash : StdHash) (io : LedgerWriteIO) (sourceCode : Text) (exitCode : Int)
    (ledger : Option Text) : Option Text :=
  appendToLedger io (banEntry (stdHash sourceCode) exitCode) ledger

/-- The ledger after a sequence of bans, from an absent one. -/
def banAll (stdHash : StdHash) (bans : List (Text × Int)) : Option Text :=
  bans.foldl (fun ledger ban => banMutation stdHash ban.1 ban.2 ledger) none

/-- The read calls that deliver a whole file: chunks of 1 to 4096 bytes, then 0. -/
inductive ReadsOf : Text → List (Option Text) → Prop
  | eof (rest : List (Option Text)) : ReadsOf [] (some [] :: rest)
  | chunk (c content : Text) (rest : List (Option Text)) :
      c ≠ [] → c.length ≤ 4096 → ReadsOf content rest → ReadsOf (c ++ content) (some c :: rest)

/-- The system calls of a ban check in which nothing fails: an absent ledger does not
open, and the ledger is read to its end. -/
structure LedgerIO.Clean (io : LedgerIO) (ledger : Option Text) : Prop where
  opens : io.opens = ledger.isSome
  flock : io.flock = true
  reads : ∀ content, ledger = some content → ReadsOf content io.reads

/-- Any file can be read without failures: a byte at a time, say. -/
theorem exists_readsOf (content : Text) : ∃ reads, ReadsOf content reads := by
  induction content with
  | nil => exact ⟨[some []], .eof []⟩
  | cons b content ih =>
    obtain ⟨reads, hreads⟩ := ih
    exact ⟨some [b] :: reads, .chunk [b] content reads (by simp) (by simp) hreads⟩

/-- So some ban check of it succeeds. -/
theorem exists_clean (ledger : Option Text) : ∃ io : LedgerIO, io.Clean ledger := by
  obtain ⟨reads, hreads⟩ := exists_readsOf (ledger.getD [])
  refine ⟨⟨ledger.isSome, true, reads⟩, rfl, rfl, ?_⟩
  rintro content rfl
  exact hreads

/-! ## What is searched -/

/-- **The chunks are put together again**, wherever the reads split the ledger. -/
theorem readLedger_chunks {content : Text} {reads : List (Option Text)}
    (h : ReadsOf content reads) : readLedger reads = content := by
  induction h with
  | eof rest => rfl
  | chunk c content rest hne _ _ ih =>
    cases c with
    | nil => exact absurd rfl hne
    | cons b bs => rw [readLedger, ih]

/-- With no I/O failure the check is a search of the target. -/
theorem isBanned_clean {stdHash : StdHash} {io : LedgerIO} {ledger : Option Text}
    (hio : io.Clean ledger) (sourceCode : Text) :
    isBanned stdHash io sourceCode = true ↔
      searchTarget (stdHash sourceCode) <:+: ledger.getD [] := by
  unfold isBanned
  rw [hio.opens, hio.flock]
  cases ledger with
  | none =>
    simp [searchTarget, decimal_ne_nil]
  | some content =>
    -- the whole ledger has been read
    rw [readLedger_chunks (hio.reads content rfl)]
    simp

/-- The ledger is the concatenation of the entries, in the order of the bans. -/
theorem banAll_getD (stdHash : StdHash) (bans : List (Text × Int)) :
    (banAll stdHash bans).getD [] =
      bans.flatMap fun ban => banEntry (stdHash ban.1) ban.2 := by
  have hfold : ∀ (bans : List (Text × Int)) (ledger : Option Text),
      (bans.foldl (fun ledger ban => banMutation stdHash ban.1 ban.2 ledger) ledger).getD [] =
        ledger.getD [] ++ bans.flatMap fun ban => banEntry (stdHash ban.1) ban.2 := by
    intro bans
    induction bans with
    | nil => simp
    | cons ban bans ih =>
      intro ledger
      rw [List.foldl_cons, ih]
      simp [banMutation]
  rw [banAll, hfold]
  rfl

/-! ## What the search finds -/

/-- The bar of ` |`, the mark that ends every hash of the ledger. -/
private def bar : Byte := asciiByte '|'

/-- One entry in front of a ledger: the search target occurs at its own bar, as a
suffix of its hash, or behind it. -/
private theorem searchTarget_infix_entry (k h : UInt64) (exitCode : Int) (rest : Text) :
    searchTarget k <:+: banEntry h exitCode ++ rest ↔
      decimal k.toNat <:+ decimal h.toNat ∨ searchTarget k <:+: rest := by
  have hbar : isDigit bar = false := rfl
  have hsep : bar ∉ ascii " " := by decide
  have hq : ∀ n, bar ∉ decimal n ++ ascii " " := fun n => by
    rw [List.mem_append, not_or]
    exact ⟨notMem_decimal hbar n, hsep⟩
  have hnl : newline ∉ decimal k.toNat ++ ascii " " := by
    rw [List.mem_append, not_or]
    exact ⟨notMem_decimal rfl _, by decide⟩
  have hcode : bar ∉ ascii " EXIT_CODE: " ++ decimalInt exitCode := by
    rw [List.mem_append, not_or]
    exact ⟨by decide, notMem_decimalInt hbar (by decide) exitCode⟩
  have htarget : searchTarget k = (decimal k.toNat ++ ascii " ") ++ [bar] := by
    rw [searchTarget, List.append_assoc]
    rfl
  have hentry : banEntry h exitCode ++ rest = (decimal h.toNat ++ ascii " ") ++
      bar :: ((ascii " EXIT_CODE: " ++ decimalInt exitCode) ++ newline :: rest) := by
    have hmid : ascii " | EXIT_CODE: " = ascii " " ++ bar :: ascii " EXIT_CODE: " := rfl
    rw [banEntry, hmid]
    simp
  -- at the bar of this entry, or behind the newline that ends it
  rw [htarget, hentry, Search.infix_mark_iff (hq _) (hq _),
    Search.infix_skip_iff hnl (by decide) hcode, Search.append_suffix_append_iff]

/-- **The search is a suffix test**: over a whole ledger, the check asks whether some
entry's decimal hash ends in the decimal hash of the source. -/
theorem searchTarget_infix_banAll (stdHash : StdHash) (bans : List (Text × Int)) (k : UInt64) :
    searchTarget k <:+: (banAll stdHash bans).getD [] ↔
      ∃ ban ∈ bans, decimal k.toNat <:+ decimal (stdHash ban.1).toNat := by
  rw [banAll_getD]
  induction bans with
  | nil =>
    have hne : searchTarget k ≠ [] := by simp [searchTarget, decimal_ne_nil]
    simp [hne]
  | cons ban bans ih =>
    rw [List.flatMap_cons, searchTarget_infix_entry, ih]
    simp

/-! ## When the check is exact -/

/-- So it asks for a banned hash that ends in the one asked for. -/
theorem isBanned_iff {stdHash : StdHash} {bans : List (Text × Int)} {io : LedgerIO}
    (hio : io.Clean (banAll stdHash bans)) (sourceCode : Text) :
    isBanned stdHash io sourceCode = true ↔
      ∃ ban ∈ bans, decimal (stdHash sourceCode).toNat <:+ decimal (stdHash ban.1).toNat := by
  rw [isBanned_clean hio, searchTarget_infix_banAll]

/-- **The ledger answers exactly, when it does.** After any sequence of bans on an
absent ledger, the check of a source agrees with "some banned source has this
hash" if and only if one has it, or none has a decimal hash that ends in it. -/
theorem isBanned_exact_iff (stdHash : StdHash) (bans : List (Text × Int)) (io : LedgerIO)
    (hio : io.Clean (banAll stdHash bans)) (sourceCode : Text) :
    (isBanned stdHash io sourceCode = true ↔
        ∃ ban ∈ bans, stdHash ban.1 = stdHash sourceCode) ↔
      ((∃ ban ∈ bans, stdHash ban.1 = stdHash sourceCode) ∨
        ∀ ban ∈ bans, ¬ decimal (stdHash sourceCode).toNat <:+ decimal (stdHash ban.1).toNat) := by
  rw [isBanned_iff hio]
  have hequal : (∃ ban ∈ bans, stdHash ban.1 = stdHash sourceCode) →
      ∃ ban ∈ bans, decimal (stdHash sourceCode).toNat <:+ decimal (stdHash ban.1).toNat := by
    rintro ⟨ban, hban, heq⟩
    exact ⟨ban, hban, by rw [heq]⟩
  constructor
  · intro h
    by_cases hex : ∃ ban ∈ bans, stdHash ban.1 = stdHash sourceCode
    · exact Or.inl hex
    · right
      intro ban hban hsuffix
      exact hex (h.mp ⟨ban, hban, hsuffix⟩)
  · rintro (hex | hnone)
    · exact ⟨fun _ => hex, fun _ => hequal hex⟩
    · constructor
      · rintro ⟨ban, hban, hsuffix⟩
        exact absurd hsuffix (hnone ban hban)
      · exact hequal

/-- Two hash values, of which one's digits end in the other's. -/
def suffixHash : StdHash := fun t => if t = ascii "bad" then 123 else 23

/-- One ban of `bad`, read back in two chunks. -/
private theorem suffixHash_clean :
    LedgerIO.Clean ⟨true, true, [some (ascii "12"), some (ascii "3 | EXIT_CODE: 1\n"), some []]⟩
      (banAll suffixHash [(ascii "bad", 1)]) := by
  refine ⟨rfl, rfl, ?_⟩
  intro content h
  have hcontent : content = ascii "12" ++ (ascii "3 | EXIT_CODE: 1\n" ++ []) :=
    (Option.some.inj h).symm.trans (by decide)
  rw [hcontent]
  exact .chunk _ _ _ (by decide) (by decide) (.chunk _ _ _ (by decide) (by decide) (.eof _))

/-- On one ban. -/
theorem isBanned_exact_iff_bad :
    isBanned suffixHash
        ⟨true, true, [some (ascii "12"), some (ascii "3 | EXIT_CODE: 1\n"), some []]⟩
        (ascii "bad") = true ↔
      ∃ ban ∈ [(ascii "bad", (1 : Int))], suffixHash ban.1 = suffixHash (ascii "bad") :=
  (isBanned_exact_iff suffixHash [(ascii "bad", 1)] _ suffixHash_clean (ascii "bad")).mpr
    (Or.inl ⟨_, List.mem_singleton_self _, rfl⟩)

/-- **A substring collision**: with 123 banned, a source that hashes to 23 is reported
banned. -/
theorem isBanned_fails_on_suffix :
    LedgerIO.Clean ⟨true, true, [some (ascii "12"), some (ascii "3 | EXIT_CODE: 1\n"), some []]⟩
      (banAll suffixHash [(ascii "bad", 1)]) ∧
    ¬ (isBanned suffixHash
        ⟨true, true, [some (ascii "12"), some (ascii "3 | EXIT_CODE: 1\n"), some []]⟩
        (ascii "new") = true ↔
      ∃ ban ∈ [(ascii "bad", (1 : Int))], suffixHash ban.1 = suffixHash (ascii "new")) := by
  refine ⟨suffixHash_clean, fun h => ?_⟩
  obtain ⟨ban, hban, heq⟩ := h.mp (by decide)
  rw [List.mem_singleton] at hban
  subst hban
  exact absurd heq (by decide)

end Swayam
