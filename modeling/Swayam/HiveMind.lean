import Swayam.Core.Log
import Swayam.Pipeline.Supervisor

/-!
# SWAYAM — `HiveMind`

The workspace ledger `.swayam_hive.ledger`, one registered hash a line. A query
reads the whole ledger and searches it for the hash with its newline.

* `isAssimilated_iff` — the query answers whether some registered hash *ends in* the
  queried one;
* `isAssimilated_exact_iff` — so it answers exactly unless a registered hash ends in
  the query and none equals it;
* `hive_registerMutationHash` — what a cycle registers is registered here.

A query here has read all of the ledger; `Ledger` cuts it into its system calls.
-/

namespace Swayam.HiveMind

/-- `hash_str + "\n"` -/
def hiveLine (hashStr : Text) : Text := hashStr ++ [newline]

/-- `HiveMind::is_assimilated` -/
def isAssimilated (io : LedgerIO) (hashStr : Text) : Bool :=
  if io.opens = false then false
  else if io.flock = false then false
  else decide (hiveLine hashStr <:+: readLedger io.reads)

/-- `HiveMind::register_mutation_hash` -/
def registerMutationHash (io : LedgerWriteIO) (hashStr : Text) (hive : Option Text) :
    Option Text :=
  appendToLedger io (hiveLine hashStr) hive

/-- The ledger after a sequence of registrations with complete writes, from an absent one. -/
def registerAll (hashes : List Text) : Option Text :=
  hashes.foldl (fun hive hashStr => registerMutationHash .clean hashStr hive) none

/-- The registration of a cycle is this one. -/
theorem hive_registerMutationHash {env : Pipeline.CycleEnv} {io : LedgerWriteIO}
    (hio : env.hiveCall = .ok io) (hashStr : Text) (w : Pipeline.World) :
    (Stages.endState (Pipeline.registerMutationHash env hashStr w)).hive =
      registerMutationHash io hashStr w.hive := by
  rw [Pipeline.registerMutationHash, hio]
  rfl

/-! ## What is searched -/

/-- The ledger is its lines, in the order of the registrations. -/
theorem registerAll_getD (hashes : List Text) :
    (registerAll hashes).getD [] = hashes.flatMap hiveLine := by
  have hfold : ∀ (hashes : List Text) (hive : Option Text),
      (hashes.foldl (fun hive h => registerMutationHash .clean h hive) hive).getD [] =
        hive.getD [] ++ hashes.flatMap hiveLine := by
    intro hashes
    induction hashes with
    | nil =>
      intro hive
      simp
    | cons h hashes ih =>
      intro hive
      have hline : (registerMutationHash .clean h hive).getD [] = hive.getD [] ++ hiveLine h := rfl
      rw [List.foldl_cons, ih, hline, List.flatMap_cons, List.append_assoc]
  exact hfold hashes none

/-- With no I/O failure the query is a search of the line. -/
theorem isAssimilated_clean {io : LedgerIO} {hive : Option Text} (hio : io.Clean hive)
    (hashStr : Text) : isAssimilated io hashStr = true ↔ hiveLine hashStr <:+: hive.getD [] := by
  unfold isAssimilated
  rw [hio.opens, hio.flock]
  cases hive with
  | none =>
    simp [hiveLine]
  | some content =>
    -- the chunks are the whole ledger
    rw [readLedger_chunks (hio.reads content rfl)]
    simp

/-! ## What the search finds -/

/-- One line in front of a ledger: the query occurs at its newline, as a suffix of its hash,
or behind it. -/
theorem hiveLine_infix_cons {query hashStr : Text} (hquery : newline ∉ query)
    (hhash : newline ∉ hashStr) (rest : Text) :
    hiveLine query <:+: hiveLine hashStr ++ rest ↔
      query <:+ hashStr ∨ hiveLine query <:+: rest := by
  have hsplit : hiveLine hashStr ++ rest = hashStr ++ newline :: rest := by
    rw [hiveLine, List.append_assoc]
    rfl
  rw [hsplit]
  exact Search.infix_mark_iff hquery hhash

/-- **The search is a suffix test** over the registered hashes. -/
theorem hiveLine_infix_registerAll {hashes : List Text} {query : Text}
    (hhashes : ∀ h ∈ hashes, newline ∉ h) (hquery : newline ∉ query) :
    hiveLine query <:+: (registerAll hashes).getD [] ↔ ∃ h ∈ hashes, query <:+ h := by
  rw [registerAll_getD]
  induction hashes with
  | nil =>
    simp [hiveLine]
  | cons h hashes ih =>
    have hhead : newline ∉ h := hhashes h (List.mem_cons_self ..)
    have htail : ∀ h ∈ hashes, newline ∉ h := fun h hh => hhashes h (List.mem_cons_of_mem _ hh)
    rw [List.flatMap_cons, hiveLine_infix_cons hquery hhead, ih htail]
    simp

/-- So it asks for a registered hash that ends in the one asked for. -/
theorem isAssimilated_iff {hashes : List Text} {query : Text} {io : LedgerIO}
    (hhashes : ∀ h ∈ hashes, IsHash h) (hquery : IsHash query)
    (hio : io.Clean (registerAll hashes)) :
    isAssimilated io query = true ↔ ∃ h ∈ hashes, query <:+ h := by
  rw [isAssimilated_clean hio]
  exact hiveLine_infix_registerAll (fun h hh => (hhashes h hh).notMem rfl) (hquery.notMem rfl)

/-- **The hive answers exactly, when it does.** After any registrations of decimal hashes on an
absent ledger, the query of a decimal hash agrees with "this very hash was registered" if and
only if it was, or no registered hash ends in it. -/
theorem isAssimilated_exact_iff (hashes : List Text) (query : Text) (io : LedgerIO)
    (hhashes : ∀ h ∈ hashes, IsHash h) (hquery : IsHash query)
    (hio : io.Clean (registerAll hashes)) :
    (isAssimilated io query = true ↔ query ∈ hashes) ↔
      (query ∈ hashes ∨ ∀ h ∈ hashes, ¬ query <:+ h) := by
  rw [isAssimilated_iff hhashes hquery hio]
  constructor
  · intro hexact
    by_cases hmem : query ∈ hashes
    · exact Or.inl hmem
    · right
      intro h hh hsuffix
      exact hmem (hexact.mp ⟨h, hh, hsuffix⟩)
  · rintro (hmem | hnone)
    · exact ⟨fun _ => hmem, fun _ => ⟨query, hmem, List.suffix_refl query⟩⟩
    · constructor
      · rintro ⟨h, hh, hsuffix⟩
        exact absurd hsuffix (hnone h hh)
      · exact fun hmem => absurd (List.suffix_refl query) (hnone query hmem)

/-- One registration of 123, read back in one chunk. -/
private theorem registered_clean :
    LedgerIO.Clean ⟨true, true, [some (ascii "123\n"), some []]⟩ (registerAll [ascii "123"]) := by
  refine ⟨rfl, rfl, ?_⟩
  intro content h
  have hcontent : content = ascii "123\n" ++ [] := (Option.some.inj h).symm.trans (by decide)
  rw [hcontent]
  exact .chunk _ _ _ (by decide) (by decide) (.eof _)

/-- On one registered hash. -/
theorem isAssimilated_exact_iff_registered :
    isAssimilated ⟨true, true, [some (ascii "123\n"), some []]⟩ (ascii "123") = true ↔
      ascii "123" ∈ [ascii "123"] :=
  (isAssimilated_exact_iff [ascii "123"] (ascii "123") _
    (fun h hh => by rw [List.mem_singleton.mp hh]; exact ⟨by decide, by decide⟩)
    ⟨by decide, by decide⟩ registered_clean).mpr (Or.inl (List.mem_singleton_self _))

/-- **A phantom**: with 123 registered, 23 is reported assimilated. -/
theorem isAssimilated_fails_on_suffix :
    (∀ h ∈ [ascii "123"], IsHash h) ∧ IsHash (ascii "23") ∧
    LedgerIO.Clean ⟨true, true, [some (ascii "123\n"), some []]⟩ (registerAll [ascii "123"]) ∧
    ¬ (isAssimilated ⟨true, true, [some (ascii "123\n"), some []]⟩ (ascii "23") = true ↔
      ascii "23" ∈ [ascii "123"]) := by
  refine ⟨?_, ⟨by decide, by decide⟩, registered_clean, by decide⟩
  intro h hh
  rw [List.mem_singleton.mp hh]
  exact ⟨by decide, by decide⟩

end Swayam.HiveMind
