import Swayam.Core.Peers
import Swayam.Core.History

/-!
# SWAYAM — syncing with peers

What `merge_all_peer_files` and `export_node_signatures` are for, on whole
directories of peer files:

* `honest_hashes_imported` — within the budgets of the policy, no other file keeps
  an honest one from being imported in full;
* `mergeAll_eq_reference` — file by file the sync is its reference; no hash is
  imported twice, a second sync imports nothing, and the order of the directory
  does not matter, as long as no limit binds;
* `exported_hashes_imported` — what one node exports another imports, when its
  lines, with the header, are within the limit of the file.
-/

namespace Swayam

open Delimited Fresh

/-! ## Flooding peers -/

/-- The picked entries of a directory. -/
def picked (entries : List PeerFile) : List PeerFile :=
  entries.filter fun file => isPeerFile file.name

/-- Of one more file, it is picked if its name is a peer's. -/
theorem picked_concat (a : List PeerFile) (file : PeerFile) :
    picked (a ++ [file]) = if isPeerFile file.name then picked a ++ [file] else picked a := by
  rw [picked, List.filter_append]
  cases h : isPeerFile file.name with
  | true =>
    rw [List.filter_cons_of_pos (by exact h), if_pos rfl]
    rfl
  | false =>
    rw [List.filter_cons_of_neg (by simp [h]), if_neg (by simp)]
    exact List.append_nil _

/-- **The session counter is bounded by the files so far**: each picked entry raises it by at
most the budget of a peer. -/
theorem sessionImported_le (policy : PeerImportPolicy) (files : LogFiles)
    (entries : List PeerFile) :
    (mergeAllPeerFiles policy files entries).sessionImported ≤
      (picked entries).length * policy.maxImportsPerPeer := by
  -- by induction on the entries, from the right
  refine mergeAll_induction (P := fun a s =>
    s.sessionImported ≤ (picked a).length * policy.maxImportsPerPeer) ?_ ?_ entries
  · exact Nat.zero_le _
  · intro a file ih
    rw [visit_sessionImported, picked_concat]
    have hlen := (length_imports_le policy (mergeAllPeerFiles policy files a) file).1
    cases hname : isPeerFile file.name with
    | true =>
      rw [if_pos rfl, List.length_append, List.length_singleton, Nat.add_mul, Nat.one_mul]
      omega
    | false =>
      -- an entry that is not picked imports nothing
      have hnone : (mergeAllPeerFiles policy files a).imports policy file = [] := by
        rw [Sync.imports, if_pos hname]
      rw [hnone, if_neg (by simp)]
      exact ih

/-- A log of whole lines stays one. -/
theorem mergeAll_closed {policy : PeerImportPolicy} {files : LogFiles} (entries : List PeerFile)
    (hclosed : lastLine newline (files.log.getD []) = []) :
    lastLine newline (mergeAllPeerFiles policy files entries).log = [] :=
  mergeAll_induction (P := fun _ s => lastLine newline s.log = []) hclosed
    (fun _ _ ih => visit_closed ih) entries

/-- The records of the log stay in it. -/
theorem hashFields_subset_foldl (policy : PeerImportPolicy) (s : Sync) (entries : List PeerFile) :
    hashFields s.log ⊆ hashFields (entries.foldl (Sync.visit policy) s).log := by
  induction entries generalizing s with
  | nil => exact List.Subset.refl _
  | cons file entries ih =>
    refine List.Subset.trans ?_ (ih (s.visit policy file))
    rw [visit_log]
    exact hashFields_subset_append _ _

/-- The hashes that a merge imports are in the log behind it, when the log was closed. -/
theorem imports_subset_log (call : MergeCall) (files : LogFiles)
    (hclosed : lastLine newline (files.log.getD []) = []) {hashes : List Text}
    (himports : (mergePeerSignaturesGuarded call files).1 = hashes)
    (hvalid : ∀ hash ∈ hashes, IsHash hash) :
    hashes ⊆ hashFields ((mergePeerSignaturesGuarded call files).2.log.getD []) := by
  intro hash hmem
  rw [merge_log, himports, hashFields, keys_append_of_closed hclosed]
  exact List.mem_append_right _ (subset_hashFields_output call hvalid hmem)

/-- **A file within every limit is imported in full**: its valid hashes are in the log behind
it, imported or known before. -/
theorem validHashes_subset_merge (call : MergeCall) (files : LogFiles) {content : Text}
    (hclosed : lastLine newline (files.log.getD []) = []) (hopens : call.outOpens = true)
    (hcontent : call.peerFile = some content)
    (hlines : (lines newline content).length ≤ call.policy.maxHashesPerFile)
    (hpeer : (validHashes content).eraseDups.length ≤ call.policy.maxImportsPerPeer)
    (hsession : (validHashes content).eraseDups.length ≤
      call.policy.maxImportsPerSession - call.sessionImported) :
    validHashes content ⊆
      hashFields ((mergePeerSignaturesGuarded call files).2.log.getD []) := by
  have himports := merge_eq_reference call files hcontent hopens
  have hvalid := (referenceImports_spec call.policy call.sessionImported (files.log.getD [])
    content).2
  intro hash hmem
  by_cases hold : hash ∈ hashFields (files.log.getD [])
  · exact hashFields_subset_merge call files hold
  · -- a new hash: the budgets cover all of them
    refine imports_subset_log call files hclosed himports hvalid ?_
    have hlen : (newHashes (files.log.getD []) content).length ≤
        (validHashes content).eraseDups.length := length_fresh_le _ _
    rw [referenceImports, importCount, if_neg (by omega), List.take_of_length_le (by omega)]
    exact mem_fresh.mpr ⟨hmem, hold⟩

/-- **A flooding peer cannot starve an honest one.** With the budgets of the picked files
within that of the session, whatever the other files hold and wherever the honest one
stands: each of its valid hashes is in the log behind the sync. -/
theorem honest_hashes_imported (policy : PeerImportPolicy) (files : LogFiles)
    (entries : List PeerFile) (honest : PeerFile) (content : Text)
    (hclosed : lastLine newline (files.log.getD []) = [])
    (hwritable : ∀ file ∈ entries, file.outOpens = true)
    (hbudget : (picked entries).length * policy.maxImportsPerPeer ≤ policy.maxImportsPerSession)
    (hmem : honest ∈ picked entries) (hcontent : honest.content = some content)
    (hlines : (lines newline content).length ≤ policy.maxHashesPerFile)
    (hdistinct : (validHashes content).eraseDups.length ≤ policy.maxImportsPerPeer) :
    validHashes content ⊆ hashFields (mergeAllPeerFiles policy files entries).log := by
  obtain ⟨hentry, hname⟩ := List.mem_filter.mp hmem
  obtain ⟨a, b, rfl⟩ := List.append_of_mem hentry
  -- the files in front leave the honest one its budget
  have hsession := sessionImported_le policy files a
  have hpicked : (picked a).length + 1 ≤ (picked (a ++ honest :: b)).length := by
    rw [picked, picked, List.filter_append, List.filter_cons_of_pos (by exact hname),
      List.length_append,
      List.length_cons]
    omega
  have hleft : (picked a).length * policy.maxImportsPerPeer + policy.maxImportsPerPeer ≤
      policy.maxImportsPerSession := by
    have hmul := Nat.mul_le_mul_right policy.maxImportsPerPeer hpicked
    rw [Nat.add_mul, Nat.one_mul] at hmul
    omega
  have hvisit : validHashes content ⊆
      hashFields ((mergeAllPeerFiles policy files a).visit policy honest).log := by
    have hfits : (validHashes content).eraseDups.length ≤ policy.maxImportsPerSession -
        (mergeAllPeerFiles policy files a).sessionImported := by omega
    have hmerge := validHashes_subset_merge
      (honest.call policy (mergeAllPeerFiles policy files a).sessionImported)
      (mergeAllPeerFiles policy files a).files (mergeAll_closed a hclosed)
      (hwritable honest hentry) hcontent hlines hdistinct hfits
    rw [Sync.visit, if_neg (by simp [hname])]
    exact hmerge
  -- the files behind it take nothing away
  rw [mergeAll_append]
  exact List.Subset.trans hvisit (hashFields_subset_foldl policy _ b)

/-- A flood in front of two honest hashes. -/
def flooded : List PeerFile :=
  [{ name := ascii "peer_a.csv", content := some (ascii "1,\n2,\n3,\n4,\n"), now := 5 },
   { name := ascii "peer_b.csv", content := some (ascii "#v\n8,11,0,m\n9,11,0,m\n"), now := 6 }]

/-- A peer that floods its own file takes nothing from the others. -/
theorem honest_hashes_imported_flooded :
    validHashes (ascii "#v\n8,11,0,m\n9,11,0,m\n") ⊆ hashFields (mergeAllPeerFiles
      { maxHashesPerFile := 4, maxImportsPerSession := 4, maxImportsPerPeer := 2 } noLog
      flooded).log :=
  honest_hashes_imported _ noLog flooded _ (ascii "#v\n8,11,0,m\n9,11,0,m\n") (by decide)
    (by decide) (by decide) (List.mem_of_getElem? (i := 1) rfl) rfl (by decide) (by decide)

/-! ## The sync and its reference -/

/-- What the reference makes of one file: as many records as `importCount` says, for the first
of the new valid hashes, behind the records of the log. -/
def MatchesReference (policy : PeerImportPolicy) (s s' : Sync) (file : PeerFile)
    (content : Text) : Prop :=
  lines newline s'.log = lines newline s.log ++
      ((newHashes s.log content).take (importCount policy s.sessionImported s.log content)).map
        (peerLine file.now file.path) ∧
    s'.sessionImported = s.sessionImported + importCount policy s.sessionImported s.log content ∧
    s'.sessionImported ≤ policy.maxImportsPerSession

/-- A file that opens, under a path of one line, while the log opens for appending. -/
def Readable (file : PeerFile) : Prop :=
  file.content.isSome = true ∧ file.outOpens = true ∧ newline ∉ file.path

instance (file : PeerFile) : Decidable (Readable file) := inferInstanceAs (Decidable (_ ∧ _ ∧ _))

/-- No limit cuts a picked file short. -/
def NoLimitBinds (policy : PeerImportPolicy) (files : LogFiles) (entries : List PeerFile) : Prop :=
  ∀ a file b content, entries = a ++ file :: b → isPeerFile file.name = true →
    file.content = some content →
    (lines newline content).length ≤ policy.maxHashesPerFile ∧
    (newHashes (mergeAllPeerFiles policy files a).log content).length ≤
      policy.maxImportsPerPeer ∧
    (newHashes (mergeAllPeerFiles policy files a).log content).length ≤
      policy.maxImportsPerSession - (mergeAllPeerFiles policy files a).sessionImported

/-- Some picked file has this valid hash. -/
def Offered (entries : List PeerFile) (hash : Text) : Prop :=
  ∃ file ∈ picked entries, ∃ content, file.content = some content ∧ hash ∈ validHashes content

section Reference

variable {policy : PeerImportPolicy} {files : LogFiles} {entries : List PeerFile}

/-- The session's count stays within its limit. -/
theorem sessionImported_le_session (policy : PeerImportPolicy) (files : LogFiles)
    (entries : List PeerFile) :
    (mergeAllPeerFiles policy files entries).sessionImported ≤ policy.maxImportsPerSession := by
  refine mergeAll_induction (P := fun _ s => s.sessionImported ≤ policy.maxImportsPerSession)
    (Nat.zero_le _) (fun a file ih => ?_) entries
  have hleft := (length_imports_le policy (mergeAllPeerFiles policy files a) file).2
  rw [visit_sessionImported]
  omega

/-- **One file is its reference**, whatever was merged before. -/
theorem visit_matchesReference {s : Sync} {file : PeerFile} {content : Text}
    (hclosed : lastLine newline s.log = [])
    (hsession : s.sessionImported ≤ policy.maxImportsPerSession)
    (hname : isPeerFile file.name = true) (hreadable : Readable file)
    (hcontent : file.content = some content) :
    MatchesReference policy s (s.visit policy file) file content := by
  obtain ⟨-, hopens, hpath⟩ := hreadable
  have himports : s.imports policy file =
      referenceImports policy s.sessionImported s.log content := imports_eq hname hcontent hopens
  have hlength := (referenceImports_spec policy s.sessionImported s.log content).1
  have hleft := (length_imports_le policy s file).2
  rw [himports, hlength] at hleft
  refine ⟨?_, ?_, ?_⟩
  · rw [visit_lines hclosed hpath, himports]
    rfl
  · rw [visit_sessionImported, himports, hlength]
  · rw [visit_sessionImported, himports, hlength]
    omega

/-- **No hash is imported twice**: the log absorbs as many hashes as the counter says. -/
theorem mergeAll_absorbs (hclosed : lastLine newline (files.log.getD []) = [])
    (hreadable : ∀ file ∈ entries, Readable file) :
    ∃ imported, Absorbs (hashFields (files.log.getD [])) imported
        (hashFields (mergeAllPeerFiles policy files entries).log) ∧
      imported.length = (mergeAllPeerFiles policy files entries).sessionImported := by
  refine mergeAll_induction (P := fun a s => (∀ file ∈ a, Readable file) →
    ∃ imported, Absorbs (hashFields (files.log.getD [])) imported (hashFields s.log) ∧
      imported.length = s.sessionImported) ?_ ?_ entries hreadable
  · exact fun _ => ⟨[], Absorbs.refl _, rfl⟩
  · intro a file ih hreadable
    obtain ⟨imported, habsorbs, hlength⟩ := ih fun f hf =>
      hreadable f (List.mem_append_left _ hf)
    have hpath : newline ∉ file.path := (hreadable file (by simp)).2.2
    -- what this file adds is new against everything before it
    refine ⟨imported ++ (mergeAllPeerFiles policy files a).imports policy file,
      habsorbs.trans (visit_absorbs (mergeAll_closed a hclosed) hpath), ?_⟩
    rw [List.length_append, hlength, visit_sessionImported]

/-- If no limit binds in the end, none did before. -/
theorem noLimitBinds_concat {a : List PeerFile} {file : PeerFile}
    (h : NoLimitBinds policy files (a ++ [file])) : NoLimitBinds policy files a := by
  intro a' file' b' content hsplit
  exact h a' file' (b' ++ [file]) content (by simp [hsplit])

/-- **Without a binding limit** the log ends up with its own hashes and all that are offered. -/
theorem mem_hashFields_mergeAll_iff (hclosed : lastLine newline (files.log.getD []) = [])
    (hreadable : ∀ file ∈ entries, Readable file) (hfree : NoLimitBinds policy files entries)
    (hash : Text) :
    hash ∈ hashFields (mergeAllPeerFiles policy files entries).log ↔
      hash ∈ hashFields (files.log.getD []) ∨ Offered entries hash := by
  refine mergeAll_induction (P := fun a s => (∀ file ∈ a, Readable file) →
    NoLimitBinds policy files a →
    (hash ∈ hashFields s.log ↔ hash ∈ hashFields (files.log.getD []) ∨ Offered a hash))
    ?_ ?_ entries hreadable hfree
  · rintro - -
    simp [Offered, picked, Sync.log]
  · intro a file ih hreadable hfree
    have ih := ih (fun f hf => hreadable f (List.mem_append_left _ hf)) (noLimitBinds_concat hfree)
    obtain ⟨hsome, hopens, hpath⟩ := hreadable file (by simp)
    obtain ⟨content, hcontent⟩ := Option.isSome_iff_exists.mp hsome
    rw [(visit_absorbs (mergeAll_closed a hclosed) hpath).eq, List.mem_append]
    cases hname : isPeerFile file.name with
    | false =>
      rw [Sync.imports, if_pos hname, ih]
      simp [Offered, picked_concat, hname]
    | true =>
      have hpicked : picked (a ++ [file]) = picked a ++ [file] := by
        rw [picked_concat, if_pos hname]
      -- the file offers its valid hashes, and imports those that the log does not have
      have hoffered : Offered (a ++ [file]) hash ↔ Offered a hash ∨ hash ∈ validHashes content := by
        simp [Offered, hpicked, or_and_right, exists_or, hcontent]
      obtain ⟨hlines, hpeer, hsession⟩ := hfree a file [] content rfl hname hcontent
      have himports : (mergeAllPeerFiles policy files a).imports policy file =
          newHashes (mergeAllPeerFiles policy files a).log content := by
        rw [imports_eq hname hcontent hopens, referenceImports, importCount, if_neg (by omega),
          List.take_of_length_le (by omega)]
      rw [hoffered, ← or_assoc, ← ih, himports, newHashes, mem_fresh]
      constructor
      · rintro (hold | ⟨hvalid, -⟩)
        · exact Or.inl hold
        · exact Or.inr hvalid
      · rintro (hold | hvalid)
        · exact Or.inl hold
        · exact (em _).imp id fun hnew => ⟨hvalid, hnew⟩

/-- A file whose valid hashes the log has imports nothing. -/
theorem imports_eq_nil {s : Sync} {file : PeerFile}
    (hknown : ∀ content, isPeerFile file.name = true → file.content = some content →
      validHashes content ⊆ hashFields s.log) : s.imports policy file = [] := by
  rcases imports_cases policy s file with h | ⟨content, hname, hcontent, h⟩
  · exact h
  · have hnone : newHashes s.log content = [] :=
      fresh_eq_nil_iff.mpr (hknown content hname hcontent)
    rw [h, referenceImports, hnone, List.take_nil]

/-- **A sync of known hashes imports nothing.** -/
theorem mergeAll_known
    (hknown : ∀ hash, Offered entries hash → hash ∈ hashFields (files.log.getD [])) :
    (mergeAllPeerFiles policy files entries).sessionImported = 0 ∧
      (mergeAllPeerFiles policy files entries).log = files.log.getD [] := by
  refine mergeAll_induction (P := fun a s =>
    (∀ hash, Offered a hash → hash ∈ hashFields (files.log.getD [])) →
    s.sessionImported = 0 ∧ s.log = files.log.getD []) ?_ ?_ entries hknown
  · exact fun _ => ⟨rfl, rfl⟩
  · intro a file ih hknown
    obtain ⟨hsession, hlog⟩ := ih fun hash ⟨f, hf, hoffers⟩ =>
      hknown hash ⟨f, by rw [picked, List.filter_append]; exact List.mem_append_left _ hf, hoffers⟩
    have hnone : (mergeAllPeerFiles policy files a).imports policy file = [] := by
      refine imports_eq_nil fun content hname hcontent hash hmem => ?_
      rw [hlog]
      refine hknown hash ⟨file, ?_, content, hcontent, hmem⟩
      rw [picked_concat, if_pos hname]
      exact List.mem_append_right _ (List.mem_singleton_self file)
    rw [visit_sessionImported, visit_log, hnone, hsession, hlog]
    exact ⟨rfl, List.append_nil _⟩

end Reference

/-- **The sync equals its reference.** For every policy, every log that is absent or closed and
every directory of readable files: file by file, the sync does what the reference says;
no hash is imported twice; merged again, in whatever order and at whatever time, files that
no limit cut short import nothing; and the hashes of the log behind two syncs of one
directory in different orders are the same, when no limit binds in either. -/
theorem mergeAll_eq_reference (policy : PeerImportPolicy) (files : LogFiles)
    (entries : List PeerFile) (hclosed : lastLine newline (files.log.getD []) = [])
    (hreadable : ∀ file ∈ entries, Readable file) :
    (∀ a file b content, entries = a ++ file :: b → isPeerFile file.name = true →
      file.content = some content →
      MatchesReference policy (mergeAllPeerFiles policy files a)
        (mergeAllPeerFiles policy files (a ++ [file])) file content) ∧
    (∃ imported, Absorbs (hashFields (files.log.getD [])) imported
        (hashFields (mergeAllPeerFiles policy files entries).log) ∧
      imported.length = (mergeAllPeerFiles policy files entries).sessionImported) ∧
    (NoLimitBinds policy files entries → ∀ again : List PeerFile,
      (∀ file ∈ again, ∃ old ∈ entries, old.name = file.name ∧ old.content = file.content) →
      let s := mergeAllPeerFiles policy (mergeAllPeerFiles policy files entries).files again
      s.sessionImported = 0 ∧ s.log = (mergeAllPeerFiles policy files entries).log) ∧
    (∀ entries', entries.Perm entries' → NoLimitBinds policy files entries →
      NoLimitBinds policy files entries' → ∀ hash,
      (hash ∈ hashFields (mergeAllPeerFiles policy files entries).log ↔
        hash ∈ hashFields (mergeAllPeerFiles policy files entries').log)) := by
  refine ⟨?_, mergeAll_absorbs hclosed hreadable, ?_, ?_⟩
  · rintro a file b content rfl hname hcontent
    rw [mergeAll_concat]
    exact visit_matchesReference (mergeAll_closed a hclosed)
      (sessionImported_le_session policy files a) hname (hreadable file (by simp)) hcontent
  · intro hfree again hsame
    refine mergeAll_known fun hash ⟨file, hfile, content, hcontent, hmem⟩ => ?_
    -- the first sync has imported what the file offers
    refine (mem_hashFields_mergeAll_iff hclosed hreadable hfree hash).mpr (Or.inr ?_)
    obtain ⟨hagain, hname⟩ := List.mem_filter.mp hfile
    obtain ⟨old, hold, hnames, hcontents⟩ := hsame file hagain
    refine ⟨old, List.mem_filter.mpr ⟨hold, ?_⟩, content, hcontents.trans hcontent, hmem⟩
    rw [hnames]
    exact hname
  · intro entries' hperm hfree hfree' hash
    have hreadable' : ∀ file ∈ entries', Readable file := fun file hfile =>
      hreadable file (hperm.mem_iff.mpr hfile)
    -- what is offered does not depend on the order
    have hoffered : Offered entries hash ↔ Offered entries' hash := by
      have hmem : ∀ file, file ∈ picked entries ↔ file ∈ picked entries' := fun file =>
        (hperm.filter _).mem_iff
      simp only [Offered, hmem]
    rw [mem_hashFields_mergeAll_iff hclosed hreadable hfree,
      mem_hashFields_mergeAll_iff hclosed hreadable' hfree', hoffered]

/-- The reference on a flooded list. -/
theorem mergeAll_eq_reference_flooded :
    ∃ imported, Absorbs (hashFields (noLog.log.getD [])) imported
        (hashFields (mergeAllPeerFiles {} noLog flooded).log) ∧
      imported.length = (mergeAllPeerFiles {} noLog flooded).sessionImported :=
  (mergeAll_eq_reference {} noLog flooded rfl (by decide)).2.1

/-! ## Export and import -/

/-- The arguments of an `atomic_quarantine_append`. -/
structure AppendCall where
  hash        : UInt64
  signalNum   : Int
  now         : Int
  sourceLabel : Text
  deriving DecidableEq, Repr

/-- The files after a sequence of appends without failures, from no file. -/
def appendAll (appends : List AppendCall) : LogFiles :=
  appends.foldl (fun fs a => atomicQuarantineAppend .clean a.hash a.signalNum a.now a.sourceLabel fs)
    noLog

/-- The import of an exported log, with nothing imported before in the session. -/
def importCall (policy : PeerImportPolicy) (path : Text) (now : Int) (exported : Option Text) :
    MergeCall :=
  { peerCsvPath := path, peerFile := exported, sessionImported := 0, policy, now }

/-- A log of appends: closed, the header and a line for each record, and every hash valid. -/
structure AppendedLog (appends : List AppendCall) (log : Option Text) : Prop where
  closed : lastLine newline (log.getD []) = []
  absent : appends = [] → log = none
  headed : appends ≠ [] → quarantineVersionHeader <+: log.getD []
  lines  : appends ≠ [] → (lines newline (log.getD [])).length = appends.length + 1
  hashes : hashFields (log.getD []) = appends.map fun a => hashText a.hash

/-- `std::to_string` of a 64-bit hash has at most 20 digits. -/
theorem length_hashText_le (hash : UInt64) : (hashText hash).length ≤ 20 := by
  rw [hashText, decimal, List.length_map]
  refine (Nat.length_toDigits_le_iff (by omega) (by omega)).mpr ?_
  have hlt := hash.toNat_lt
  omega

/-- A log with a header starts with it. -/
theorem headed_withHeader (c : Text) : quarantineVersionHeader <+: withHeader c := by
  by_cases h : quarantineVersionHeader <+: c
  · rw [withHeader_of_headed h]
    exact h
  · rw [withHeader_of_not_headed h, headerLine, List.append_assoc]
    exact List.prefix_append ..

/-- **What the writer writes**, by induction on the appends. -/
theorem appendedLog_appendAll (appends : List AppendCall)
    (hlabels : ∀ a ∈ appends, newline ∉ a.sourceLabel) :
    AppendedLog appends (appendAll appends).log := by
  induction appends using List.reverseRecOn with
  | nil => exact ⟨rfl, fun _ => rfl, fun h => absurd rfl h, fun h => absurd rfl h, rfl⟩
  | append_singleton appends a ih =>
    have ih := ih fun b hb => hlabels b (List.mem_append_left _ hb)
    have hlabel : newline ∉ a.sourceLabel := hlabels a (by simp)
    obtain ⟨log, hlog⟩ : ∃ log, log = (appendAll appends).log := ⟨_, rfl⟩
    have hlast : (appendAll (appends ++ [a])).log = some (withHeader (log.getD []) ++
        quarantineEntry a.hash a.signalNum a.now a.sourceLabel) := by
      rw [appendAll, List.foldl_append, hlog]
      exact congrArg LogFiles.log (atomicQuarantineAppend_clean ..)
    rw [← hlog] at ih
    obtain ⟨l, hentry, hl, -, -⟩ := quarantineEntry_eq_line a.hash a.signalNum a.now hlabel
    have hclosed : lastLine newline (withHeader (log.getD [])) = [] := by
      rw [lastLine_withHeader]
      exact ih.closed
    -- the header is a line of its own, and in front of the first record only
    have hlines : (lines newline (withHeader (log.getD []))).length = appends.length + 1 := by
      by_cases hnil : appends = []
      · rw [ih.absent hnil, hnil]
        rfl
      · rw [withHeader_of_headed (ih.headed hnil)]
        exact ih.lines hnil
    rw [hlast]
    refine ⟨?_, fun h => absurd h (by simp), fun _ => ?_, fun _ => ?_, ?_⟩
    · rw [Option.getD_some, lastLine_append, hclosed, List.nil_append, hentry]
      exact lastLine_append_sep l
    · exact (headed_withHeader _).trans (List.prefix_append ..)
    · rw [Option.getD_some, lines_append_of_closed hclosed, List.length_append, hlines, hentry,
        lines_append_sep hl, lines_nil, List.length_append]
      rfl
    · rw [Option.getD_some, hashFields_append_quarantineEntry hclosed _ _ _ hlabel,
        hashFields_withHeader, ih.hashes, List.map_append]
      rfl

/-- Every hash of such a log is valid for the reader. -/
theorem validHashes_of_appendedLog {appends : List AppendCall} {log : Option Text}
    (h : AppendedLog appends log) : validHashes (log.getD []) = hashFields (log.getD []) := by
  refine List.filterMap_congr fun line hline => ?_
  cases hfield : hashField line with
  | none => rw [validHash, hfield]; rfl
  | some hash =>
    have hmem : hash ∈ hashFields (log.getD []) := List.mem_filterMap.mpr ⟨line, hline, hfield⟩
    rw [h.hashes] at hmem
    obtain ⟨a, -, rfl⟩ := List.mem_map.mp hmem
    refine validHash_eq_some_iff.mpr ⟨hfield, hashText_ne_nil _, length_hashText_le _, ?_⟩
    exact List.all_eq_true.mpr fun b hb => isDigit_of_mem_decimal hb

/-- **What one node exports another imports**, when the file limit leaves room for the header:
a log of `N` records, with `N` below `max_hashes_per_file` (or 0) and within the two import
budgets, is imported in full by every node whose log is absent or closed. -/
theorem exported_hashes_imported (appends : List AppendCall)
    (hlabels : ∀ a ∈ appends, newline ∉ a.sourceLabel) (N : Nat)
    (hN : (hashFields ((appendAll appends).log.getD [])).length = N) (policy : PeerImportPolicy)
    (hfile : N = 0 ∨ N < policy.maxHashesPerFile) (hpeer : N ≤ policy.maxImportsPerPeer)
    (hsession : N ≤ policy.maxImportsPerSession) (receiver : LogFiles)
    (hclosed : lastLine newline (receiver.log.getD []) = []) (path : Text) (now : Int)
    (exported : Option Text) :
    hashFields ((appendAll appends).log.getD []) ⊆
      hashFields ((mergePeerSignaturesGuarded (importCall policy path now
        (exportNodeSignatures true (appendAll appends).log exported)) receiver).2.log.getD []) := by
  have hlog := appendedLog_appendAll appends hlabels
  have hvalid := validHashes_of_appendedLog hlog
  by_cases hnil : appends = []
  · -- no log, no hash
    rw [hlog.hashes, hnil]
    exact List.nil_subset _
  · obtain ⟨content, hcontent⟩ : ∃ content, (appendAll appends).log = some content := by
      cases hopt : (appendAll appends).log with
      | none =>
        have hlines := hlog.lines hnil
        rw [hopt] at hlines
        exact absurd hlines (by simp)
      | some content => exact ⟨content, rfl⟩
    have hlines := hlog.lines hnil
    have hlength : appends.length = N := by
      rw [← hN, hlog.hashes, List.length_map]
    have hpos : 0 < appends.length := List.length_pos_iff.mpr hnil
    rw [hcontent, Option.getD_some] at hlines hvalid hN
    have hdistinct : (validHashes content).eraseDups.length ≤ N := by
      rw [hvalid, ← hN]
      exact length_eraseDups_le _
    rw [hcontent, Option.getD_some, ← hvalid]
    -- the lines of the file are its records and the header
    refine validHashes_subset_merge _ receiver hclosed rfl rfl ?_ ?_ ?_
    · show (lines newline content).length ≤ policy.maxHashesPerFile
      omega
    · show _ ≤ policy.maxImportsPerPeer
      omega
    · show _ ≤ policy.maxImportsPerSession - 0
      omega

/-- A log of one record. -/
def oneRecord : List AppendCall := [⟨7, 11, 1700000000, ascii "m.cpp"⟩]

/-- One record, exported and imported. -/
theorem exported_hashes_imported_one :
    hashFields ((appendAll oneRecord).log.getD []) ⊆
      hashFields ((mergePeerSignaturesGuarded (importCall ⟨2, 1, 1⟩ (ascii "/tmp/peer_a.csv") 5
        (exportNodeSignatures true (appendAll oneRecord).log none)) noLog).2.log.getD []) :=
  exported_hashes_imported oneRecord (by decide) 1 (by decide) ⟨2, 1, 1⟩ (by decide) (by decide)
    (by decide) noLog rfl _ 5 none

/-- **At the limit nothing arrives**: the header makes a log of `max_hashes_per_file` records
one line too long, and the reader rejects the file. -/
theorem exported_hashes_imported_fails_at_limit :
    ¬ ∀ (appends : List AppendCall) (policy : PeerImportPolicy) (receiver : LogFiles)
        (path : Text) (now : Int), (∀ a ∈ appends, newline ∉ a.sourceLabel) →
        (hashFields ((appendAll appends).log.getD [])).length ≤ policy.maxHashesPerFile →
        (hashFields ((appendAll appends).log.getD [])).length ≤ policy.maxImportsPerPeer →
        (hashFields ((appendAll appends).log.getD [])).length ≤ policy.maxImportsPerSession →
        lastLine newline (receiver.log.getD []) = [] →
        hashFields ((appendAll appends).log.getD []) ⊆
          hashFields ((mergePeerSignaturesGuarded (importCall policy path now
            (exportNodeSignatures true (appendAll appends).log none)) receiver).2.log.getD []) := by
  intro h
  have hsub := h oneRecord ⟨1, 1, 1⟩ noLog (ascii "/tmp/peer_a.csv") 5 (by decide) (by decide)
    (by decide) (by decide) rfl
  have hrecord : ascii "7" ∈ hashFields ((appendAll oneRecord).log.getD []) := by decide
  exact absurd (hsub hrecord) (by decide)

end Swayam
