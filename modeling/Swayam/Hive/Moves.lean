import Swayam.Hive.Definitions
import Swayam.Core.PeerSync

/-!
# SWAYAM — what a node of the hive does

* `Moved` — the effects of the actions, and `move_moved`, that an enabled action has
  one of them;
* `facts` — the hashes that a text records, and what the operations on logs make of
  them: an append adds one (`facts_append`), a merge those of the files it reads
  (`facts_mergeAll`), and a text cut short has none that the whole has not
  (`facts_mono`).
-/

namespace Swayam.Hive

open Delimited Fresh

/-! ## Effects -/

/-- The export that a run of the script is about to upload, under its name and encoded. -/
def SyncPc.payload : SyncPc → Option (Text × Text)
  | .encoded name contentB64 => some (name, contentB64)
  | .putting name contentB64 _ => some (name, contentB64)
  | _ => none

@[simp] theorem payload_copyingOf (names : List Text) : (copyingOf names).payload = none := by
  unfold copyingOf
  split <;> rfl

@[simp] theorem payload_fetchingOf (names : List Text) (peers : Dir) :
    (fetchingOf names peers).payload = none := by
  unfold fetchingOf
  split
  · exact payload_copyingOf _
  · rfl

/-- The actions that only move the script on. -/
def Act.Silent (act : Act) : Prop :=
  (∃ names, act = .list names) ∨ (∃ name, act = .fetch name .fails) ∨ act = .noExport ∨
    act = .put false

section Moves

variable {ι : Type} {nodeId : ι → Text} {sha : Text → Text} {registry registry' : Registry}
  {i : ι} {n n' : Node} {act : Act}

/-- **What an action does**, with what it has found. -/
inductive Moved (nodeId : ι → Text) (registry : Registry) (i : ι) (n : Node) :
    Act → Registry → Node → Prop
  | appended (io : AppendIO) (hash : UInt64) (signalNum now : Int) (sourceLabel : Text) :
      Moved nodeId registry i n (.append io hash signalNum now sourceLabel) registry
        { n with files := atomicQuarantineAppend io hash signalNum now sourceLabel n.files }
  | merged (policy : PeerImportPolicy) (entries : List PeerFile)
      (hscans : scans n.tmp entries = true) :
      Moved nodeId registry i n (.merge policy entries) registry
        { n with files := (mergeAllPeerFiles policy n.files entries).files }
  | exported (outOpens : Bool) :
      Moved nodeId registry i n (.exportLog outOpens) registry
        { n with tmp := exportTo (exportName (nodeId i)) outOpens n.files.log n.tmp }
  | fetched (name : Text) (outcome : Fetch) (version content : Text) (pc : SyncPc)
      (houtcome : outcome ≠ .fails) (hversion : version ∈ registry name)
      (hcontent : content <+: version)
      (hwhole : outcome = .whole → (registry name).head? = some content)
      (hpc : pc.payload = none) :
      Moved nodeId registry i n (.fetch name outcome) registry
        { n with peers := n.peers.insert name content, sync := pc }
  | copied (name content : Text) (target : Option TmpWrite) (pc : SyncPc)
      (hcontent : n.peers.lookup name = some content) (hpc : pc.payload = none) :
      Moved nodeId registry i n (.copy name target) registry
        { n with tmp := Hive.copied name content target n.tmp, sync := pc }
  | encoded (name content : Text) (hname : matchesExport name = true)
      (hcontent : n.tmp.lookup name = some content) :
      Moved nodeId registry i n (.encode name) registry
        { n with sync := .encoded name (Base64.encode standard content) }
  | asked (answered : Bool) (pc : SyncPc) (hpc : pc.payload = n.sync.payload) :
      Moved nodeId registry i n (.getSha answered) registry { n with sync := pc }
  | uploaded (name contentB64 : Text) (hpayload : n.sync.payload = some (name, contentB64)) :
      Moved nodeId registry i n (.put true) (Hive.uploaded registry name contentB64)
        { n with sync := .idle }
  | silent (act : Act) (hact : act.Silent) (pc : SyncPc) (hpc : pc.payload = none) :
      Moved nodeId registry i n act registry { n with sync := pc }

/-- A download, whatever comes of it. -/
theorem fetched_moved {name : Text} {rest : List Text} {outcome : Fetch}
    (h : n.fetched (registry name) name rest outcome = some n') :
    Moved nodeId registry i n (.fetch name outcome) registry n' := by
  cases outcome with
  | whole =>
    obtain ⟨c, hc, rfl⟩ := Option.map_eq_some_iff.mp h
    exact .fetched name .whole c c _ (by simp) (List.mem_of_head? hc) List.prefix_rfl
      (fun _ => hc) (payload_fetchingOf _ _)
  | stale v =>
    obtain ⟨c, hc, rfl⟩ := Option.map_eq_some_iff.mp h
    exact .fetched name _ c c _ (by simp) (List.mem_of_getElem? hc) List.prefix_rfl
      (fun hwhole => absurd hwhole (by simp)) (payload_fetchingOf _ _)
  | short v cut =>
    obtain ⟨c, hc, rfl⟩ := Option.map_eq_some_iff.mp h
    exact .fetched name _ c _ _ (by simp) (List.mem_of_getElem? hc) (List.take_prefix cut c)
      (fun hwhole => absurd hwhole (by simp)) (payload_fetchingOf _ _)
  | fails =>
    obtain rfl := Option.some.inj h
    exact .silent _ (Or.inr (Or.inl ⟨name, rfl⟩)) _ (payload_fetchingOf _ _)

/-- **Every enabled action** has one of the effects. -/
theorem move_moved (h : move nodeId sha registry i n act = some (registry', n')) :
    Moved nodeId registry i n act registry' n' := by
  cases act with
  | append io hash signalNum now sourceLabel =>
    obtain ⟨rfl, rfl⟩ := Prod.mk.inj (Option.some.inj h)
    exact .appended io hash signalNum now sourceLabel
  | merge policy entries =>
    simp only [move] at h
    split at h
    · -- the directory scan answered: a merge over what it returned
      rename_i hscans
      obtain ⟨rfl, rfl⟩ := Prod.mk.inj (Option.some.inj h)
      exact .merged policy entries hscans
    · exact absurd h (by simp)
  | exportLog outOpens =>
    obtain ⟨rfl, rfl⟩ := Prod.mk.inj (Option.some.inj h)
    exact .exported outOpens
  | list names =>
    -- the list decides what is copied or fetched next, no file changes
    have hsilent : (Act.list names).Silent := Or.inl ⟨names, rfl⟩
    simp only [move] at h
    split at h
    · split at h
      · obtain ⟨rfl, rfl⟩ := Prod.mk.inj (Option.some.inj h)
        exact .silent _ hsilent .pushing rfl
      · split at h
        · obtain ⟨rfl, rfl⟩ := Prod.mk.inj (Option.some.inj h)
          exact .silent _ hsilent _ (payload_fetchingOf _ _)
        · exact absurd h (by simp)
    · exact absurd h (by simp)
  | fetch name outcome =>
    simp only [move] at h
    split at h
    · split at h
      · obtain ⟨m, hm, heq⟩ := Option.map_eq_some_iff.mp h
        obtain ⟨rfl, rfl⟩ := Prod.mk.inj heq
        exact fetched_moved hm
      · exact absurd h (by simp)
    · exact absurd h (by simp)
  | copy name target =>
    simp only [move] at h
    split at h
    · split at h
      · obtain ⟨content, hcontent, heq⟩ := Option.map_eq_some_iff.mp h
        obtain ⟨rfl, rfl⟩ := Prod.mk.inj heq
        exact .copied name content target _ hcontent (payload_copyingOf _)
      · exact absurd h (by simp)
    · exact absurd h (by simp)
  | encode name =>
    simp only [move] at h
    split at h
    · -- the guard: the push is under way and the export is there
      rename_i hguard
      obtain ⟨content, hcontent, heq⟩ := Option.map_eq_some_iff.mp h
      obtain ⟨rfl, rfl⟩ := Prod.mk.inj heq
      exact .encoded name content (Bool.and_eq_true_iff.mp hguard).2 hcontent
    · exact absurd h (by simp)
  | noExport =>
    simp only [move] at h
    split at h
    · obtain ⟨rfl, rfl⟩ := Prod.mk.inj (Option.some.inj h)
      exact .silent _ (Or.inr (Or.inr (Or.inl rfl))) .idle rfl
    · exact absurd h (by simp)
  | getSha answered =>
    simp only [move] at h
    split at h
    · -- the answer to the request is put into the payload under way
      rename_i hsync
      obtain ⟨rfl, rfl⟩ := Prod.mk.inj (Option.some.inj h)
      exact .asked answered _ (by rw [hsync]; rfl)
    · exact absurd h (by simp)
  | put applied =>
    simp only [move] at h
    split at h
    · rename_i name contentB64 requestSha hsync
      -- an upload that is refused leaves the registry as it was
      cases applied with
      | true =>
        rw [if_pos rfl] at h
        split at h
        · obtain ⟨rfl, rfl⟩ := Prod.mk.inj (Option.some.inj h)
          exact .uploaded name contentB64 (by rw [hsync]; rfl)
        · exact absurd h (by simp)
      | false =>
        rw [if_neg (by simp)] at h
        obtain ⟨rfl, rfl⟩ := Prod.mk.inj (Option.some.inj h)
        exact .silent _ (Or.inr (Or.inr (Or.inr rfl))) .idle rfl
    · exact absurd h (by simp)

end Moves

/-! ## Recorded hashes -/

/-- The hashes that a text records. -/
def facts (c : Text) : Set UInt64 := {hash | isRecorded c hash = true}

theorem mem_facts {c : Text} {hash : UInt64} : hash ∈ facts c ↔ hashText hash ∈ hashFields c :=
  isRecorded_iff

theorem facts_subset {c c' : Text} (h : hashFields c ⊆ hashFields c') : facts c ⊆ facts c' :=
  fun _ hhash => mem_facts.mpr (h (mem_facts.mp hhash))

theorem facts_nil : facts [] = ∅ := by
  ext hash
  simp [mem_facts, hashFields, keys]

/-- **A text cut short** records nothing else. -/
theorem facts_mono {c c' : Text} (h : c <+: c') : facts c ⊆ facts c' := by
  obtain ⟨t, rfl⟩ := h
  exact facts_subset (hashFields_subset_append c t)

/-- An append that replaces the log has read the old one whole, and written the new one
whole. -/
def WholeAppend (io : AppendIO) : Prop :=
  io.lock = true → io.tmp = true → io.rename = true → io.read = .whole ∧ io.write = .complete

instance (io : AppendIO) : Decidable (WholeAppend io) := by
  unfold WholeAppend
  infer_instance

section Append

variable {io : AppendIO} {hash : UInt64} {signalNum now : Int} {sourceLabel : Text}
  {fs : LogFiles}

/-- Such an append leaves the log alone, or adds its record. -/
theorem append_log (hash : UInt64) (signalNum now : Int) (sourceLabel : Text) (fs : LogFiles)
    (h : WholeAppend io) :
    (atomicQuarantineAppend io hash signalNum now sourceLabel fs).log = fs.log ∨
      (atomicQuarantineAppend io hash signalNum now sourceLabel fs).log =
        some (appendedLog fs.log (quarantineEntry hash signalNum now sourceLabel)) := by
  rw [atomicQuarantineAppend_log]
  by_cases hall : io.lock ∧ io.tmp ∧ io.rename
  · right
    obtain ⟨hread, hwrite⟩ := h hall.1 hall.2.1 hall.2.2
    rw [if_pos hall, hread, hwrite, readExisting_whole]
    rfl
  · left
    exact if_neg hall

/-- **An append adds its hash**, and takes none away. -/
theorem facts_append (h : WholeAppend io) (hclosed : lastLine newline (fs.log.getD []) = [])
    (hlabel : newline ∉ sourceLabel) :
    facts (fs.log.getD []) ⊆
        facts ((atomicQuarantineAppend io hash signalNum now sourceLabel fs).log.getD []) ∧
      facts ((atomicQuarantineAppend io hash signalNum now sourceLabel fs).log.getD []) ⊆
        insert hash (facts (fs.log.getD [])) := by
  rcases append_log hash signalNum now sourceLabel fs h with hlog | hlog
  · rw [hlog]
    exact ⟨subset_rfl, Set.subset_insert _ _⟩
  · have hfields : hashFields (appendedLog fs.log (quarantineEntry hash signalNum now sourceLabel)) =
        hashFields (fs.log.getD []) ++ [hashText hash] := by
      have hheaded : lastLine newline (withHeader (fs.log.getD [])) = [] := by
        rw [lastLine_withHeader, hclosed]
      rw [appendedLog, hashFields_append_quarantineEntry hheaded hash signalNum now hlabel,
        hashFields_withHeader]
    rw [hlog, Option.getD_some]
    constructor
    · refine facts_subset ?_
      rw [hfields]
      exact List.subset_append_left _ _
    · intro other hother
      rw [mem_facts, hfields, List.mem_append, List.mem_singleton] at hother
      rcases hother with hold | hnew
      · exact Or.inr (mem_facts.mpr hold)
      · exact Or.inl (hashText_injective hnew)

/-- A closed log stays closed. -/
theorem append_closed (h : WholeAppend io) (hclosed : lastLine newline (fs.log.getD []) = []) :
    lastLine newline
      ((atomicQuarantineAppend io hash signalNum now sourceLabel fs).log.getD []) = [] := by
  rcases append_log hash signalNum now sourceLabel fs h with hlog | hlog
  · rw [hlog]
    exact hclosed
  · have hend : appendedLog fs.log (quarantineEntry hash signalNum now sourceLabel) =
        (withHeader (fs.log.getD []) ++ (hashText hash ++ comma :: (decimalInt signalNum ++
          comma :: (decimalInt now ++ comma :: sourceLabel)))) ++ [newline] := by
      simp [appendedLog, quarantineEntry]
    rw [hlog, Option.getD_some, hend]
    exact lastLine_append_sep _

end Append

/-! ## Merges -/

/-- The hashes that count are hash fields. -/
theorem validHashes_subset_hashFields (content : Text) : validHashes content ⊆ hashFields content := by
  intro hash hmem
  obtain ⟨line, hline, hvalid⟩ := List.mem_filterMap.mp hmem
  exact List.mem_filterMap.mpr ⟨line, hline, (validHash_eq_some_iff.mp hvalid).1⟩

section Merge

variable {policy : PeerImportPolicy} {fs : LogFiles} {entries : List PeerFile}

/-- **A merge takes its hashes from the files it reads.** -/
theorem mem_hashFields_mergeAll (hclosed : lastLine newline (fs.log.getD []) = [])
    (hpaths : ∀ e ∈ entries, newline ∉ e.path) {hash : Text}
    (h : hash ∈ hashFields (mergeAllPeerFiles policy fs entries).log) :
    hash ∈ hashFields (fs.log.getD []) ∨
      ∃ e ∈ entries, ∃ content, e.content = some content ∧ hash ∈ validHashes content := by
  -- by induction on the files, from the right
  refine mergeAll_induction (P := fun a s => (∀ e ∈ a, newline ∉ e.path) →
    hash ∈ hashFields s.log → hash ∈ hashFields (fs.log.getD []) ∨
      ∃ e ∈ a, ∃ content, e.content = some content ∧ hash ∈ validHashes content) ?_ ?_
    entries hpaths h
  · exact fun _ hmem => Or.inl hmem
  · intro a file ih hpaths hmem
    rw [(visit_absorbs (mergeAll_closed a hclosed) (hpaths file (by simp))).eq,
      List.mem_append] at hmem
    rcases hmem with hold | hnew
    · rcases ih (fun e he => hpaths e (List.mem_append_left _ he)) hold with hlog | hfile
      · exact Or.inl hlog
      · obtain ⟨e, he, hrest⟩ := hfile
        exact Or.inr ⟨e, List.mem_append_left _ he, hrest⟩
    · rcases imports_cases policy (mergeAllPeerFiles policy fs a) file with
        hnone | ⟨content, -, hcontent, hsome⟩
      · rw [hnone] at hnew
        exact absurd hnew List.not_mem_nil
      · rw [hsome] at hnew
        exact Or.inr ⟨file, by simp, content, hcontent,
          (mem_fresh.mp (List.mem_of_mem_take hnew)).1⟩

/-- Behind a merge every fact is the log's own or a peer file's. -/
theorem facts_mergeAll (hclosed : lastLine newline (fs.log.getD []) = [])
    (hpaths : ∀ e ∈ entries, newline ∉ e.path) {hash : UInt64}
    (h : hash ∈ facts (mergeAllPeerFiles policy fs entries).log) :
    hash ∈ facts (fs.log.getD []) ∨
      ∃ e ∈ entries, ∃ content, e.content = some content ∧ hash ∈ facts content := by
  rcases mem_hashFields_mergeAll hclosed hpaths (mem_facts.mp h) with hlog | ⟨e, he, c, hc, hmem⟩
  · exact Or.inl (mem_facts.mpr hlog)
  · exact Or.inr ⟨e, he, c, hc, mem_facts.mpr (validHashes_subset_hashFields c hmem)⟩

end Merge

end Swayam.Hive
