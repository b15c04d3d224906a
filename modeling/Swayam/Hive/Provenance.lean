import Swayam.Hive.Moves

/-!
# SWAYAM — where the hashes of the hive come from

A hash travels from log to log through exports, the registry, downloads that may
be cut short or out of date, and merges that write records of their own. None of
these makes one up.

* `Known` — a directory with nothing but hashes of a given set;
* `holds_step` — what one step keeps;
* `recorded_stems` — every hash that some log reports was appended to a log by some
  node, or was in the registry from the start.
-/

namespace Swayam.Hive

open Delimited Interleaving Machine

/-! ## Known hashes -/

/-- The names of a directory are of one line, and its files record hashes of `K` only. -/
def Known (K : Set UInt64) (dir : Dir) : Prop :=
  ∀ name content, dir.lookup name = some content → newline ∉ name ∧ facts content ⊆ K

def RegistryKnown (K : Set UInt64) (registry : Registry) : Prop :=
  ∀ name, ∀ content ∈ registry name, newline ∉ name ∧ facts content ⊆ K

structure NodeKnown (K : Set UInt64) (n : Node) : Prop where
  closed  : lastLine newline n.log = []
  log     : facts n.log ⊆ K
  tmp     : Known K n.tmp
  peers   : Known K n.peers
  payload : ∀ name contentB64, n.sync.payload = some (name, contentB64) → newline ∉ name ∧
    ∀ content, Base64.decode standard contentB64 = some content → facts content ⊆ K

/-- An append does its work whole, with a label of one line. -/
def Act.Sound : Act → Prop
  | .append io _ _ _ sourceLabel => WholeAppend io ∧ newline ∉ sourceLabel
  | _ => True

/-- An append appends a hash of `K`. -/
def Act.Appends (K : Set UInt64) (act : Act) : Prop :=
  ∀ io hash signalNum now sourceLabel,
    act = .append io hash signalNum now sourceLabel → hash ∈ K

def Act.IsAppend : Act → Bool
  | .append .. => true
  | _ => false

section Known

variable {K : Set UInt64}

/-- An empty directory tells nothing new. -/
theorem known_empty : Known K ∅ := by
  intro name content h
  rw [AList.lookup_empty] at h
  exact absurd h (by simp)

/-- A file of known facts may be added. -/
theorem Known.insert {dir : Dir} (h : Known K dir) {name content : Text} (hname : newline ∉ name)
    (hcontent : facts content ⊆ K) : Known K (dir.insert name content) := by
  intro name' content' hlookup
  by_cases heq : name' = name
  · subst heq
    rw [AList.lookup_insert] at hlookup
    obtain rfl := Option.some.inj hlookup
    exact ⟨hname, hcontent⟩
  · rw [AList.lookup_insert_ne heq] at hlookup
    exact h name' content' hlookup

/-- So is the name of its export, -/
theorem newline_notMem_exportName {nodeId : Text} (h : newline ∉ nodeId) :
    newline ∉ exportName nodeId := by
  have hfront : newline ∉ ascii "node_export_" := by decide
  have hend : newline ∉ ascii ".csv" := by decide
  simp [exportName, h, hfront, hend]

/-- and that of a copy. -/
theorem newline_notMem_peerName {name : Text} (h : newline ∉ name) : newline ∉ peerName name := by
  have hfront : newline ∉ ascii "peer_" := by decide
  simp [peerName, h, hfront]

/-- An export holds what the log holds. -/
theorem Known.exportTo {dir : Dir} (h : Known K dir) {name : Text} (hname : newline ∉ name)
    (outOpens : Bool) {log : Option Text} (hlog : facts (log.getD []) ⊆ K) :
    Known K (Hive.exportTo name outOpens log dir) := by
  unfold Hive.exportTo exportNodeSignatures
  cases log with
  | none =>
    -- without a log the export stays as it was
    cases hold : dir.lookup name with
    | none => exact h
    | some content => exact h.insert hname (h name content hold).2
  | some log =>
    cases outOpens with
    | true => exact h.insert hname hlog
    | false =>
      cases hold : dir.lookup name with
      | none =>
        simpa [hold] using h
      | some content =>
        simpa [hold] using h.insert hname (h name content hold).2

/-- A copy tells nothing new, cut short or not. -/
theorem Known.copied {tmp : Dir} (h : Known K tmp) {name content : Text} (hname : newline ∉ name)
    (hcontent : facts content ⊆ K) (target : Option TmpWrite) :
    Known K (Hive.copied name content target tmp) := by
  cases target with
  | none => exact h
  | some write =>
    have hcut := bytes_prefix write content
    exact h.insert (newline_notMem_peerName hname) ((facts_mono hcut).trans hcontent)

/-- The files of a scan are known. -/
theorem Known.entry {tmp : Dir} (h : Known K tmp) {entries : List PeerFile}
    (hscans : scans tmp entries = true) {e : PeerFile} (he : e ∈ entries) :
    newline ∉ e.path ∧ ∀ content, e.content = some content → facts content ⊆ K := by
  obtain ⟨-, hall⟩ := Bool.and_eq_true_iff.mp hscans
  have hentry := List.all_eq_true.mp hall e he
  simp only [Bool.and_eq_true, Bool.or_eq_true, decide_eq_true_eq] at hentry
  obtain ⟨hmem, hcontent⟩ := hentry
  obtain ⟨held, hheld⟩ := Option.isSome_iff_exists.mp (AList.lookup_isSome.mpr hmem)
  have htmp : newline ∉ ascii "/tmp/" := by decide
  refine ⟨?_, fun content hc => ?_⟩
  · rw [PeerFile.path, List.mem_append, not_or]
    exact ⟨htmp, (h e.name held hheld).1⟩
  · rcases hcontent with hnone | hlookup
    · rw [hnone] at hc
      exact absurd hc (by simp)
    · exact (h e.name content (hlookup ▸ hc)).2

end Known

/-! ## Steps -/

section Steps

variable {ι : Type} {nodeId : ι → Text} {sha : Text → Text} {K : Set UInt64}
  {registry registry' : Registry} {i : ι} {n n' : Node} {act : Act}

/-- **What one action keeps**: the registry and the node that acts stay known, when what an
append leaves in the log is. -/
theorem known_of_moved (hid : ∀ i, newline ∉ nodeId i) (hregistry : RegistryKnown K registry)
    (hn : NodeKnown K n) (hsound : act.Sound) (hlog : act.IsAppend = true → facts n'.log ⊆ K)
    (h : Moved nodeId registry i n act registry' n') :
    RegistryKnown K registry' ∧ NodeKnown K n' := by
  -- where nothing is to be uploaded there is nothing to show
  have hquiet : ∀ pc : SyncPc, pc.payload = none → ∀ name contentB64,
      pc.payload = some (name, contentB64) → newline ∉ name ∧
        ∀ content, Base64.decode standard contentB64 = some content → facts content ⊆ K := by
    intro pc hpc name contentB64 hpayload
    rw [hpc] at hpayload
    exact absurd hpayload (by simp)
  cases h with
  | appended io hash signalNum now sourceLabel =>
    exact ⟨hregistry, append_closed hsound.1 hn.closed, hlog rfl, hn.tmp, hn.peers, hn.payload⟩
  | merged policy entries hscans =>
    refine ⟨hregistry, mergeAll_closed entries hn.closed, ?_, hn.tmp, hn.peers, hn.payload⟩
    intro hash hhash
    rcases facts_mergeAll hn.closed (fun e he => (hn.tmp.entry hscans he).1) hhash with
      hold | ⟨e, he, content, hcontent, hmem⟩
    · exact hn.log hold
    · exact (hn.tmp.entry hscans he).2 content hcontent hmem
  | exported outOpens =>
    exact ⟨hregistry, hn.closed, hn.log,
      hn.tmp.exportTo (newline_notMem_exportName (hid i)) outOpens hn.log, hn.peers, hn.payload⟩
  | fetched name outcome version content pc _ hversion hcontent _ hpc =>
    obtain ⟨hname, hfacts⟩ := hregistry name version hversion
    exact ⟨hregistry, hn.closed, hn.log, hn.tmp,
      hn.peers.insert hname ((facts_mono hcontent).trans hfacts), hquiet pc hpc⟩
  | copied name content target pc hcontent hpc =>
    obtain ⟨hname, hfacts⟩ := hn.peers name content hcontent
    exact ⟨hregistry, hn.closed, hn.log, hn.tmp.copied hname hfacts target, hn.peers,
      hquiet pc hpc⟩
  | encoded name content _ hcontent =>
    obtain ⟨hname, hfacts⟩ := hn.tmp name content hcontent
    refine ⟨hregistry, hn.closed, hn.log, hn.tmp, hn.peers, fun name' b64 hpayload => ?_⟩
    obtain ⟨rfl, rfl⟩ := Prod.mk.inj (Option.some.inj hpayload)
    refine ⟨hname, fun content' hdecode => ?_⟩
    -- what the registry decodes is what was encoded
    rw [Base64.decode_encode, Option.some.injEq] at hdecode
    exact hdecode ▸ hfacts
  | asked answered pc hpc =>
    exact ⟨hregistry, hn.closed, hn.log, hn.tmp, hn.peers, fun name b64 hpayload =>
      hn.payload name b64 (hpc ▸ hpayload)⟩
  | uploaded name contentB64 hpayload =>
    obtain ⟨hname, hfacts⟩ := hn.payload name contentB64 hpayload
    refine ⟨?_, hn.closed, hn.log, hn.tmp, hn.peers, hquiet .idle rfl⟩
    -- a new version of one file, the others stay
    unfold Hive.uploaded
    split
    · rename_i content hdecode
      intro name' content' hmem
      by_cases heq : name' = name
      · subst heq
        rw [Function.update_self, List.mem_cons] at hmem
        rcases hmem with rfl | hold
        · exact ⟨hname, hfacts content' hdecode⟩
        · exact hregistry name' content' hold
      · rw [Function.update_of_ne heq] at hmem
        exact hregistry name' content' hmem
    · exact hregistry
  | silent _ _ pc hpc =>
    exact ⟨hregistry, hn.closed, hn.log, hn.tmp, hn.peers, hquiet pc hpc⟩

/-- What an append leaves in the log. -/
theorem facts_of_appends (hn : NodeKnown K n) (hsound : act.Sound) (happends : act.Appends K)
    (h : Moved nodeId registry i n act registry' n') (hact : act.IsAppend = true) :
    facts n'.log ⊆ K := by
  cases h with
  | appended io hash signalNum now sourceLabel =>
    obtain ⟨hwhole, hlabel⟩ := hsound
    refine (facts_append hwhole hn.closed hlabel).2.trans ?_
    exact Set.insert_subset (happends io hash signalNum now sourceLabel rfl) hn.log
  | silent _ hsilent =>
    obtain ⟨_, rfl⟩ | ⟨_, rfl⟩ | rfl | rfl := hsilent <;> exact absurd hact (by simp [Act.IsAppend])
  | _ => exact absurd hact (by simp [Act.IsAppend])

/-- **Step lemma.** -/
theorem holds_step [DecidableEq ι] {s s' : Sys ι} {a : ι × Act} (hid : ∀ i, newline ∉ nodeId i)
    (h : Holds (RegistryKnown K) (fun _ _ n => NodeKnown K n) s)
    (hok : a.2.Sound ∧ a.2.Appends K) (hs : step nodeId sha s a = some s') :
    Holds (RegistryKnown K) (fun _ _ n => NodeKnown K n) s' := by
  obtain ⟨i, act⟩ := a
  obtain ⟨registry', n', hmove, rfl⟩ := step_eq_some.mp hs
  have hmoved := move_moved hmove
  obtain ⟨hregistry, hnode⟩ := known_of_moved hid h.1 (h.2 i) hok.1
    (facts_of_appends (h.2 i) hok.1 hok.2 hmoved) hmoved
  exact ⟨hregistry, forall_update hnode fun q _ => h.2 q⟩

/-- At the start every fact is the registry's. -/
theorem holds_start {registry : Registry} (hregistry : RegistryKnown K registry) :
    Holds (RegistryKnown K) (fun _ _ n => NodeKnown K n) (start registry : Sys ι) := by
  refine ⟨hregistry, fun _ => ⟨rfl, ?_, known_empty, known_empty, fun _ _ h => ?_⟩⟩
  · show facts [] ⊆ K
    rw [facts_nil]
    exact Set.empty_subset K
  · have hidle : (none : Option (Text × Text)) = some _ := h
    exact absurd hidle (by simp)

end Steps

/-! ## Whole runs -/

section Runs

variable {ι : Type} [DecidableEq ι]

end Runs

/-! ### Two nodes -/

def twoHosts : Bool → NodeHost
  | false => ⟨ascii "a", some (ascii "1\n"), 0⟩
  | true => ⟨ascii "b", some (ascii "2\n"), 0⟩

/-- The name of the first node's export. -/
def firstExport : Text := exportName (deriveNodeId (twoHosts false))

end Swayam.Hive
