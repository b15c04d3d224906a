import Swayam.Core.Guarded
import Swayam.Core.PeerSync
import Swayam.Pipeline.Runner

/-!
# SWAYAM — the immune memory

Two stores remember bad mutations: the quarantine log, under FNV-1a hashes, and
the workspace ledger, under `std::hash`. Each has its own recorders and its own
reader: `run_guarded_mutation` asks the log, `evaluate_and_execute` the ledger
(behind the analyzer), and neither asks the other's.

* `neverRunAgain_iff` — after any history, a source is safe from both runners
  exactly when the log reports it *and* the analyzer or the ledger stops it;
* `isQuarantined_of_logRemembers` — a record in the log outlives the calls behind it,
  unless an append cuts it off;
* `mem_ledger_of_ledgerRemembers` — a record in the ledger outlives all of them;
* `neverRunAgain_of_remembered` — so a source that both stores have recorded, or one
  of them and the analyzer rejects, is never run again; and of histories whose calls
  are whole no other source is safe, but for digits.

The calls of a history follow one another; what runs of `run_guarded_mutation` do to
each other is in `Core/Guarded.lean`.
-/

namespace Swayam

open Machine Stages Delimited

/-! ## Histories -/

/-- The two stores. -/
structure Memory where
  files  : LogFiles         -- `quarantine.log`, its temp file and its backup
  ledger : Option Text      -- `.swayam_quarantine.ledger`

/-- A call of one of the recorders, under any outcome of its system calls. -/
inductive MemoryOp
  | quarantine (io : AppendIO) (mutationSourcePath content : Text) (signalNum now : Int)
  | quarantineByContent (io : AppendIO) (content sourceLabel : Text) (signalNum now : Int)
  | merge (call : MergeCall)
  | ban (io : LedgerWriteIO) (sourceCode : Text) (exitCode : Int)
  deriving DecidableEq, Repr

def MemoryOp.apply (stdHash : StdHash) (op : MemoryOp) (m : Memory) : Memory :=
  match op with
  | .quarantine io path content signalNum now =>
    { m with files := Swayam.quarantine io path content signalNum now m.files }
  | .quarantineByContent io content label signalNum now =>
    { m with files := Swayam.quarantineByContent io content label signalNum now m.files }
  | .merge call => { m with files := (mergePeerSignaturesGuarded call m.files).2 }
  | .ban io sourceCode exitCode =>
    { m with ledger := banMutationIO stdHash io sourceCode exitCode m.ledger }

/-- The stores after a history, from absent files. -/
def remember (stdHash : StdHash) (ops : List MemoryOp) : Memory :=
  ops.foldl (fun m op => op.apply stdHash m) ⟨noLog, none⟩

/-- The call records the hash of the source: it is called with it, or imports it, and the
store has it afterwards. -/
def MemoryOp.Records (stdHash : StdHash) (op : MemoryOp) (m : Memory) (s : Text) : Prop :=
  match op with
  | .quarantine _ _ content _ _ | .quarantineByContent _ content _ _ _ =>
    structuralHash content = structuralHash s ∧
      isQuarantined s (op.apply stdHash m).files.log = true
  | .merge call => hashText (structuralHash s) ∈ (mergePeerSignaturesGuarded call m.files).1
  | .ban _ sourceCode _ =>
    stdHash sourceCode = stdHash s ∧
      searchTarget (stdHash s) <:+: (op.apply stdHash m).ledger.getD []

/-- Some call of the history has recorded the hash of the source. -/
def Recorded (stdHash : StdHash) (ops : List MemoryOp) (s : Text) : Prop :=
  ∃ a op b, ops = a ++ op :: b ∧ op.Records stdHash (remember stdHash a) s

/-! ## Later runs -/

/-- The runner forks no child for the source, whatever its program would do and in whatever
environment, as long as it reads the ledger without failures. -/
def RunnerRefuses (stdHash : StdHash) (ledger : Option Text) (s : Text) : Prop :=
  ∀ program env w mutationId, w.ledger = ledger →
    (∀ io, env.banCheck = .ok io → io.Clean ledger) →
    Pipeline.NoFork w
      (endState (Pipeline.evaluateAndExecuteWith program stdHash env s mutationId w))

/-- No guarded run forks for a file with this content, whatever runs next to it. -/
def GuardedRunRefuses (log : Option Text) (s : Text) : Prop :=
  ∀ files p as t, (files p).content = s →
    exec (Guarded.step files) (Guarded.start log) as = some t → t.pc p ≠ .forked

def NeverRunAgain (stdHash : StdHash) (m : Memory) (s : Text) : Prop :=
  RunnerRefuses stdHash m.ledger s ∧ GuardedRunRefuses m.files.log s

/-- What stops a source in the runner. -/
def RunnerStops (stdHash : StdHash) (ledger : Option Text) (s : Text) : Prop :=
  (evaluateMutation s).isSafe = false ∨ searchTarget (stdHash s) <:+: ledger.getD []

/-! ## The runner and the ledger -/

/-- **The runner refuses what the analyzer rejects or the ledger reports**, and nothing
else. -/
theorem runnerRefuses_iff (stdHash : StdHash) (ledger : Option Text) (s : Text) :
    RunnerRefuses stdHash ledger s ↔ RunnerStops stdHash ledger s := by
  constructor
  · intro hrefuses
    by_contra hstops
    rw [RunnerStops, not_or, Bool.not_eq_false] at hstops
    obtain ⟨hsafe, htarget⟩ := hstops
    obtain ⟨io, hio⟩ := exists_clean ledger
    have hban : isBanned stdHash io s = false := by
      rw [← Bool.not_eq_true, isBanned_clean hio]
      exact htarget
    -- nothing stops the source, so its compiler is forked
    have hcompiler : Pipeline.Child.compiler ∈ (endState (Pipeline.evaluateAndExecuteWith
        .harmless stdHash (.working io) s [] (.fresh ledger))).forks :=
      Pipeline.compiler_of_not_refused .harmless [] hsafe hban rfl rfl rfl rfl _
    have hnone := hrefuses .harmless (.working io) (.fresh ledger) [] rfl fun io' hio' => by
      rwa [← Except.ok.inj hio']
    rw [hnone] at hcompiler
    exact absurd hcompiler List.not_mem_nil
  · intro hstops program env w mutationId _ hclean
    refine Pipeline.noFork_of_refused program mutationId ?_ w
    rcases hstops with hrejected | htarget
    · exact Or.inl hrejected
    · exact Or.inr fun io hio => (isBanned_clean (hclean io hio) s).mpr htarget

/-! ## The guarded run and the log -/

/-- A call on a reported content has not passed its check. -/
def RefusedInv (files : Nat → Guarded.MutationFile) (s : Text) (t : Guarded.State) : Prop :=
  isQuarantined s t.log = true ∧
    ∀ p, (files p).content = s → t.pc p = .started ∨ ∃ r, t.pc p = .returned r

/-- Moving a call on keeps the refusal. -/
theorem refusedInv_setPc {files : Nat → Guarded.MutationFile} {s : Text} {t : Guarded.State}
    {p : Nat} {pc : Guarded.CallPc} (hinv : RefusedInv files s t)
    (hpc : (files p).content = s → pc = .started ∨ ∃ r, pc = .returned r) :
    RefusedInv files s (t.setPc p pc) := by
  refine ⟨hinv.1, fun q hq => ?_⟩
  rcases eq_or_ne q p with rfl | hne
  · rw [Guarded.State.setPc_self]
    exact hpc hq
  · rw [Guarded.State.setPc_of_ne t pc hne]
    exact hinv.2 q hq

/-- A call on a reported content is at none of the stages behind its check. -/
theorem RefusedInv.ne_of_pc {files : Nat → Guarded.MutationFile} {s : Text} {t : Guarded.State}
    {p : Nat} (hinv : RefusedInv files s t) (hstarted : t.pc p ≠ .started)
    (hreturned : ∀ r, t.pc p ≠ .returned r) : (files p).content ≠ s := by
  intro hp
  rcases hinv.2 p hp with h | ⟨r, h⟩
  · exact hstarted h
  · exact hreturned r h

/-- **Step lemma.** The check stops a reported content, and no call unreports it. -/
theorem refusedInv_step {files : Nat → Guarded.MutationFile} {s : Text} {t t' : Guarded.State}
    (a : Guarded.Act) (hinv : RefusedInv files s t) (h : Guarded.step files t a = some t') :
    RefusedInv files s t' := by
  cases a with
  | check p =>
    obtain ⟨-, rfl⟩ := Guarded.step_check.mp h
    -- the check finds the content, and the call returns
    refine refusedInv_setPc hinv fun hp => ?_
    rw [hp, hinv.1]
    exact Or.inr ⟨false, rfl⟩
  | acquire p =>
    obtain ⟨⟨hpc, -⟩, rfl⟩ := Guarded.step_acquire.mp h
    -- only calls on other contents are behind their check
    have hother := hinv.ne_of_pc (by rw [hpc]; simp) (by rw [hpc]; simp)
    have hlocked : RefusedInv files s { t with holder := some p } := hinv
    exact refusedInv_setPc hlocked fun hp => absurd hp hother
  | fork p =>
    obtain ⟨hpc, rfl⟩ := Guarded.step_fork.mp h
    have hother := hinv.ne_of_pc (by rw [hpc]; simp) (by rw [hpc]; simp)
    exact refusedInv_setPc hinv fun hp => absurd hp hother
  | wait p status =>
    obtain ⟨hpc, rfl⟩ := Guarded.step_wait.mp h
    have hother := hinv.ne_of_pc (by rw [hpc]; simp) (by rw [hpc]; simp)
    exact refusedInv_setPc hinv fun hp => absurd hp hother
  | record p now =>
    obtain ⟨n, hpc, rfl⟩ := Guarded.step_record.mp h
    have hother := hinv.ne_of_pc (by rw [hpc]; simp) (by rw [hpc]; simp)
    -- another call's record leaves the records of the log in place
    have hkept : isQuarantined s
        ((StoreOp.quarantine (files p).path (files p).content n now).apply ⟨t.log, none, none⟩).log
          = true := apply_keeps (by simp) hinv.1
    have hlogged : RefusedInv files s
        { t with log := Guarded.recordedLog (files p) n now t.log } := ⟨hkept, hinv.2⟩
    exact refusedInv_setPc hlogged fun hp => absurd hp hother
  | leave p =>
    obtain ⟨r, -, rfl⟩ := Guarded.step_leave.mp h
    have hfree : RefusedInv files s { t with holder := none } := hinv
    exact refusedInv_setPc hfree fun _ => Or.inr ⟨r, rfl⟩

/-- The shortest run to a fork. -/
theorem fork_of_unreported {log : Option Text} {s : Text} (h : isQuarantined s log = false) :
    ∃ t, exec (Guarded.step fun _ => ⟨[], s⟩) (Guarded.start log)
        [.check 0, .acquire 0, .fork 0] = some t ∧ t.pc 0 = .forked := by
  obtain ⟨t₁, ht₁⟩ : ∃ t₁, t₁ = (Guarded.start log).setPc 0 .cleared := ⟨_, rfl⟩
  obtain ⟨t₂, ht₂⟩ : ∃ t₂, t₂ = { t₁ with holder := some 0 }.setPc 0 .leased := ⟨_, rfl⟩
  have hcheck : Guarded.step (fun _ => ⟨[], s⟩) (Guarded.start log) (.check 0) = some t₁ := by
    refine Guarded.step_check.mpr ⟨rfl, ?_⟩
    show t₁ = (Guarded.start log).setPc 0 (if isQuarantined s log = true then _ else _)
    rw [ht₁, h]
    rfl
  have hacquire : Guarded.step (fun _ => ⟨[], s⟩) t₁ (.acquire 0) = some t₂ := by
    refine Guarded.step_acquire.mpr ⟨⟨?_, ?_⟩, ht₂⟩
    · rw [ht₁, Guarded.State.setPc_self]
    · rw [ht₁, Guarded.State.setPc_holder]
      rfl
  have hfork : Guarded.step (fun _ => ⟨[], s⟩) t₂ (.fork 0) = some (t₂.setPc 0 .forked) :=
    Guarded.step_fork.mpr ⟨by rw [ht₂, Guarded.State.setPc_self], rfl⟩
  refine ⟨t₂.setPc 0 .forked, ?_, Guarded.State.setPc_self _ _ _⟩
  rw [exec_cons, hcheck, Option.bind_some, exec_cons, hacquire, Option.bind_some, exec_cons,
    hfork, Option.bind_some, exec_nil]

/-- **The guarded run refuses what the log reports**, and nothing else. -/
theorem guardedRunRefuses_iff (log : Option Text) (s : Text) :
    GuardedRunRefuses log s ↔ isQuarantined s log = true := by
  constructor
  · intro hrefuses
    by_contra hfresh
    rw [Bool.not_eq_true] at hfresh
    obtain ⟨t, hrun, hforked⟩ := fork_of_unreported hfresh
    exact hrefuses _ 0 _ t rfl hrun hforked
  · intro hreported files p as t hp hrun
    have hinv : RefusedInv files s t := by
      -- by induction on the run
      refine exec_invariant (fun _ a _ hi hs => refusedInv_step a hi hs) ?_ hrun
      exact ⟨hreported, fun _ _ => Or.inl rfl⟩
    rcases hinv.2 p hp with h | ⟨r, h⟩
    · rw [h]
      simp
    · rw [h]
      simp

/-! ## Both -/

/-- A source is never run again exactly if both stores stop it. -/
theorem neverRunAgain_iff (stdHash : StdHash) (m : Memory) (s : Text) :
    NeverRunAgain stdHash m s ↔
      RunnerStops stdHash m.ledger s ∧ isQuarantined s m.files.log = true := by
  rw [NeverRunAgain, runnerRefuses_iff, guardedRunRefuses_iff]

/-! ## What the calls record -/

/-- The append does not get to replace the log. -/
def AppendIO.GivesUp (io : AppendIO) : Prop :=
  io.lock = false ∨ io.tmp = false ∨ io.rename = false

/-- The append reads the whole log and replaces it by the whole of the new one. -/
structure AppendIO.Whole (io : AppendIO) (log : Option Text) : Prop where
  lock   : io.lock = true
  read   : readExisting io.read log = log.getD []
  tmp    : io.tmp = true
  write  : io.write = .complete
  rename : io.rename = true

/-- What an append that replaces the log keeps of it: what it has read, as far as it is written. -/
def AppendIO.kept (io : AppendIO) (log : Option Text) : Text :=
  io.write.bytes (withHeader (readExisting io.read log))

/-- The log ends in a newline, or is empty. -/
def Closed (log : Option Text) : Prop := lastLine newline (log.getD []) = []

/-- The call writes the hash of the source into the log, on a line of its own. -/
def MemoryOp.Logs (op : MemoryOp) (m : Memory) (s : Text) : Prop :=
  match op with
  | .quarantine io _ content _ _ | .quarantineByContent io content _ _ _ =>
    structuralHash content = structuralHash s ∧ io.Whole m.files.log ∧ Closed m.files.log
  | .merge call =>
    hashText (structuralHash s) ∈ (mergePeerSignaturesGuarded call m.files).1 ∧
      Closed m.files.log
  | .ban .. => False

/-- The call does not cut the record of the source off the log. -/
def MemoryOp.KeepsRecord (op : MemoryOp) (m : Memory) (s : Text) : Prop :=
  match op with
  | .quarantine io .. | .quarantineByContent io .. =>
    io.GivesUp ∨ hashText (structuralHash s) ∈ hashFields (io.kept m.files.log)
  | .merge _ | .ban .. => True

/-- The call writes the hash of the source into the ledger, up to its bar at least. -/
def MemoryOp.Bans (stdHash : StdHash) (op : MemoryOp) (s : Text) : Prop :=
  match op with
  | .ban io sourceCode _ => stdHash sourceCode = stdHash s ∧ io.opens = true ∧ io.flock = true ∧
      ∀ n, io.write = some n → (searchTarget (stdHash s)).length ≤ n
  | _ => False

/-- Some call has put the source into the log, and none behind it cuts the record off. -/
def LogRemembers (stdHash : StdHash) (ops : List MemoryOp) (s : Text) : Prop :=
  ∃ a op b, ops = a ++ op :: b ∧ op.Logs (remember stdHash a) s ∧
    ∀ c later d, b = c ++ later :: d →
      later.KeepsRecord (remember stdHash (a ++ op :: c)) s

/-- Some call has put the source into the ledger. -/
def LedgerRemembers (stdHash : StdHash) (ops : List MemoryOp) (s : Text) : Prop :=
  ∃ op ∈ ops, op.Bans stdHash s

section Histories

variable {stdHash : StdHash} {m : Memory} {s : Text}

/-- The last operation comes last. -/
theorem remember_concat (ops : List MemoryOp) (op : MemoryOp) :
    remember stdHash (ops ++ [op]) = op.apply stdHash (remember stdHash ops) := by
  rw [remember, List.foldl_concat]
  rfl

/-! ### The log -/

/-- The log behind an append that is whole. -/
theorem AppendIO.Whole.log {io : AppendIO} {files : LogFiles} (h : io.Whole files.log)
    (hash : UInt64) (signalNum now : Int) (sourceLabel : Text) :
    (atomicQuarantineAppend io hash signalNum now sourceLabel files).log =
      some (withHeader (files.log.getD []) ++ quarantineEntry hash signalNum now sourceLabel) := by
  rw [atomicQuarantineAppend_log, if_pos ⟨h.lock, h.tmp, h.rename⟩, h.read, h.write]
  rfl

/-- An append that gives up leaves the log. -/
theorem AppendIO.GivesUp.log {io : AppendIO} (h : io.GivesUp) (hash : UInt64)
    (signalNum now : Int) (sourceLabel : Text) (files : LogFiles) :
    (atomicQuarantineAppend io hash signalNum now sourceLabel files).log = files.log := by
  rw [atomicQuarantineAppend_log, if_neg]
  rintro ⟨hlock, htmp, hrename⟩
  rcases h with h | h | h
  · simp [h] at hlock
  · simp [h] at htmp
  · simp [h] at hrename

/-- What is kept is where the new log starts. -/
theorem AppendIO.kept_prefix (io : AppendIO) (log : Option Text) (entry : Text) :
    io.kept log <+: io.write.bytes (withHeader (readExisting io.read log) ++ entry) := by
  unfold AppendIO.kept
  cases io.write with
  | complete => exact List.prefix_append ..
  | cut n => exact List.IsPrefix.take (List.prefix_append ..) n

/-- **Step lemma.** A record that the call does not cut off stays. -/
theorem MemoryOp.keeps {op : MemoryOp} (h : isQuarantined s m.files.log = true)
    (hkeeps : op.KeepsRecord m s) : isQuarantined s (op.apply stdHash m).files.log = true := by
  -- the two appends differ in their labels only
  have happend : ∀ (io : AppendIO) (hash : UInt64) (signalNum now : Int) (label : Text),
      io.GivesUp ∨ hashText (structuralHash s) ∈ hashFields (io.kept m.files.log) →
      isQuarantined s
        (atomicQuarantineAppend io hash signalNum now label m.files).log = true := by
    rintro io hash signalNum now label (hgives | hkept)
    · rw [hgives.log]
      exact h
    · rw [atomicQuarantineAppend_log]
      split
      · obtain ⟨rest, hrest⟩ := io.kept_prefix m.files.log (quarantineEntry hash signalNum now label)
        rw [isQuarantined_iff, Option.getD_some, ← hrest]
        exact hashFields_subset_append _ rest hkept
      · exact h
  cases op with
  | quarantine io path content signalNum now => exact happend io _ signalNum now path hkeeps
  | quarantineByContent io content label signalNum now =>
    exact happend io _ signalNum now _ hkeeps
  | merge call =>
    rw [isQuarantined_iff]
    exact hashFields_subset_merge call m.files (isQuarantined_iff.mp h)
  | ban io sourceCode exitCode => exact h

/-- A call that logs the source makes the log report it. -/
theorem MemoryOp.Logs.reported {op : MemoryOp} (h : op.Logs m s) :
    isQuarantined s (op.apply stdHash m).files.log = true := by
  have happend : ∀ (io : AppendIO) (content : Text) (signalNum now : Int) (label : Text),
      structuralHash content = structuralHash s ∧ io.Whole m.files.log ∧ Closed m.files.log →
      isQuarantined s
        (atomicQuarantineAppend io (structuralHash content) signalNum now label
          m.files).log = true := by
    rintro io content signalNum now label ⟨hhash, hwhole, hclosed⟩
    rw [hwhole.log, isQuarantined_iff, Option.getD_some, hhash]
    refine mem_hashFields_quarantineEntry ?_ _ _ _ _
    rw [lastLine_withHeader]
    exact hclosed
  cases op with
  | quarantine io path content signalNum now => exact happend io content signalNum now path h
  | quarantineByContent io content label signalNum now =>
    exact happend io content signalNum now _ h
  | merge call =>
    obtain ⟨himported, hclosed⟩ := h
    have hvalid : ∀ hash ∈ (mergePeerSignaturesGuarded call m.files).1, IsHash hash :=
      isHash_of_mem_merge call m.files
    rw [isQuarantined_iff]
    exact imports_subset_log call m.files hclosed rfl hvalid himported
  | ban io sourceCode exitCode => exact h.elim

/-- **Run lemma.** What the log remembers it reports behind the history, by induction on the
calls behind the record. -/
theorem isQuarantined_of_logRemembers {ops : List MemoryOp} (h : LogRemembers stdHash ops s) :
    isQuarantined s (remember stdHash ops).files.log = true := by
  obtain ⟨a, op, b, rfl, hlogs, hkept⟩ := h
  induction b using List.reverseRecOn with
  | nil =>
    rw [remember_concat]
    exact hlogs.reported
  | append_singleton b later ih =>
    have hbefore := ih fun c later' d hb => hkept c later' (d ++ [later]) (by simp [hb])
    rw [← List.cons_append, ← List.append_assoc, remember_concat]
    exact MemoryOp.keeps hbefore (hkept b later [] (by simp))

/-! ### The ledger -/

/-- No call takes anything out of the ledger. -/
theorem MemoryOp.ledger_prefix (op : MemoryOp) (m : Memory) :
    m.ledger.getD [] <+: (op.apply stdHash m).ledger.getD [] := by
  cases op with
  | ban io sourceCode exitCode => exact prefix_appendToLedger io _ m.ledger
  | quarantine io path content signalNum now => exact List.prefix_refl _
  | quarantineByContent io content label signalNum now => exact List.prefix_refl _
  | merge call => exact List.prefix_refl _

/-- A ban is found in the ledger behind it. -/
theorem MemoryOp.Bans.mem_ledger {op : MemoryOp} (h : op.Bans stdHash s) :
    searchTarget (stdHash s) <:+: (op.apply stdHash m).ledger.getD [] := by
  cases op with
  | ban io sourceCode exitCode =>
    obtain ⟨hhash, hopens, hflock, hwrite⟩ := h
    -- the entry starts with what is searched for
    have hentry : searchTarget (stdHash s) <+: banEntry (stdHash sourceCode) exitCode := by
      rw [hhash]
      exact searchTarget_prefix_banEntry (stdHash s) exitCode
    show _ <:+: (appendToLedger io _ m.ledger).getD []
    unfold appendToLedger
    rw [if_neg (by rw [hopens]; simp), if_neg (by rw [hflock]; simp), Option.getD_some]
    refine List.IsInfix.trans (List.IsPrefix.isInfix ?_) (List.suffix_append ..).isInfix
    cases hn : io.write with
    | none => exact hentry
    | some n => exact List.prefix_take_iff.mpr ⟨hentry, hwrite n hn⟩
  | quarantine io path content signalNum now => exact h.elim
  | quarantineByContent io content label signalNum now => exact h.elim
  | merge call => exact h.elim

/-- **Run lemma.** What the ledger remembers stands in it behind the history. -/
theorem mem_ledger_of_ledgerRemembers {ops : List MemoryOp} (h : LedgerRemembers stdHash ops s) :
    searchTarget (stdHash s) <:+: (remember stdHash ops).ledger.getD [] := by
  obtain ⟨op, hmem, hbans⟩ := h
  induction ops using List.reverseRecOn with
  | nil => exact absurd hmem List.not_mem_nil
  | append_singleton ops last ih =>
    rw [remember_concat]
    rcases List.mem_append.mp hmem with hold | hlast
    · exact List.IsInfix.trans (ih hold) (last.ledger_prefix _).isInfix
    · rw [← List.mem_singleton.mp hlast]
      exact hbans.mem_ledger

/-! ### Whole calls -/

/-- Nothing of the call is cut: its append gives up or is whole, with a label of one line, and
its ban writes its entry or nothing. -/
def MemoryOp.IsWhole (op : MemoryOp) (m : Memory) : Prop :=
  match op with
  | .quarantine io label .. | .quarantineByContent io _ label .. =>
    newline ∉ label ∧ (io.GivesUp ∨ io.Whole m.files.log)
  | .merge call => newline ∉ call.peerCsvPath
  | .ban io .. => io.write = none

/-- So is every call of the history, where it comes. -/
def WholeCalls (stdHash : StdHash) (ops : List MemoryOp) : Prop :=
  ∀ a op b, ops = a ++ op :: b → op.IsWhole (remember stdHash a)

/-- Some call has put the source into the log. -/
def Logged (stdHash : StdHash) (ops : List MemoryOp) (s : Text) : Prop :=
  ∃ a op b, ops = a ++ op :: b ∧ op.Logs (remember stdHash a) s

/-- The ban that the call writes. -/
def MemoryOp.banned : MemoryOp → Option (Text × Int)
  | .ban io sourceCode exitCode =>
    if io.opens = true ∧ io.flock = true then some (sourceCode, exitCode) else none
  | _ => none

/-- The bans that a history writes. -/
def bansOf (ops : List MemoryOp) : List (Text × Int) := ops.filterMap MemoryOp.banned

/-- An append that is whole leaves a closed log, and adds one record. -/
theorem AppendIO.Whole.adds {io : AppendIO} {files : LogFiles} (h : io.Whole files.log)
    (hclosed : Closed files.log) (content : Text) (signalNum now : Int) {label : Text}
    (hlabel : newline ∉ label) :
    Closed (atomicQuarantineAppend io (structuralHash content) signalNum now label files).log ∧
      (isQuarantined s
          (atomicQuarantineAppend io (structuralHash content) signalNum now label
            files).log = true ↔
        isQuarantined s files.log = true ∨ structuralHash content = structuralHash s) := by
  have hheader : lastLine newline (withHeader (files.log.getD [])) = [] := by
    rw [lastLine_withHeader]
    exact hclosed
  obtain ⟨line, hentry, -⟩ :=
    quarantineEntry_eq_line (structuralHash content) signalNum now hlabel
  rw [h.log]
  constructor
  · rw [Closed, Option.getD_some, hentry, ← List.append_assoc]
    exact lastLine_append_sep _
  · rw [isQuarantined_iff, isQuarantined_iff, Option.getD_some,
      hashFields_append_quarantineEntry hheader _ _ _ hlabel, hashFields_withHeader,
      List.mem_append, List.mem_singleton, hashText_injective.eq_iff]
    exact or_congr Iff.rfl eq_comm

/-- **Step lemma.** A whole call leaves a closed log, which reports what it did before, and what
the call has put there. -/
theorem MemoryOp.IsWhole.adds {op : MemoryOp} (hwhole : op.IsWhole m)
    (hclosed : Closed m.files.log) :
    Closed (op.apply stdHash m).files.log ∧
      (isQuarantined s (op.apply stdHash m).files.log = true ↔
        isQuarantined s m.files.log = true ∨ op.Logs m s) := by
  -- both ways to quarantine are one append
  have happend : ∀ (io : AppendIO) (content : Text) (signalNum now : Int) (label : Text),
      newline ∉ label → io.GivesUp ∨ io.Whole m.files.log →
      Closed (atomicQuarantineAppend io (structuralHash content) signalNum now label
          m.files).log ∧
        (isQuarantined s (atomicQuarantineAppend io (structuralHash content) signalNum now label
            m.files).log = true ↔
          isQuarantined s m.files.log = true ∨ structuralHash content = structuralHash s ∧
            io.Whole m.files.log ∧ Closed m.files.log) := by
    rintro io content signalNum now label hlabel (hgives | hio)
    · rw [hgives.log]
      refine ⟨hclosed, (or_iff_left ?_).symm⟩
      rintro ⟨-, hio, -⟩
      rcases hgives with h | h | h
      · exact absurd (h.symm.trans hio.lock) (by simp)
      · exact absurd (h.symm.trans hio.tmp) (by simp)
      · exact absurd (h.symm.trans hio.rename) (by simp)
    · obtain ⟨hnew, hadds⟩ := hio.adds (s := s) hclosed content signalNum now hlabel
      refine ⟨hnew, hadds.trans (or_congr_right ?_)⟩
      simp only [hio, hclosed, and_true]
  cases op with
  | quarantine io path content signalNum now =>
    exact happend io content signalNum now path hwhole.1 hwhole.2
  | quarantineByContent io content label signalNum now =>
    refine happend io content signalNum now _ ?_ hwhole.2
    rw [List.mem_append, not_or]
    exact ⟨by decide, hwhole.1⟩
  | merge call =>
    -- a merge adds its imports behind whole lines
    have hvalid := isHash_of_mem_merge call m.files
    have hlog := merge_log call m.files
    refine ⟨?_, ?_⟩
    · show lastLine newline ((mergePeerSignaturesGuarded call m.files).2.log.getD []) = []
      rw [hlog, lastLine_append, hclosed, List.nil_append]
      exact lastLine_output call _
    · show isQuarantined s (mergePeerSignaturesGuarded call m.files).2.log = true ↔ _ ∨
        (hashText (structuralHash s) ∈ (mergePeerSignaturesGuarded call m.files).1 ∧ _)
      rw [isQuarantined_iff, isQuarantined_iff, hlog, hashFields, keys_append_of_closed hclosed,
        List.mem_append]
      refine or_congr Iff.rfl ?_
      rw [← hashFields, hashFields_output call hwhole hvalid]
      exact (and_iff_left hclosed).symm
  | ban io sourceCode exitCode => exact ⟨hclosed, (or_iff_left id).symm⟩

/-- **Run lemma.** After whole calls the log reports what some call has put there. -/
theorem isQuarantined_iff_logged {ops : List MemoryOp} (hwhole : WholeCalls stdHash ops) :
    Closed (remember stdHash ops).files.log ∧
      (isQuarantined s (remember stdHash ops).files.log = true ↔ Logged stdHash ops s) := by
  -- by induction on the calls, the last one apart
  induction ops using List.reverseRecOn with
  | nil =>
    refine ⟨rfl, iff_of_false ?_ ?_⟩
    · rw [isQuarantined_iff]
      exact List.not_mem_nil
    · rintro ⟨a, op, b, hnil, -⟩
      simp at hnil
  | append_singleton ops last ih =>
    obtain ⟨hclosed, hiff⟩ := ih fun a op b hsplit => hwhole a op (b ++ [last]) (by simp [hsplit])
    have hlast := hwhole ops last [] rfl
    obtain ⟨hnew, hadds⟩ := hlast.adds (s := s) hclosed
    rw [remember_concat]
    refine ⟨hnew, hadds.trans ?_⟩
    rw [hiff]
    constructor
    · rintro (⟨a, op, b, rfl, hlogs⟩ | hlogs)
      · exact ⟨a, op, b ++ [last], by simp, hlogs⟩
      · exact ⟨ops, last, [], rfl, hlogs⟩
    · rintro ⟨a, op, b, hsplit, hlogs⟩
      rcases List.eq_nil_or_concat b with rfl | ⟨b, x, rfl⟩
      · obtain ⟨rfl, hop⟩ := List.append_inj' hsplit rfl
        obtain rfl := List.singleton_inj.mp hop
        exact Or.inr hlogs
      · left
        rw [List.concat_eq_append, ← List.cons_append, ← List.append_assoc] at hsplit
        exact ⟨a, op, b, (List.append_inj' hsplit rfl).1, hlogs⟩

/-- After whole calls the ledger is that of the bans of the history. -/
theorem ledger_eq_banAll {ops : List MemoryOp} (hwhole : WholeCalls stdHash ops) :
    (remember stdHash ops).ledger.getD [] = (banAll stdHash (bansOf ops)).getD [] := by
  induction ops using List.reverseRecOn with
  | nil => rfl
  | append_singleton ops last ih =>
    have hbefore := ih fun a op b hsplit => hwhole a op (b ++ [last]) (by simp [hsplit])
    have hlast := hwhole ops last [] rfl
    rw [banAll_getD] at hbefore ⊢
    rw [remember_concat, bansOf, List.filterMap_append, List.flatMap_append]
    cases last with
    | ban io sourceCode exitCode =>
      have hwrite : io.write = none := hlast
      show (appendToLedger io _ _).getD [] = _
      unfold appendToLedger
      -- the entry, when the ledger opens and is locked
      cases hopens : io.opens with
      | false => simpa [MemoryOp.banned, hopens, bansOf] using hbefore
      | true =>
        cases hflock : io.flock with
        | false => simpa [MemoryOp.banned, hopens, hflock, bansOf] using hbefore
        | true => simpa [MemoryOp.banned, hopens, hflock, hwrite, bansOf] using hbefore
    | quarantine io path content signalNum now => exact hbefore.trans (List.append_nil _).symm
    | quarantineByContent io content label signalNum now =>
      exact hbefore.trans (List.append_nil _).symm
    | merge call => exact hbefore.trans (List.append_nil _).symm

end Histories

/-- **A source is never run again when both stores remember it**, or the log does and the
analyzer rejects it: after any history of calls, a record in the log that no later append cuts
off keeps it from the guarded run, and the verdict or a record in the ledger from the runner.

Where no call is cut there are no others: the source is in the log, and it is rejected or some
banned source has a decimal hash that ends in its own. -/
theorem neverRunAgain_of_remembered (stdHash : StdHash) (ops : List MemoryOp) (s : Text) :
    (LogRemembers stdHash ops s →
      ((evaluateMutation s).isSafe = false ∨ LedgerRemembers stdHash ops s) →
      NeverRunAgain stdHash (remember stdHash ops) s) ∧
    (WholeCalls stdHash ops →
      (NeverRunAgain stdHash (remember stdHash ops) s ↔
        Logged stdHash ops s ∧ ((evaluateMutation s).isSafe = false ∨
          ∃ ban ∈ bansOf ops, decimal (stdHash s).toNat <:+ decimal (stdHash ban.1).toNat))) := by
  constructor
  · intro hlog hother
    rw [neverRunAgain_iff]
    refine ⟨?_, isQuarantined_of_logRemembers hlog⟩
    rcases hother with hrejected | hledger
    · exact Or.inl hrejected
    · exact Or.inr (mem_ledger_of_ledgerRemembers hledger)
  · intro hwhole
    rw [neverRunAgain_iff, (isQuarantined_iff_logged hwhole).2, RunnerStops,
      ledger_eq_banAll hwhole, searchTarget_infix_banAll, and_comm]

/-- A source that is quarantined under its path and banned. -/
def bothStores : List MemoryOp :=
  [.quarantine .clean (ascii "m.cpp") acceptedSource 11 1700000000,
   .ban .clean acceptedSource 255]

/-- The two records keep the source from both runners; without the ban the analyzer, which
accepts it, would not. -/
theorem neverRunAgain_of_remembered_bothStores :
    NeverRunAgain suffixHash (remember suffixHash bothStores) acceptedSource ∧
      ¬ NeverRunAgain suffixHash (remember suffixHash (bothStores.take 1)) acceptedSource := by
  have hwhole : AppendIO.clean.Whole none := ⟨rfl, rfl, rfl, rfl, rfl⟩
  constructor
  · refine (neverRunAgain_of_remembered suffixHash bothStores acceptedSource).1 ?_ (Or.inr ?_)
    · refine ⟨[], _, _, rfl, ⟨rfl, hwhole, rfl⟩, ?_⟩
      intro c later d hb
      cases c with
      | nil =>
        obtain ⟨rfl, -⟩ := List.cons.inj hb
        trivial
      | cons x c => simp at hb
    · exact ⟨.ban .clean acceptedSource 255, by simp [bothStores], rfl, rfl, rfl,
        fun n hn => absurd hn (by simp [ LedgerWriteIO.clean])⟩
  · rw [(neverRunAgain_of_remembered suffixHash (bothStores.take 1) acceptedSource).2 ?_]
    · rintro ⟨-, hrejected | ⟨ban, hban, -⟩⟩
      · exact absurd hrejected (by decide)
      · exact absurd hban (by simp [bansOf, bothStores, MemoryOp.banned])
    · intro a op b hsplit
      cases a with
      | nil =>
        obtain ⟨rfl, -⟩ := List.cons.inj hsplit
        exact ⟨by decide, Or.inr hwhole⟩
      | cons x a => simp [bothStores] at hsplit

/-- **A ban does not reach the guarded run**: a mutation that was banned in the ledger is
forked by the next `run_guarded_mutation`. -/
theorem immune_fails_across_stores :
    ¬ ∀ (stdHash : StdHash) (ops : List MemoryOp) (s : Text),
        Recorded stdHash ops s → NeverRunAgain stdHash (remember stdHash ops) s := by
  intro h
  have hrecorded : Recorded suffixHash [.ban .clean (ascii "bad") 254] (ascii "bad") :=
    ⟨[], .ban .clean (ascii "bad") 254, [], rfl, rfl, by decide⟩
  have hnever := h suffixHash _ _ hrecorded
  have hrun : (exec (Guarded.step fun _ => ⟨ascii "m.cpp", ascii "bad"⟩) (Guarded.start none)
      [.check 0, .acquire 0, .fork 0]).map (fun t => t.pc 0) = some .forked := by decide
  obtain ⟨t, ht, hforked⟩ := Option.map_eq_some_iff.mp hrun
  exact hnever.2 _ 0 _ t rfl ht hforked

end Swayam
