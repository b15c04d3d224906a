import Mathlib.Data.List.Nodup
import Swayam.Ledger.System

/-!
# SWAYAM — the calls on a ledger are atomic

* `clean_of_reads` — a query whose system calls succeed has read the ledger of every
  moment in which it held its lock;
* `appended_run` — the ledger is what it was at the start, and behind it what each
  process has written, whole or torn, once;
* `ban_is_seen` — so a ban is seen by every later check, and no runner forks for the
  source any more;
* `registration_is_seen` — and a registered hash by every later query.
-/

namespace Swayam.Ledger

open Interleaving Machine

/-! ## Queries -/

/-- The reads have delivered these chunks. -/
def Chunks (reads : List (Option Text)) : Prop :=
  ∀ r ∈ reads, ∃ chunk, r = some chunk ∧ chunk ≠ [] ∧ chunk.length ≤ 4096

theorem joined_concat (reads : List (Option Text)) (chunk : Text) :
    joined (reads ++ [some chunk]) = joined reads ++ chunk := by
  simp [joined]

/-- Chunks up to the end are the reads of what they join to. -/
theorem readsOf_chunks {reads : List (Option Text)} (h : Chunks reads) :
    ReadsOf (joined reads) (reads ++ [some []]) := by
  induction reads with
  | nil => exact .eof []
  | cons r reads ih =>
    obtain ⟨chunk, rfl, hne, hlength⟩ := h r List.mem_cons_self
    have hrest := ih fun r hr => h r (List.mem_cons_of_mem _ hr)
    exact .chunk chunk (joined reads) (reads ++ [some []]) hne hlength hrest

section Read

variable {k : Kernel} {reads : List (Option Text)} {n : Nat}

/-- The next chunk goes on where the reads stand. -/
theorem joined_read (h : joined reads <+: k.text) :
    joined reads ++ k.read reads n <+: k.text := by
  obtain ⟨rest, hrest⟩ := h
  have hread : k.read reads n = rest.take (min (n + 1) 4096) := by
    rw [Kernel.read, ← hrest, List.drop_left]
  rw [hread, ← hrest, List.prefix_append_right_inj]
  exact List.take_prefix _ _

/-- At the end everything has been read. -/
theorem joined_eq_of_end (h : joined reads <+: k.text) (hend : k.read reads n = []) :
    joined reads = k.text := by
  obtain ⟨rest, hrest⟩ := h
  have hread : k.read reads n = rest.take (min (n + 1) 4096) := by
    rw [Kernel.read, ← hrest, List.drop_left]
  rw [hread, List.take_eq_nil_iff] at hend
  rcases hend with hzero | rfl
  · omega
  · rw [← hrest, List.append_nil]

/-- One more read is one more chunk. -/
theorem chunks_concat (h : Chunks reads) (hchunk : k.read reads n ≠ []) :
    Chunks (reads ++ [some (k.read reads n)]) := by
  intro r hr
  rcases List.mem_append.mp hr with hr | hr
  · exact h r hr
  · refine ⟨_, List.mem_singleton.mp hr, hchunk, ?_⟩
    rw [Kernel.read, List.length_take]
    omega

end Read

/-- The system calls of the query have succeeded. -/
def Succeeded (io : LedgerIO) : Prop := io.opens = true ∧ io.flock = true ∧ none ∉ io.reads

/-- What a reader has in hand is the beginning of the ledger. -/
def ReadsAlong (text : Text) (pc : Pc) : Prop :=
  ∃ reads, pc = .reading reads ∧ Chunks reads ∧ joined reads <+: text

/-- What every process that reads has in hand. -/
def Reading (s : Sys) : Prop := ∀ q, (s.proc q).Reads → ReadsAlong s.shared.text (s.proc q)

section Steps

variable {s s' : Sys} {e : Event}

/-- **Step lemma.** -/
theorem reading_step (h : Reading s) (hs : step s e = some s') : Reading s' := by
  obtain ⟨p, act⟩ := e
  obtain ⟨k', pc', hmove, rfl⟩ := step_eq_some.mp hs
  have hmoved := move_moved hmove
  have hgrows := hmoved.grows
  refine forall_update (P := fun _ (pc : Pc) => pc.Reads → ReadsAlong k'.text pc) ?_ ?_
  · intro hr
    generalize hpc : s.proc p = pc at hmoved
    cases hmoved with
    | lockedSh => exact ⟨[], rfl, fun r hr => absurd hr List.not_mem_nil, List.nil_prefix⟩
    | read reads n hchunk =>
      obtain ⟨reads', heq, hchunks, hjoined⟩ := h p (hpc ▸ trivial)
      obtain rfl := Pc.reading.inj (hpc.symm.trans heq)
      refine ⟨_, rfl, chunks_concat hchunks hchunk, ?_⟩
      rw [joined_concat]
      exact joined_read hjoined
    | silent _ _ _ _ hfree => exact absurd hr hfree.2
    | unlocked _ _ _ hover => cases pc' <;> first | exact hr.elim | exact hover.elim
    | _ => exact hr.elim
  · intro q _ hr
    obtain ⟨reads, heq, hchunks, hjoined⟩ := h q hr
    exact ⟨reads, heq, hchunks, hjoined.trans hgrows⟩

/-- A process whose call is over does not move. -/
theorem over_step {q : Nat} (h : (s.proc q).Over) (hs : step s e = some s') :
    s'.proc q = s.proc q := by
  obtain ⟨p, act⟩ := e
  obtain ⟨k', pc', hmove, rfl⟩ := step_eq_some.mp hs
  have hmoved := move_moved hmove
  show Function.update s.proc p pc' q = s.proc q
  by_cases heq : q = p
  · subst heq
    generalize s.proc q = pc at hmoved h
    cases hmoved with
    | silent _ _ hlive => exact absurd h hlive
    | unlocked _ _ hlive => exact absurd h hlive
    | _ => exact h.elim
  · rw [Function.update_of_ne heq]

end Steps

/-- What has become of a reader since the ledger was this: it reads on, with the ledger as it was;
or it is over, and has read that ledger when its calls succeeded. -/
def ReadOn (ledger : Option Text) (q : Nat) (s : Sys) : Prop :=
  (s.proc q).Reads ∧ s.shared.ledger = ledger ∨
    (s.proc q).Over ∧ ∀ io, s.proc q = .queried io → Succeeded io → io.Clean ledger

/-- **Step lemma.** -/
theorem readOn_step {ledger : Option Text} {q : Nat} {s s' : Sys} {e : Event} (hlocks : Locks s)
    (hreading : Reading s) (h : ReadOn ledger q s) (hs : step s e = some s') :
    ReadOn ledger q s' := by
  rcases h with ⟨hr, hledger⟩ | ⟨hover, hclean⟩
  · have hsame := (ledger_eq_of_reads hlocks hs hr).trans hledger
    have hthere := hlocks.sees q (Or.inr hr)
    obtain ⟨p, act⟩ := e
    obtain ⟨k', pc', hmove, rfl⟩ := step_eq_some.mp hs
    have hmoved := move_moved hmove
    unfold ReadOn
    by_cases heq : q = p
    · subst heq
      rw [show (⟨k', Function.update s.proc q pc'⟩ : Sys).proc q = pc' from Function.update_self ..]
      obtain ⟨reads, hpc, hchunks, hjoined⟩ := hreading q hr
      rw [hpc] at hmoved hr
      cases hmoved with
      | silent _ _ _ hfree => exact absurd hr hfree.2
      | read => exact Or.inl ⟨trivial, hsame⟩
      | finished _ n hend =>
        -- it has come to the end
        refine Or.inr ⟨trivial, fun io hio _ => ?_⟩
        obtain rfl := Pc.queried.inj hio
        have hwhole := joined_eq_of_end hjoined hend
        refine ⟨?_, rfl, fun content hcontent => ?_⟩
        · rw [← hledger]
          exact (Option.isSome_iff_ne_none.mpr hthere).symm
        · rw [← hledger] at hcontent
          rw [Kernel.text, hcontent, Option.getD_some] at hwhole
          exact hwhole ▸ readsOf_chunks hchunks
      | unlocked _ _ _ hover hfails =>
        refine Or.inr ⟨hover, fun io hio hok => ?_⟩
        rw [hio] at hfails
        rcases hfails with hopen | hlock | hread
        · exact absurd (hopen.symm.trans hok.1) (by simp)
        · exact absurd (hlock.symm.trans hok.2.1) (by simp)
        · exact absurd hread hok.2.2
    · rw [show (⟨k', Function.update s.proc p pc'⟩ : Sys).proc q = s.proc q from
        Function.update_of_ne heq ..]
      exact Or.inl ⟨hr, hsame⟩
  · rw [ReadOn, over_step hover hs]
    exact Or.inr ⟨hover, hclean⟩

/-! ## Appends -/

/-- The ledger is the first text and what these processes have written, each once. -/
structure Appended (first : Text) (s : Sys) (writes : List (Nat × Text)) : Prop where
  text  : s.shared.text = first ++ writes.flatMap Prod.snd
  once  : (writes.map Prod.fst).Nodup
  wrote : ∀ p bytes, (s.proc p).wrote = some bytes → (p, bytes) ∈ writes
  only  : ∀ p bytes, (p, bytes) ∈ writes → (s.proc p).wrote = some bytes ∨ s.proc p = .killed

section Appends

variable {k k' : Kernel} {p : Nat} {pc pc' : Pc}

/-- A step writes, or leaves what was written as it is. -/
theorem Moved.wrote_or (h : Moved k p pc k' pc') :
    (∃ bytes, pc.wrote = none ∧ pc ≠ .killed ∧ pc'.wrote = some bytes ∧
      k'.text = k.text ++ bytes) ∨
    (pc ≠ .killed ∧ (pc'.wrote = pc.wrote ∨ pc' = .killed) ∧ k'.text = k.text) := by
  cases h with
  | wrote entry io hio =>
    refine Or.inl ⟨bytesOf io entry, rfl, by simp, ?_, rfl⟩
    rw [Pc.wrote, hio.1, hio.2]
    rfl
  | silent _ _ hlive hfree _ _ _ hwrote =>
    refine Or.inr ⟨fun heq => hlive (heq ▸ trivial), Or.inl ?_, rfl⟩
    rw [hwrote]
    cases pc with
    | written entry io => exact absurd trivial hfree.1
    | appended entry io => exact absurd trivial hlive
    | _ => rfl
  | unlocked _ _ hlive _ _ hwrote => exact Or.inr ⟨fun heq => hlive (heq ▸ trivial), hwrote, rfl⟩
  | _ => exact Or.inr ⟨by simp, Or.inl rfl, rfl⟩

/-- **Step lemma.** -/
theorem appended_step {first : Text} {s s' : Sys} {e : Event} {writes : List (Nat × Text)}
    (h : Appended first s writes) (hs : step s e = some s') :
    ∃ writes', Appended first s' writes' := by
  obtain ⟨p, act⟩ := e
  obtain ⟨k', pc', hmove, rfl⟩ := step_eq_some.mp hs
  rcases (move_moved hmove).wrote_or with ⟨bytes, hnone, halive, hsome, htext⟩ |
    ⟨halive, hwrote, htext⟩
  · -- the writer has not written before
    have hnew : p ∉ writes.map Prod.fst := by
      intro hmem
      obtain ⟨⟨q, b⟩, hqb, rfl⟩ := List.mem_map.mp hmem
      rcases h.only q b hqb with hb | hkilled
      · exact absurd (hnone.symm.trans hb) (by simp)
      · exact halive hkilled
    refine ⟨writes ++ [(p, bytes)], ?_, ?_, ?_, ?_⟩
    · show k'.text = _
      rw [htext, h.text, List.flatMap_append, List.append_assoc]
      simp
    · rw [List.map_append, List.nodup_append]
      refine ⟨h.once, List.nodup_singleton _, fun a ha b hb hab => hnew ?_⟩
      have hp : a = p := hab.trans (List.mem_singleton.mp hb)
      exact hp ▸ ha
    · refine forall_update (P := fun q (pc : Pc) => ∀ b, pc.wrote = some b →
        (q, b) ∈ writes ++ [(p, bytes)]) ?_ ?_
      · intro b hb
        obtain rfl := Option.some.inj (hsome.symm.trans hb)
        simp
      · intro q _ b hb
        exact List.mem_append_left _ (h.wrote q b hb)
    · refine forall_update (P := fun q (pc : Pc) => ∀ b, (q, b) ∈ writes ++ [(p, bytes)] →
        pc.wrote = some b ∨ pc = .killed) ?_ ?_
      · intro b hb
        rcases List.mem_append.mp hb with hold | hlast
        · exact absurd (List.mem_map_of_mem (f := Prod.fst) hold) hnew
        · rw [List.mem_singleton] at hlast
          exact Or.inl ((Prod.mk.inj hlast).2 ▸ hsome)
      · intro q hne b hb
        rcases List.mem_append.mp hb with hold | hlast
        · exact h.only q b hold
        · exact absurd (Prod.mk.inj (List.mem_singleton.mp hlast)).1 hne
  · -- nothing was written in this step
    refine ⟨writes, htext.trans h.text, h.once, ?_, ?_⟩
    · refine forall_update (P := fun q (pc : Pc) => ∀ b, pc.wrote = some b → (q, b) ∈ writes) ?_
        fun q _ => h.wrote q
      intro b hb
      rcases hwrote with hsame | rfl
      · exact h.wrote p b (hsame ▸ hb)
      · exact absurd hb (by simp [Pc.wrote])
    · refine forall_update (P := fun q (pc : Pc) => ∀ b, (q, b) ∈ writes →
        pc.wrote = some b ∨ pc = .killed) ?_ fun q _ => h.only q
      intro b hb
      rcases hwrote with hsame | hkilled
      · rw [hsame]
        exact Or.inl ((h.only p b hb).resolve_right halive)
      · exact Or.inr hkilled

end Appends

/-! ## Whole runs -/

section Runs

variable {ledger : Option Text} {es es₁ es₂ : List Event} {s s₁ : Sys} {q : Nat} {io : LedgerIO}

/-- In every run the locks exclude and readers have read what is there. -/
theorem base_run (hrun : exec step (start ledger) es = some s) : Locks s ∧ Reading s := by
  have hstart : Locks (start ledger) ∧ Reading (start ledger) :=
    ⟨locks_start ledger, fun _ hr => hr.elim⟩
  exact exec_invariant (I := fun s => Locks s ∧ Reading s)
    (fun _ _ _ h hs => ⟨locks_step h.1 hs, reading_step h.2 hs⟩) hstart hrun

/-- What a run appends are whole entries. -/
theorem appended_run (hrun : exec step (start ledger) es = some s) :
    ∃ writes, Appended (ledger.getD []) s writes := by
  have hstart : Appended (ledger.getD []) (start ledger) [] :=
    ⟨(List.append_nil _).symm, List.nodup_nil,
      fun p bytes h => absurd h (by simp [start, Pc.wrote]),
      fun p bytes h => absurd h List.not_mem_nil⟩
  refine exec_invariant (I := fun s => ∃ writes, Appended (ledger.getD []) s writes) ?_
    ⟨[], hstart⟩ hrun
  rintro t e t' ⟨writes, h⟩ hs
  exact appended_step h hs

/-- The ledger only grows. -/
theorem text_grows_run (hrun : exec step s₁ es = some s) : s₁.shared.text <+: s.shared.text := by
  refine exec_invariant (I := fun s => s₁.shared.text <+: s.shared.text) ?_ List.prefix_rfl hrun
  rintro t ⟨p, act⟩ t' h hs
  obtain ⟨k', pc', hmove, rfl⟩ := step_eq_some.mp hs
  exact h.trans (move_moved hmove).grows

/-- **A query has read the ledger** of each moment in which it held its lock. -/
theorem clean_of_reads (h₁ : exec step (start ledger) es₁ = some s₁)
    (h₂ : exec step s₁ es₂ = some s) (hr : (s₁.proc q).Reads) (hio : s.proc q = .queried io)
    (hok : Succeeded io) : io.Clean s₁.shared.ledger := by
  have hbase := base_run h₁
  have hinv : (Locks s ∧ Reading s) ∧ ReadOn s₁.shared.ledger q s := by
    refine exec_invariant (I := fun s => (Locks s ∧ Reading s) ∧ ReadOn s₁.shared.ledger q s)
      (fun _ _ _ h hs => ⟨⟨locks_step h.1.1 hs, reading_step h.1.2 hs⟩,
        readOn_step h.1.1 h.1.2 h.2 hs⟩) ⟨hbase, Or.inl ⟨hr, rfl⟩⟩ h₂
  rcases hinv.2 with ⟨hstill, -⟩ | ⟨-, hclean⟩
  · rw [hio] at hstill
    exact hstill.elim
  · exact hclean io hio hok

/-- **And there is such a moment.** -/
theorem exists_reads (hrun : exec step s₁ es = some s) (hlive : ¬ (s₁.proc q).Over)
    (hio : s.proc q = .queried io) (hok : Succeeded io) :
    ∃ es₁ es₂ t, es = es₁ ++ es₂ ∧ exec step s₁ es₁ = some t ∧ exec step t es₂ = some s ∧
      (t.proc q).Reads := by
  have hcases : ¬ (s.proc q).Over ∨ ((s.proc q).Over ∧ (s.proc q).Fails) ∨
      ∃ es₁ es₂ t, es = es₁ ++ es₂ ∧ exec step s₁ es₁ = some t ∧ exec step t es₂ = some s ∧
        (t.proc q).Reads := by
    refine exec_induction (P := fun es s => ¬ (s.proc q).Over ∨
      ((s.proc q).Over ∧ (s.proc q).Fails) ∨
      ∃ es₁ es₂ t, es = es₁ ++ es₂ ∧ exec step s₁ es₁ = some t ∧ exec step t es₂ = some s ∧
        (t.proc q).Reads) (Or.inl hlive) ?_ es s hrun
    intro es u e u' hexec ih hs
    rcases ih with hlive | ⟨hover, hfails⟩ | ⟨es₁, es₂, t, rfl, h₁, h₂, hr⟩
    · by_cases hr : (u.proc q).Reads
      · exact Or.inr (Or.inr ⟨es, [e], u, rfl, hexec, by simp [hs], hr⟩)
      · obtain ⟨p, act⟩ := e
        obtain ⟨k', pc', hmove, rfl⟩ := step_eq_some.mp hs
        have hmoved := move_moved hmove
        by_cases heq : q = p
        · subst heq
          rw [show (⟨k', Function.update u.proc q pc'⟩ : Sys).proc q = pc' from
            Function.update_self ..]
          generalize u.proc q = pc at hmoved hr
          by_cases hover : pc'.Over
          · refine Or.inr (Or.inl ⟨hover, ?_⟩)
            -- it comes to its end with a failure, or by reading
            cases hmoved with
            | silent _ _ _ _ _ hfails => exact hfails
            | unlocked _ _ _ _ hfails => exact hfails
            | finished => exact absurd trivial hr
            | _ => exact hover.elim
          · exact Or.inl hover
        · rw [show (⟨k', Function.update u.proc p pc'⟩ : Sys).proc q = u.proc q from
            Function.update_of_ne heq ..]
          exact Or.inl hlive
    · rw [over_step hover hs]
      exact Or.inr (Or.inl ⟨hover, hfails⟩)
    · refine Or.inr (Or.inr ⟨es₁, es₂ ++ [e], t, List.append_assoc .., h₁, ?_, hr⟩)
      rw [exec_append, h₂]
      simp [hs]
  rw [hio] at hcases
  rcases hcases with hlive | ⟨-, hfails⟩ | hmoment
  · exact absurd trivial hlive
  · rcases hfails with hopen | hlock | hread
    · exact absurd (hopen.symm.trans hok.1) (by simp)
    · exact absurd (hlock.symm.trans hok.2.1) (by simp)
    · exact absurd hread hok.2.2
  · exact hmoment

/-- **The calls are atomic.** In every run of any number of processes, whichever system calls
fail, whatever part of an entry a write moves, and wherever processes are killed: the ledger
is what it was and behind it what each process has written, once and in one piece; and a query
whose system calls succeed has read the ledger of every moment in which it held its lock, of
which there is one. -/
theorem calls_atomic (ledger : Option Text) (es : List Event) (s : Sys)
    (hrun : exec step (start ledger) es = some s) :
    (∃ writes, Appended (ledger.getD []) s writes) ∧
      ∀ q io, s.proc q = .queried io → Succeeded io →
        (∃ es₁ es₂ s₁, es = es₁ ++ es₂ ∧ exec step (start ledger) es₁ = some s₁ ∧
          (s₁.proc q).Reads) ∧
        ∀ es₁ es₂ s₁, es = es₁ ++ es₂ → exec step (start ledger) es₁ = some s₁ →
          (s₁.proc q).Reads → io.Clean s₁.shared.ledger := by
  refine ⟨appended_run hrun, fun q io hio hok => ⟨?_, ?_⟩⟩
  · obtain ⟨es₁, es₂, t, hsplit, h₁, -, hr⟩ := exists_reads hrun id hio hok
    exact ⟨es₁, es₂, t, hsplit, h₁, hr⟩
  · rintro es₁ es₂ s₁ rfl h₁ hr
    rw [exec_append, h₁] at hrun
    exact clean_of_reads h₁ hrun hr hio hok

/-- Two processes append, one of them torn and one killed with its lock; a third reads between
them, in two chunks. -/
def threeCalls : List Event :=
  [(0, .start (.append (ascii "123\n"))), (1, .start .query), (0, .go true 0), (0, .go true 0),
    (2, .start (.append (ascii "45\n"))), (0, .go false 2), (1, .go true 0), (0, .go true 0),
    (1, .go true 0), (2, .go true 0), (1, .go true 0), (1, .go true 4095), (1, .go true 0),
    (2, .go true 0), (2, .go true 0), (2, .kill)]

/-- Two appends and a query, interleaved. -/
theorem calls_atomic_threeCalls :
    ∃ s io, exec step (start none) threeCalls = some s ∧ s.proc 1 = .queried io ∧
      s.shared.ledger = some (ascii "1245\n") ∧
      ∃ es₁ es₂ s₁, threeCalls = es₁ ++ es₂ ∧ exec step (start none) es₁ = some s₁ ∧
        (s₁.proc 1).Reads := by
  have hok : Succeeded ⟨true, true, [some (ascii "1"), some (ascii "2"), some []]⟩ :=
    ⟨rfl, rfl, by decide⟩
  exact ⟨_, _, rfl, rfl, rfl, ((calls_atomic none threeCalls _ rfl).2 1 _ rfl hok).1⟩

/-! ## What is written is read -/

/-- **A write is read.** What a process has written is in the ledger that every later query
reads. -/
theorem write_is_read {target bytes : Text} {p : Nat}
    (h₁ : exec step (start ledger) es₁ = some s₁) (h₂ : exec step s₁ es₂ = some s)
    (hwrote : (s₁.proc p).wrote = some bytes) (htarget : target <:+: bytes)
    (hidle : s₁.proc q = .idle) (hquery : s.proc q = .queried io) (hok : Succeeded io) :
    ∃ ledger', io.Clean ledger' ∧ target <:+: ledger'.getD [] := by
  -- the ledger has the target when it is written
  obtain ⟨writes, happended⟩ := appended_run h₁
  obtain ⟨front, back, hwrites⟩ := List.append_of_mem (happended.wrote p bytes hwrote)
  have hthere : target <:+: s₁.shared.text := by
    rw [happended.text, hwrites, List.flatMap_append, List.flatMap_cons]
    exact htarget.trans
      ⟨ledger.getD [] ++ front.flatMap Prod.snd, back.flatMap Prod.snd, by simp⟩
  -- and still has it when the query reads
  have hlive : ¬ (s₁.proc q).Over := by
    rw [hidle]
    exact id
  obtain ⟨es₃, es₄, t, rfl, h₃, h₄, hr⟩ := exists_reads h₂ hlive hquery hok
  have hrun : exec step (start ledger) (es₁ ++ es₃) = some t := by
    rw [exec_append, h₁]
    exact h₃
  exact ⟨_, clean_of_reads hrun h₄ hr hquery hok, hthere.trans (text_grows_run h₃).isInfix⟩

/-- A write that moves the target at the front of its entry has written it. -/
theorem infix_bytesOf {target entry : Text} {wio : LedgerWriteIO} (hentry : target <+: entry)
    (hwrite : ∀ n, wio.write = some n → target.length ≤ n) : target <:+: bytesOf wio entry := by
  unfold bytesOf
  split
  · rename_i n hn
    exact (List.prefix_take_iff.mpr ⟨hentry, hwrite n hn⟩).isInfix
  · exact hentry.isInfix

end Runs

/-- **A ban is seen.** In every run, whatever the other processes do: once a ban has written its
search target, every check that starts later and whose system calls succeed reports each
source of this hash, and no runner that gets this answer forks a child for it. -/
theorem ban_is_seen (stdHash : StdHash) (ledger : Option Text) (es₁ es₂ : List Event) (s₁ s : Sys)
    (h₁ : exec step (start ledger) es₁ = some s₁) (h₂ : exec step s₁ es₂ = some s)
    (p q : Nat) (banned sourceCode : Text) (exitCode : Int) (wio : LedgerWriteIO) (io : LedgerIO)
    (hban : s₁.proc p = .appended (banEntry (stdHash banned) exitCode) wio)
    (hlocked : wio.opens = true ∧ wio.flock = true)
    (hwrite : ∀ n, wio.write = some n → (searchTarget (stdHash banned)).length ≤ n)
    (hidle : s₁.proc q = .idle) (hquery : s.proc q = .queried io) (hok : Succeeded io)
    (hhash : stdHash sourceCode = stdHash banned) :
    isBanned stdHash io sourceCode = true ∧
      ∀ (program : Pipeline.Program) (env : Pipeline.RunnerEnv) (mutationId : Text),
        env.banCheck = .ok io → Stages.Within Pipeline.NoFork
          (Pipeline.evaluateAndExecuteWith program stdHash env sourceCode mutationId) := by
  have hwrote : (s₁.proc p).wrote = some (bytesOf wio (banEntry (stdHash banned) exitCode)) := by
    rw [hban, Pc.wrote, hlocked.1, hlocked.2]
    rfl
  have htarget := infix_bytesOf (searchTarget_prefix_banEntry (stdHash banned) exitCode) hwrite
  obtain ⟨ledger', hclean, hthere⟩ := write_is_read h₁ h₂ hwrote htarget hidle hquery hok
  have hbanned : isBanned stdHash io sourceCode = true := by
    rw [isBanned_clean hclean, hhash]
    exact hthere
  refine ⟨hbanned, fun program env mutationId hcheck => ?_⟩
  refine Pipeline.noFork_of_refused program mutationId (Or.inr fun io' hio' => ?_)
  obtain rfl := Except.ok.inj (hcheck.symm.trans hio')
  exact hbanned

/-- A ban, torn behind its search target. -/
def tornBan : List Event :=
  [(0, .start (.append (banEntry 7 254))), (0, .go true 0), (0, .go true 0), (0, .go false 3),
    (0, .go true 0)]

/-- A check next to another ban. -/
def laterCheck : List Event :=
  [(1, .start .query), (2, .start (.append (banEntry 8 255))), (1, .go true 0), (2, .go true 0),
    (1, .go true 0), (1, .go true 4095), (1, .go true 0), (2, .go true 0)]

/-- A later check sees the ban. -/
theorem ban_is_seen_laterCheck :
    isBanned (fun _ => 7) ⟨true, true, [some (ascii "7 |"), some []]⟩ (ascii "int main() {}") =
      true := by
  have hok : Succeeded ⟨true, true, [some (ascii "7 |"), some []]⟩ := ⟨rfl, rfl, by decide⟩
  have hwrite : ∀ n, (⟨true, true, some 3⟩ : LedgerWriteIO).write = some n →
      (searchTarget 7).length ≤ n := by
    rintro n hn
    rw [← Option.some.inj hn]
    decide
  exact (ban_is_seen (fun _ => 7) none tornBan laterCheck _ _ rfl rfl 0 1 (ascii "int main() {}")
    (ascii "int main() {}") 254 ⟨true, true, some 3⟩ _ rfl ⟨rfl, rfl⟩ hwrite rfl rfl hok rfl).1

/-- **And a registration**: every later query of the hash reports it. -/
theorem registration_is_seen {ledger : Option Text} {es₁ es₂ : List Event} {s₁ s : Sys}
    (h₁ : exec step (start ledger) es₁ = some s₁) (h₂ : exec step s₁ es₂ = some s)
    {p q : Nat} {hashStr : Text} {io : LedgerIO}
    (hregistered : s₁.proc p = .appended (HiveMind.hiveLine hashStr) .clean)
    (hidle : s₁.proc q = .idle) (hquery : s.proc q = .queried io) (hok : Succeeded io) :
    HiveMind.isAssimilated io hashStr = true := by
  have hwrote : (s₁.proc p).wrote = some (HiveMind.hiveLine hashStr) := by
    rw [hregistered]
    rfl
  obtain ⟨ledger', hclean, hthere⟩ :=
    write_is_read h₁ h₂ hwrote List.infix_rfl hidle hquery hok
  exact (HiveMind.isAssimilated_clean hclean hashStr).mpr hthere

end Swayam.Ledger
