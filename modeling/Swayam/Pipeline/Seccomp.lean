import Mathlib.Data.List.Basic
import Swayam.Lib.ClassicBpf

/-!
# SWAYAM — the seccomp filter

The program that `lockdown_process` gives to the kernel. It kills on another
architecture than x86-64, then on six system calls by number, and allows the
rest. The numbers are compared as they are: a call through the x32 ABI has bit
30 set in its number and is none of the six, and `clone3` is not among them.

* `lockdownFilter_eq` — the program is a chain of tests behind the two loads;
* `lockdownFilter_isSome` — it always ends in a return;
* `runFilter_eq` — what it answers;
* `filterBlocks_iff` — where it blocks what it is there to block.
-/

namespace Swayam.Pipeline

open ClassicBpf

/-! ## `struct seccomp_data` -/

/-- The input of the filter; `rest` holds the words of the instruction pointer and the
arguments. -/
structure SeccompData where
  nr   : UInt32
  arch : UInt32
  rest : UInt32 → UInt32

/-- `offsetof(struct seccomp_data, nr)` -/
def offsetNr : UInt32 := 0

/-- `offsetof(struct seccomp_data, arch)` -/
def offsetArch : UInt32 := 4

/-- The words of the 64 bytes. -/
def SeccompData.word (d : SeccompData) (k : UInt32) : Option UInt32 :=
  if k % 4 ≠ 0 ∨ 64 ≤ k then none
  else if k = offsetNr then some d.nr
  else if k = offsetArch then some d.arch
  else some (d.rest k)

/-! ## The program -/

/-- `AUDIT_ARCH_X86_64` -/
def auditArchX86 : UInt32 := 0xC000003E

/-- `SECCOMP_RET_KILL_PROCESS` -/
def retKillProcess : UInt32 := 0x80000000

/-- `SECCOMP_RET_ALLOW` -/
def retAllow : UInt32 := 0x7FFF0000

def sysSocket : UInt32 := 41
def sysConnect : UInt32 := 42
def sysClone : UInt32 := 56
def sysFork : UInt32 := 57
def sysVfork : UInt32 := 58
def sysPtrace : UInt32 := 101
def sysClone3 : UInt32 := 435

/-- `filter` of `lockdown_process`. -/
def lockdownFilter : List SockFilter :=
  [ bpfStmt ldWordAbs offsetArch,
    bpfJump jmpJeqK auditArchX86 1 0,
    bpfStmt retK retKillProcess,

    bpfStmt ldWordAbs offsetNr,

    bpfJump jmpJeqK sysClone 0 1,
    bpfStmt retK retKillProcess,

    bpfJump jmpJeqK sysFork 0 1,
    bpfStmt retK retKillProcess,

    bpfJump jmpJeqK sysVfork 0 1,
    bpfStmt retK retKillProcess,

    bpfJump jmpJeqK sysSocket 0 1,
    bpfStmt retK retKillProcess,

    bpfJump jmpJeqK sysConnect 0 1,
    bpfStmt retK retKillProcess,

    bpfJump jmpJeqK sysPtrace 0 1,
    bpfStmt retK retKillProcess,

    bpfStmt retK retAllow ]

/-- What the filter returns for a call. -/
def runFilter (d : SeccompData) : Option UInt32 := run d.word lockdownFilter 0 0

/-- The numbers that it tests for. -/
def listed : List UInt32 := [sysClone, sysFork, sysVfork, sysSocket, sysConnect, sysPtrace]

/-! ## What it answers -/

variable (d : SeccompData)

theorem word_nr : d.word offsetNr = some d.nr := rfl

theorem word_arch : d.word offsetArch = some d.arch := rfl

/-- The tests of the numbers are a chain. -/
theorem lockdownFilter_eq : lockdownFilter =
    bpfStmt ldWordAbs offsetArch :: bpfJump jmpJeqK auditArchX86 1 0 ::
      bpfStmt retK retKillProcess :: bpfStmt ldWordAbs offsetNr ::
      (listed.flatMap (block retKillProcess) ++ [bpfStmt retK retAllow]) := rfl

/-- Every load is inside the data, and every jump inside the program. -/
theorem lockdownFilter_checked : checked d.word lockdownFilter = true := rfl

/-- **It ends in a return**, as every program does that the kernel accepts. -/
theorem lockdownFilter_isSome : (runFilter d).isSome :=
  run_isSome (lockdownFilter_checked d) (by decide) 0

/-- **The answer**: kill on another architecture and on a listed number. -/
theorem runFilter_eq : runFilter d =
    if d.arch ≠ auditArchX86 ∨ d.nr ∈ listed then some retKillProcess else some retAllow := by
  rw [runFilter, lockdownFilter_eq, run_of_load _ _ rfl]
  show (d.word offsetArch).bind _ = _
  rw [word_arch, Option.bind_some, run_of_jump _ _ rfl]
  by_cases harch : d.arch = auditArchX86
  · -- over the first return, to the chain
    have hjump : (if d.arch = (bpfJump jmpJeqK auditArchX86 1 0).k
        then (bpfJump jmpJeqK auditArchX86 1 0).jt.toNat
        else (bpfJump jmpJeqK auditArchX86 1 0).jf.toNat) = 1 := if_pos harch
    rw [hjump, run_succ, run_of_load _ _ rfl]
    show (d.word offsetNr).bind _ = _
    rw [word_nr, Option.bind_some, run_blocks, run_of_ret _ _ rfl]
    by_cases hnr : d.nr ∈ listed
    · rw [if_pos hnr, if_pos (Or.inr hnr)]
    · rw [if_neg hnr, if_neg]
      · rfl
      · rintro (h | h)
        · exact h harch
        · exact hnr h
  · -- into it
    have hjump : (if d.arch = (bpfJump jmpJeqK auditArchX86 1 0).k
        then (bpfJump jmpJeqK auditArchX86 1 0).jt.toNat
        else (bpfJump jmpJeqK auditArchX86 1 0).jf.toNat) = 0 := if_neg harch
    rw [hjump, run_of_ret _ _ rfl, if_pos (Or.inl harch)]
    rfl

/-! ## What it is there to block -/

/-- The bit that the x32 ABI sets in a number. -/
def x32Bit : UInt32 := 0x40000000

/-- The number with the bit cleared. -/
def nativeNr (nr : UInt32) : UInt32 := nr &&& ~~~x32Bit

/-- The calls that create a process, or open or connect a socket. -/
def guarded : List UInt32 := [sysClone, sysClone3, sysFork, sysVfork, sysSocket, sysConnect]

/-- What the filter says of itself, for one architecture and number. -/
structure FilterBlocks (arch nr : UInt32) : Prop where
  returns : ∀ rest, (runFilter ⟨nr, arch, rest⟩).isSome
  kills   : arch ≠ auditArchX86 ∨ nativeNr nr ∈ guarded ∨ nr = sysPtrace →
    ∀ rest, runFilter ⟨nr, arch, rest⟩ = some retKillProcess
  allows  : arch = auditArchX86 → nr < x32Bit → nr ∉ guarded → nr ≠ sysPtrace →
    ∀ rest, runFilter ⟨nr, arch, rest⟩ = some retAllow

/-- The guarded calls that the filter has no test for: `clone3`, and all of them through the x32
ABI. -/
def unlisted : List UInt32 := sysClone3 :: guarded.map (· + x32Bit)

/-! ## The bit of the x32 ABI -/

/-- A number is made of that without the bit, and the bit. -/
theorem nativeNr_add (nr : UInt32) : nr = nativeNr nr + (nr &&& x32Bit) := by
  apply UInt32.toBitVec_inj.mp
  rw [nativeNr, UInt32.toBitVec_add, UInt32.toBitVec_and, UInt32.toBitVec_and, UInt32.toBitVec_not,
    BitVec.add_eq_or_of_and_eq_zero]
  · ext i hi
    simp only [BitVec.getElem_or, BitVec.getElem_and, BitVec.getElem_not]
    cases nr.toBitVec[i] <;> cases x32Bit.toBitVec[i] <;> rfl
  · ext i hi
    simp only [BitVec.getElem_and, BitVec.getElem_not]
    cases nr.toBitVec[i] <;> cases x32Bit.toBitVec[i] <;> simp

/-- The bit of the x32 ABI is set or not. -/
theorem and_x32Bit (nr : UInt32) : nr &&& x32Bit = 0 ∨ nr &&& x32Bit = x32Bit := by
  have hbit : x32Bit.toBitVec = BitVec.twoPow 32 30 := by decide +kernel
  have hand : (nr &&& x32Bit).toBitVec =
      if nr.toBitVec.getLsbD 30 then BitVec.twoPow 32 30 else 0 := by
    rw [UInt32.toBitVec_and, hbit, BitVec.and_twoPow]
    rfl
  cases hset : nr.toBitVec.getLsbD 30 with
  | false =>
    left
    apply UInt32.toBitVec_inj.mp
    rw [hand, hset]
    rfl
  | true =>
    right
    apply UInt32.toBitVec_inj.mp
    rw [hand, hset, hbit]
    rfl

/-- A number is the native one, or that with the bit. -/
theorem eq_nativeNr_or (nr : UInt32) : nr = nativeNr nr ∨ nr = nativeNr nr + x32Bit := by
  have hsum := nativeNr_add nr
  rcases and_x32Bit nr with h | h
  · left
    rwa [h, UInt32.add_zero] at hsum
  · right
    rwa [h] at hsum

/-! ## Where it blocks it -/

/-- The guarded calls with a test are those but `clone3`. -/
theorem mem_listed_or {n : UInt32} (h : n ∈ guarded) : n = sysClone3 ∨ n ∈ listed := by
  have hall : guarded.all (fun n => decide (n = sysClone3 ∨ n ∈ listed)) = true := by decide
  exact of_decide_eq_true (List.all_eq_true.mp hall n h)

/-- No test has a number that is not guarded, but for `ptrace`. -/
theorem mem_guarded_or {n : UInt32} (h : n ∈ listed) : n ∈ guarded ∨ n = sysPtrace := by
  have hall : listed.all (fun n => decide (n ∈ guarded ∨ n = sysPtrace)) = true := by decide
  exact of_decide_eq_true (List.all_eq_true.mp hall n h)

/-- What the filter lets through although it is there to block it. -/
theorem of_mem_unlisted {n : UInt32} (h : n ∈ unlisted) : nativeNr n ∈ guarded ∧ n ∉ listed := by
  have hall : unlisted.all (fun n => decide (nativeNr n ∈ guarded ∧ n ∉ listed)) = true := by
    decide
  exact of_decide_eq_true (List.all_eq_true.mp hall n h)

/-- A guarded number is one of the listed or one of the unlisted. -/
theorem mem_listed_or_unlisted {nr : UInt32} (h : nativeNr nr ∈ guarded) :
    nr ∈ listed ∨ nr ∈ unlisted := by
  rcases eq_nativeNr_or nr with heq | heq
  · rw [← heq] at h
    rcases mem_listed_or h with rfl | hlisted
    · exact Or.inr (List.mem_cons_self ..)
    · exact Or.inl hlisted
  · -- the bit is set
    right
    rw [heq]
    exact List.mem_cons_of_mem _ (List.mem_map_of_mem h)

/-- **The filter blocks** what it says, for every architecture and number but the unlisted ones
of x86-64. -/
theorem filterBlocks_iff (arch nr : UInt32) :
    FilterBlocks arch nr ↔ (arch = auditArchX86 → nr ∉ unlisted) := by
  constructor
  · -- an unlisted number has to be killed, and is allowed
    intro hblocks harch hmem
    obtain ⟨hguarded, hnot⟩ := of_mem_unlisted hmem
    have hkill := hblocks.kills (Or.inr (Or.inl hguarded)) fun _ => 0
    rw [runFilter_eq, if_neg] at hkill
    · exact absurd hkill (by decide)
    · rintro (h | h)
      · exact h harch
      · exact hnot h
  · -- another architecture is killed at once, a listed number by its block
    intro hunlisted
    refine ⟨fun rest => lockdownFilter_isSome _, fun hcase rest => ?_,
      fun harch _ hnr hptrace rest => ?_⟩
    · rw [runFilter_eq, if_pos]
      by_cases harch : arch = auditArchX86
      · right
        rcases hcase with h | h | h
        · exact absurd harch h
        · rcases mem_listed_or_unlisted h with hlisted | hmem
          · exact hlisted
          · exact absurd hmem (hunlisted harch)
        · show nr ∈ listed
          rw [h]
          decide
      · exact Or.inl harch
    · rw [runFilter_eq, if_neg]
      rintro (h | h)
      · exact h harch
      · rcases mem_guarded_or h with hguarded | heq
        · exact hnr hguarded
        · exact hptrace heq

/-- `fork` through the x32 ABI is allowed. -/
theorem x32_fork_allowed : ¬ FilterBlocks auditArchX86 0x40000039 := by
  intro h
  have hkill := h.kills (Or.inr (Or.inl (by decide))) fun _ => 0
  rw [runFilter_eq, if_neg (by decide)] at hkill
  exact absurd hkill (by decide)

end Swayam.Pipeline
