import Mathlib.Data.List.Basic

/-!
# Classic BPF

The part of the classic BPF machine that seccomp filters of the list kind use:
loading a word of the input, a jump on equality, and a return. A program is a
list of `sock_filter` records; its jumps are relative to the next instruction
and only lead forward, so running it takes the list apart (`run`, with the number
of instructions still to be skipped).

* `run_isSome` — what the kernel's checker accepts ends in a return;
* `run_blocks` — a chain of tests that return on equality is a test for
  membership.
-/

namespace ClassicBpf

/-- `struct sock_filter` -/
structure SockFilter where
  code : UInt16
  jt   : UInt8
  jf   : UInt8
  k    : UInt32
  deriving DecidableEq, Repr

/-- `BPF_LD | BPF_W | BPF_ABS` -/
def ldWordAbs : UInt16 := 0x00 ||| 0x00 ||| 0x20

/-- `BPF_JMP | BPF_JEQ | BPF_K` -/
def jmpJeqK : UInt16 := 0x05 ||| 0x10 ||| 0x00

/-- `BPF_RET | BPF_K` -/
def retK : UInt16 := 0x06 ||| 0x00

/-- `BPF_STMT` -/
def bpfStmt (code : UInt16) (k : UInt32) : SockFilter := ⟨code, 0, 0, k⟩

/-- `BPF_JUMP` -/
def bpfJump (code : UInt16) (k : UInt32) (jt jf : UInt8) : SockFilter := ⟨code, jt, jf, k⟩

section Runs

variable (data : UInt32 → Option UInt32)

/-- The value that a program returns for an input, given by its words: `skip` instructions are
jumped over, and `a` is the accumulator. It is `none` behind the end, for a word that is not
there, and for an unknown instruction. -/
def run : List SockFilter → Nat → UInt32 → Option UInt32
  | [], _, _ => none
  | _ :: rest, skip + 1, a => run rest skip a
  | i :: rest, 0, a =>
    if i.code = ldWordAbs then (data i.k).bind (run rest 0)
    else if i.code = jmpJeqK then run rest (if a = i.k then i.jt.toNat else i.jf.toNat) a
    else if i.code = retK then some i.k
    else none

/-- What the checker asks of an instruction with this many behind it: a load finds its word, and
a jump stays in the program. -/
def SockFilter.fits (i : SockFilter) (behind : Nat) : Bool :=
  if i.code = ldWordAbs then (data i.k).isSome
  else if i.code = jmpJeqK then decide (i.jt.toNat < behind ∧ i.jf.toNat < behind)
  else decide (i.code = retK)

/-- A checked program: its instructions fit, and the last one is a return. -/
def checked : List SockFilter → Bool
  | [] => false
  | [i] => decide (i.code = retK)
  | i :: rest => i.fits data rest.length && checked rest

end Runs

variable {data : UInt32 → Option UInt32}

@[simp] theorem run_succ (i : SockFilter) (rest : List SockFilter) (skip : Nat) (a : UInt32) :
    run data (i :: rest) (skip + 1) a = run data rest skip a := rfl

/-! ## Single instructions -/

section Single

variable {i : SockFilter} (rest : List SockFilter) (a : UInt32)

theorem run_of_load (h : i.code = ldWordAbs) :
    run data (i :: rest) 0 a = (data i.k).bind (run data rest 0) := by
  rw [run, if_pos h]

theorem run_of_jump (h : i.code = jmpJeqK) : run data (i :: rest) 0 a =
    run data rest (if a = i.k then i.jt.toNat else i.jf.toNat) a := by
  have hload : ¬ i.code = ldWordAbs := by
    rw [h]
    decide
  rw [run, if_neg hload, if_pos h]

theorem run_of_ret (h : i.code = retK) : run data (i :: rest) 0 a = some i.k := by
  have hload : ¬ i.code = ldWordAbs := by
    rw [h]
    decide
  have hjump : ¬ i.code = jmpJeqK := by
    rw [h]
    decide
  rw [run, if_neg hload, if_neg hjump, if_pos h]

end Single

/-! ## Checked programs -/

theorem checked_cons {i j : SockFilter} {rest : List SockFilter} :
    checked data (i :: j :: rest) = true ↔
      i.fits data (rest.length + 1) = true ∧ checked data (j :: rest) = true := by
  rw [checked, Bool.and_eq_true, List.length_cons]
  exact List.cons_ne_nil j rest

/-- **A checked program returns**, from every place that a jump can lead to. -/
theorem run_isSome {p : List SockFilter} (h : checked data p = true) {skip : Nat}
    (hskip : skip < p.length) (a : UInt32) : (run data p skip a).isSome := by
  induction p generalizing skip a with
  | nil => exact absurd hskip (Nat.not_lt_zero skip)
  | cons i rest ih =>
    rw [List.length_cons] at hskip
    cases rest with
    | nil =>
      obtain rfl : skip = 0 := by
        rw [List.length_nil] at hskip
        omega
      rw [run_of_ret [] a (of_decide_eq_true h)]
      rfl
    | cons j rest =>
      obtain ⟨hfits, htail⟩ := checked_cons.mp h
      cases skip with
      | succ skip => exact ih htail (by omega) a
      | zero =>
        unfold SockFilter.fits at hfits
        by_cases hload : i.code = ldWordAbs
        · rw [if_pos hload] at hfits
          obtain ⟨w, hw⟩ := Option.isSome_iff_exists.mp hfits
          rw [run_of_load _ a hload, hw]
          exact ih htail (by rw [List.length_cons]; omega) w
        · rw [if_neg hload] at hfits
          by_cases hjump : i.code = jmpJeqK
          · rw [if_pos hjump, decide_eq_true_eq] at hfits
            rw [run_of_jump _ a hjump]
            -- either way the jump stays in front of the end
            refine ih htail ?_ a
            rw [List.length_cons]
            split
            · exact hfits.1
            · exact hfits.2
          · rw [if_neg hjump, decide_eq_true_eq] at hfits
            rw [run_of_ret _ a hfits]
            rfl

/-! ## Chains of tests -/

/-- Return `v` on this number, and go on with the next instruction otherwise. -/
def block (v number : UInt32) : List SockFilter := [bpfJump jmpJeqK number 0 1, bpfStmt retK v]

/-- A block returns its value on its number and goes on otherwise. -/
theorem run_block (v number a : UInt32) (rest : List SockFilter) :
    run data (block v number ++ rest) 0 a = if a = number then some v else run data rest 0 a := by
  have hjump : run data (block v number ++ rest) 0 a =
      run data (bpfStmt retK v :: rest) (if a = number then 0 else 1) a :=
    run_of_jump _ a rfl
  rw [hjump]
  by_cases ha : a = number
  · rw [if_pos ha, if_pos ha]
    exact run_of_ret rest a rfl
  · rw [if_neg ha, if_neg ha, run_succ]

/-- **A chain of tests** returns `v` on the numbers of its list. -/
theorem run_blocks (v a : UInt32) (numbers : List UInt32) (rest : List SockFilter) :
    run data (numbers.flatMap (block v) ++ rest) 0 a =
      if a ∈ numbers then some v else run data rest 0 a := by
  induction numbers with
  | nil => simp
  | cons number numbers ih =>
    rw [List.flatMap_cons, List.append_assoc, run_block, ih]
    by_cases ha : a = number
    · rw [if_pos ha, if_pos (ha ▸ List.mem_cons_self ..)]
    · rw [if_neg ha]
      simp [ha]

end ClassicBpf
