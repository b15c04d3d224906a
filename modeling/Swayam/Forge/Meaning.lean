import Swayam.Forge.Definitions
import Swayam.Lib.Commands

/-!
# SWAYAM — what the generated arithmetic does

The block of paradigm 0 is junk: two variables of its own, an opaque predicate over
each, and a loop of a few turns. Here it is given as a statement that the generated
text spells, and that is executed over 64-bit variables.

* `mathBlock_eq` — the text is that of the statement;
* `block_inert` — a block changes no variable of the program that it is put into, and
  reads none.
-/

namespace Swayam.Forge

open Commands

/-! ## Expressions -/

inductive Op
  | mul
  | add
  | mod
  | shl
  | shr
  | xor
  | eq
  | ne
  deriving DecidableEq, Repr

def Op.text : Op → Text
  | .mul => ascii " * "
  | .add => ascii " + "
  | .mod => ascii " % "
  | .shl => ascii " << "
  | .shr => ascii " >> "
  | .xor => ascii " ^ "
  | .eq => ascii " == "
  | .ne => ascii " != "

/-- An `int` next to an `unsigned long long` becomes one. -/
def meaning : Meaning Op UInt64 where
  apply
    | .mul, a, b => a * b
    | .add, a, b => a + b
    | .mod, a, b => a % b
    | .shl, a, b => a <<< b
    | .shr, a, b => a >>> b
    | .xor, a, b => a ^^^ b
    | .eq, a, b => if a = b then 1 else 0
    | .ne, a, b => if a = b then 0 else 1
  truth a := a ≠ 0

/-- An expression as it is spelled. -/
inductive SourceExpr
  | num (spelling : Text) (value : UInt64)
  | var (x : Text)
  | bin (o : Op) (a b : SourceExpr)
  | paren (a : SourceExpr)

def SourceExpr.text : SourceExpr → Text
  | .num spelling _ => spelling
  | .var x => x
  | .bin o a b => a.text ++ (o.text ++ b.text)
  | .paren a => ascii "(" ++ (a.text ++ ascii ")")

def SourceExpr.expr : SourceExpr → Expr Text Op UInt64
  | .num _ value => .const value
  | .var x => .var x
  | .bin o a b => .bin o a.expr b.expr
  | .paren a => a.expr

/-! ## Statements -/

/-- A statement as it is spelled; `layout` stands between two of them. -/
inductive Stmt
  | declare (x : Text) (n : Nat)
  | constant (x : Text) (n : Nat)
  | set (x : Text) (e : SourceExpr)
  | xorSet (x : Text) (e : SourceExpr)
  | increment (x : Text)
  | when (c : SourceExpr) (a : Stmt)
  | whenElse (c : SourceExpr) (a b : Stmt)
  | times (i : Text) (n : Nat) (a : Stmt)
  | seq (layout : Text) (a b : Stmt)

def Stmt.text : Stmt → Text
  | .declare x n =>
    ascii "[[maybe_unused]] volatile unsigned long long " ++ (x ++ (ascii " = " ++
      (decimal n ++ ascii "ULL;")))
  | .constant x n => ascii "constexpr int " ++ (x ++ (ascii " = " ++ (decimal n ++ ascii ";")))
  | .set x e => x ++ (ascii " = " ++ (e.text ++ ascii ";"))
  | .xorSet x e => x ++ (ascii " ^= " ++ (e.text ++ ascii ";"))
  | .increment x => x ++ ascii "++;"
  | .when c a => ascii "if (" ++ (c.text ++ (ascii ") \x7b " ++ (a.text ++ ascii " \x7d")))
  | .whenElse c a b =>
    ascii "if (" ++ (c.text ++ (ascii ") \x7b " ++ (a.text ++ (ascii " \x7d else \x7b " ++
      (b.text ++ ascii " \x7d")))))
  | .times i n a =>
    ascii "for(int " ++ (i ++ (ascii " = 0; " ++ (i ++ (ascii " < " ++ (decimal n ++ (ascii "; ++" ++
      (i ++ (ascii ") \x7b\n        " ++ (a.text ++ ascii "\n    \x7d")))))))))
  | .seq layout a b => a.text ++ (layout ++ b.text)

def Stmt.cmd : Stmt → Cmd Text Op UInt64
  | .declare x n => .assign x (.const (UInt64.ofNat n))
  | .constant x n => .assign x (.const (UInt64.ofNat n))
  | .set x e => .assign x e.expr
  | .xorSet x e => .assign x (.bin .xor (.var x) e.expr)
  | .increment x => .assign x (.bin .add (.var x) (.const 1))
  | .when c a => .branch c.expr a.cmd .skip
  | .whenElse c a b => .branch c.expr a.cmd b.cmd
  | .times i n a => .loop i ((List.range n).map UInt64.ofNat) a.cmd
  | .seq _ a b => .seq a.cmd b.cmd

/-! ## The block -/

/-- The variable of the second kind of predicate. -/
def constantName (varName : Text) : Text := ascii "_c_" ++ varName

/-- The opaque predicates, as statements. -/
def predicateStmt (logicPath : Nat) (varName : Text) : Stmt :=
  let v : SourceExpr := .var varName
  match logicPath with
  | 0 =>
    .whenElse (.bin .eq (.bin .mod (.paren (.bin .add (.bin .mul v v) v)) (.num (ascii "2") 2))
        (.num (ascii "0") 0))
      (.xorSet varName (.num (ascii "0xAA") 0xAA)) (.set varName (.num (ascii "0") 0))
  | 1 =>
    .set varName (.bin .xor (.paren (.bin .shl v (.num (ascii "1") 1)))
      (.paren (.bin .shr v (.num (ascii "1") 1))))
  | _ =>
    .seq (ascii " ") (.constant (constantName varName) 42)
      (.when (.bin .ne v (.var (constantName varName))) (.increment varName))

/-- A predicate's statement is written as the forge writes it. -/
theorem predicateStmt_text {logicPath : Nat} (h : logicPath < 3) (varName : Text) :
    opaquePredicate logicPath varName = (predicateStmt logicPath varName).text ++ [newline] := by
  have hpath : logicPath = 0 ∨ logicPath = 1 ∨ logicPath = 2 := by omega
  rcases hpath with rfl | rfl | rfl <;>
    simp only [opaquePredicate, predicateStmt, constantName, Stmt.text, SourceExpr.text,
      List.append_assoc] <;> rfl

/-- A line of the block ends, and another begins. -/
def line : Text := ascii "\n    "

/-- The variable of the loop. -/
def counter : Text := ascii "i"

/-- The turns of the loop. -/
def loopStmt (var1 var2 : Text) (iterations : Nat) : Stmt :=
  .times counter iterations <| .seq (ascii "\n        ")
    (.set var1 (.bin .add (.paren (.bin .mul (.var var1) (.num (ascii "0x1B3") 0x1B3)))
      (.var counter)))
    (.xorSet var2 (.var var1))

/-- Paradigm 0, as a statement. -/
def mathStmt (var1 var2 : Text) (n1 n2 path1 path2 iterations : Nat) : Stmt :=
  .seq line (.declare var1 n1) <| .seq line (.declare var2 n2) <|
    .seq line (predicateStmt path1 var1) <| .seq line (predicateStmt path2 var2) <|
      loopStmt var1 var2 iterations

/-- **The text is that of the statement.** -/
theorem mathBlock_eq {path1 path2 : Nat} (h1 : path1 < 3) (h2 : path2 < 3) (var1 var2 : Text)
    (n1 n2 iterations : Nat) :
    mathBlock var1 var2 n1 n2 (opaquePredicate path1 var1) (opaquePredicate path2 var2) iterations =
      ascii "    " ++ (mathStmt var1 var2 n1 n2 path1 path2 iterations).text ++ [newline] := by
  rw [predicateStmt_text h1, predicateStmt_text h2]
  simp only [mathBlock, mathStmt, loopStmt, Stmt.text, SourceExpr.text, List.append_assoc]
  rfl

/-! ## What it does -/

/-- The names that the generator makes up. -/
def Own (x : Text) : Prop := ascii "_evo_" <+: x ∨ ascii "_c__evo_" <+: x

instance (x : Text) : Decidable (Own x) := inferInstanceAs (Decidable (_ ∨ _))

/-- It writes its own variables, -/
theorem writes_predicateStmt {logicPath : Nat} {varName x : Text}
    (h : x ∈ (predicateStmt logicPath varName).cmd.writes) :
    x = varName ∨ x = constantName varName := by
  unfold predicateStmt at h
  dsimp only at h
  split at h
  · exact Or.inl (by simpa [Stmt.cmd, Cmd.writes] using h)
  · exact Or.inl (by simpa [Stmt.cmd, Cmd.writes] using h)
  · exact Or.symm (by simpa [Stmt.cmd, Cmd.writes] using h)

/-- and so does the loop. -/
theorem writes_loopStmt {var1 var2 x : Text} {iterations : Nat}
    (h : x ∈ (loopStmt var1 var2 iterations).cmd.writes) : x = var1 ∨ x = var2 := by
  have hmem := List.mem_of_mem_filter (show x ∈ List.filter _ _ from h)
  simpa [Stmt.cmd, Cmd.writes] using hmem

/-- A predicate over a variable that has a value defines what it writes. -/
theorem defines_predicateStmt (logicPath : Nat) {varName : Text} {known : List Text}
    (h : varName ∈ known) : ∃ known', (predicateStmt logicPath varName).cmd.defines known =
      some known' ∧ ∀ x ∈ (predicateStmt logicPath varName).cmd.writes, x ∈ known' := by
  unfold predicateStmt
  dsimp only
  split
  · exact ⟨known, by simp [Stmt.cmd, SourceExpr.expr, Cmd.defines, Expr.reads, h],
      by simp [Stmt.cmd, Cmd.writes, h]⟩
  · exact ⟨varName :: known, by simp [Stmt.cmd, SourceExpr.expr, Cmd.defines, Expr.reads, h],
      by simp [Stmt.cmd, Cmd.writes]⟩
  · exact ⟨constantName varName :: known,
      by simp [Stmt.cmd, SourceExpr.expr, Cmd.defines, Expr.reads, h],
      by simp [Stmt.cmd, Cmd.writes, h]⟩

/-- The loop reads nothing undefined. -/
theorem defines_loopStmt {var1 var2 : Text} {known : List Text} (iterations : Nat)
    (h1 : var1 ∈ known) (h2 : var2 ∈ known) :
    (loopStmt var1 var2 iterations).cmd.defines known = some known := by
  simp [loopStmt, Stmt.cmd, SourceExpr.expr, Cmd.defines, Expr.reads, h1, h2]

section Block

variable (var1 var2 : Text) (n1 n2 path1 path2 iterations : Nat)

/-- **What the block writes.** -/
theorem writes_mathStmt {x : Text}
    (h : x ∈ (mathStmt var1 var2 n1 n2 path1 path2 iterations).cmd.writes) :
    (x = var1 ∨ x = constantName var1) ∨ x = var2 ∨ x = constantName var2 := by
  simp only [mathStmt, Stmt.cmd, Cmd.writes, List.mem_append, List.mem_singleton] at h
  rcases h with rfl | rfl | h | h | h
  · exact Or.inl (Or.inl rfl)
  · exact Or.inr (Or.inl rfl)
  · exact Or.inl (writes_predicateStmt h)
  · exact Or.inr (writes_predicateStmt h)
  · rcases writes_loopStmt h with rfl | rfl
    · exact Or.inl (Or.inl rfl)
    · exact Or.inr (Or.inl rfl)

/-- **And it reads nothing else.** -/
theorem defines_mathStmt : ∃ known,
    (mathStmt var1 var2 n1 n2 path1 path2 iterations).cmd.defines [] = some known ∧
      ∀ x ∈ (mathStmt var1 var2 n1 n2 path1 path2 iterations).cmd.writes, x ∈ known := by
  have h1 : var1 ∈ [var2, var1] := by simp
  obtain ⟨known1, hdefines1, hwrites1⟩ := defines_predicateStmt path1 h1
  have hsub1 := subset_of_defines hdefines1
  have h2 : var2 ∈ known1 := hsub1 (by simp)
  obtain ⟨known2, hdefines2, hwrites2⟩ := defines_predicateStmt path2 h2
  have hsub2 := subset_of_defines hdefines2
  have hloop := defines_loopStmt iterations (hsub2 (hsub1 h1)) (hsub2 h2)
  refine ⟨known2, ?_, fun x hx => ?_⟩
  · simp only [mathStmt, Stmt.cmd, Cmd.defines, Expr.reads, List.nil_subset, if_true,
      Option.bind_some]
    rw [hdefines1, Option.bind_some, hdefines2, Option.bind_some, hloop]
  · simp only [mathStmt, Stmt.cmd, Cmd.writes, List.mem_append, List.mem_singleton] at hx
    rcases hx with rfl | rfl | hx | hx | hx
    · exact hsub2 (hsub1 h1)
    · exact hsub2 h2
    · exact hsub2 (hwrites1 x hx)
    · exact hwrites2 x hx
    · rcases writes_loopStmt hx with rfl | rfl
      · exact hsub2 (hsub1 h1)
      · exact hsub2 h2

end Block

/-- The block's own identifiers are told by how they start. -/
theorem own_of_identifier {start x : Text} (hstart : ascii "_evo_" <+: start) (digits : Text)
    (h : x = start ++ digits ∨ x = constantName (start ++ digits)) : Own x := by
  have hname : ascii "_evo_" <+: start ++ digits := hstart.trans (List.prefix_append _ _)
  rcases h with rfl | rfl
  · exact Or.inl hname
  · exact Or.inr ((List.prefix_append_right_inj (ascii "_c_")).mpr hname)

/-- The block of paradigm 0, from what is drawn. -/
def mathStmtOf (rng : Draws) : Stmt :=
  mathStmt (ascii "_evo_core_" ++ hexUpper ((rng 0).toNat % 0xFFFFFF))
    (ascii "_evo_mem_" ++ hexUpper ((rng 1).toNat % 0xFFFFFF))
    ((rng 3).toNat % 9999) ((rng 4).toNat % 9999) ((rng 5).toNat % 3) ((rng 6).toNat % 3)
    ((rng 7).toNat % 5 + 1)

/-- **The junk is inert.** Whatever is drawn, a block of paradigm 0 is the text of a statement
that, wherever it is put, comes to its end, keeps the value of every variable with a name that
the generator does not make up, and gives its own variables the same values whatever the others
have. -/
theorem block_inert (rng : Draws) (h : paradigmOf rng = 0) :
    (synthesizeLogicBlock rng).1 =
        blockIntro ++ (ascii "    " ++ (mathStmtOf rng).text ++ [newline]) ∧
      (∀ (s : Text → UInt64) (x : Text), ¬ Own x →
        (mathStmtOf rng).cmd.exec meaning s x = s x) ∧
      ∀ (s t : Text → UInt64) (x : Text), x ∈ (mathStmtOf rng).cmd.writes →
        (mathStmtOf rng).cmd.exec meaning s x = (mathStmtOf rng).cmd.exec meaning t x := by
  refine ⟨?_, fun s x hx => ?_, fun s t x hx => ?_⟩
  · rw [synthesizeLogicBlock_math h,
      mathBlock_eq (Nat.mod_lt _ (by decide)) (Nat.mod_lt _ (by decide)), mathStmtOf]
  · refine exec_frame meaning (fun hmem => hx ?_) s
    rcases writes_mathStmt _ _ _ _ _ _ _ hmem with hfirst | hsecond
    · exact own_of_identifier ⟨ascii "core_", rfl⟩ _ hfirst
    · exact own_of_identifier ⟨ascii "mem_", rfl⟩ _ hsecond
  · obtain ⟨known, hdefines, hwrites⟩ := defines_mathStmt _ _ _ _ _ _ _
    exact exec_congr meaning hdefines (fun y hy => absurd hy List.not_mem_nil) x (hwrites x hx)

/-- The block drawn from zeros leaves a variable alone. -/
theorem block_inert_zeros :
    (mathStmtOf fun _ => 0).cmd.exec meaning (fun _ => 5) (ascii "x") = 5 :=
  (block_inert (fun _ => 0) rfl).2.1 _ _ (by decide)

end Swayam.Forge
