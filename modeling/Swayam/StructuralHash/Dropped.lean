import Mathlib.Data.Set.Subsingleton
import Swayam.Lib.Rose
import Swayam.StructuralHash

/-!
# SWAYAM — what `canonicalize` drops

clang writes the operator of an operation into `opcode`, and the declaration
that an expression refers to into `referencedDecl`. `canonicalize` reads
neither. So the canonical text of a tree stands for all the trees that differ
from it in these fields, and only where clang leaves no choice for them does it
say what they are.

* `canonical_read_eq_iff` — the canonical text determines the other fields, up to
  a renaming;
* `sameText_sound_iff` — it determines the operators and the references as well
  exactly when no node has a choice of operators, and no reference has a choice of
  declarations.
-/

namespace Swayam.StructuralHash

/-! ## The AST with its operators and references -/

/-- The fields of a node: those that `canonicalize` reads, and two that it does not. A reference
is given by the name of the declaration. -/
structure Fields (N V O : Type) where
  kind           : Text
  name           : Option N
  value          : Option V
  opcode         : Option O
  referencedDecl : Option N

abbrev Ast (N V O : Type) := Rose (Fields N V O)

variable {N V O : Type}

mutual

/-- What `canonicalize` reads of it. -/
def read : Ast N V O → Node N V
  | .node fields inner => .mk fields.kind fields.name fields.value (readInner inner)

def readInner : List (Ast N V O) → List (Node N V)
  | [] => []
  | child :: rest => read child :: readInner rest

end

/-- A node of the tree has this name. -/
def Declares (a : Ast N V O) (n : N) : Prop := Key.name n ∈ (read a).keys

/-- The fields under a renaming: the references follow the names. -/
def Fields.rename (σ : N → N) (τ : V → V) (x : Fields N V O) : Fields N V O where
  kind := x.kind
  name := x.name.map σ
  value := x.value.map τ
  opcode := x.opcode
  referencedDecl := x.referencedDecl.map σ

/-- What clang writes: the operators that a kind of node comes with, and the kinds of node that
refer to a declaration. -/
structure Clang (O : Type) where
  opcodes : Text → Set O
  refers  : Text → Prop

/-- The fields of a node as clang writes them, for the names that are declared. -/
structure Fields.WellFormed (clang : Clang O) (declared : N → Prop) (x : Fields N V O) : Prop where
  kind       : Plain x.kind
  opcode     : ∀ o, x.opcode = some o → o ∈ clang.opcodes x.kind
  noOpcode   : x.opcode = none → clang.opcodes x.kind = ∅
  reference  : x.referencedDecl.isSome = true ↔ clang.refers x.kind
  declared   : ∀ n, x.referencedDecl = some n → declared n

/-- A tree that clang writes. -/
structure ClangAst (clang : Clang O) (N V : Type) where
  ast        : Ast N V O
  wellFormed : ast.All (Fields.WellFormed clang (Declares ast))

/-! ## The fields that are read -/

mutual

/-- The kinds of what is read are those of the tree. -/
theorem kinds_read {p : Text → Prop} : ∀ {a : Ast N V O},
    (read a).Kinds p ↔ a.All fun x => p x.kind
  | .node _ _ => by rw [read, Node.Kinds, Rose.All, kindsInner_read]

theorem kindsInner_read {p : Text → Prop} : ∀ {as : List (Ast N V O)},
    KindsInner p (readInner as) ↔ Rose.AllList (fun x => p x.kind) as
  | [] => Iff.rfl
  | _ :: _ => by rw [readInner, KindsInner, Rose.AllList, kinds_read, kindsInner_read]

end

mutual

/-- Renaming a tree renames what is read of it. -/
theorem read_map_rename (σ : N → N) (τ : V → V) : ∀ a : Ast N V O,
    read (a.map (Fields.rename σ τ)) = (read a).map σ τ
  | .node _ inner => by
    rw [Rose.map, read, read, Node.map, readInner_map_rename σ τ inner]
    rfl

theorem readInner_map_rename (σ : N → N) (τ : V → V) : ∀ as : List (Ast N V O),
    readInner (Rose.mapList (Fields.rename σ τ) as) = mapInner σ τ (readInner as)
  | [] => rfl
  | child :: rest => by
    rw [Rose.mapList, readInner, readInner, mapInner, read_map_rename σ τ child,
      readInner_map_rename σ τ rest]

end

/-- A change of the other fields. -/
def Unread (f : Fields N V O → Fields N V O) : Prop :=
  ∀ x, (f x).kind = x.kind ∧ (f x).name = x.name ∧ (f x).value = x.value

mutual

/-- **A change of the other fields is not read.** -/
theorem read_map_of_unread {f : Fields N V O → Fields N V O} (hf : Unread f) :
    ∀ a : Ast N V O, read (a.map f) = read a
  | .node x inner => by
    obtain ⟨hkind, hname, hvalue⟩ := hf x
    rw [Rose.map, read, read, hkind, hname, hvalue, readInner_map_of_unread hf inner]

/-- A change of what is not read is not seen. -/
theorem readInner_map_of_unread {f : Fields N V O → Fields N V O} (hf : Unread f) :
    ∀ as : List (Ast N V O), readInner (Rose.mapList f as) = readInner as
  | [] => rfl
  | child :: rest => by
    rw [Rose.mapList, readInner, readInner, read_map_of_unread hf child,
      readInner_map_of_unread hf rest]

end

mutual

/-- Trees whose read fields correspond under a renaming are one the renaming of the other, when
their conditions determine the other fields. -/
theorem map_rename_of_read {p q : Fields N V O → Prop} {σ : N → N} {τ : V → V}
    (h : ∀ x y, p x → q y → y.kind = x.kind → y.name = x.name.map σ →
      y.value = x.value.map τ → x.rename σ τ = y) :
    ∀ {a b : Ast N V O}, a.All p → b.All q → (read a).map σ τ = read b →
      a.map (Fields.rename σ τ) = b
  | .node x inner, .node y inner', ha, hb, hread => by
    rw [read, read, Node.map, Node.mk.injEq] at hread
    obtain ⟨hkind, hname, hvalue, hinner⟩ := hread
    rw [Rose.map, h x y ha.1 hb.1 hkind.symm hname.symm hvalue.symm,
      mapList_rename_of_read h ha.2 hb.2 hinner]

/-- Two trees read alike up to a renaming are renamed into each other. -/
theorem mapList_rename_of_read {p q : Fields N V O → Prop} {σ : N → N} {τ : V → V}
    (h : ∀ x y, p x → q y → y.kind = x.kind → y.name = x.name.map σ →
      y.value = x.value.map τ → x.rename σ τ = y) :
    ∀ {as bs : List (Ast N V O)}, Rose.AllList p as → Rose.AllList q bs →
      mapInner σ τ (readInner as) = readInner bs → Rose.mapList (Fields.rename σ τ) as = bs
  | [], [], _, _, _ => rfl
  | [], _ :: _, _, _, hread => by simp [readInner, mapInner] at hread
  | _ :: _, [], _, _, hread => by simp [readInner, mapInner] at hread
  | child :: rest, child' :: rest', ha, hb, hread => by
    rw [readInner, readInner, mapInner, List.cons.injEq] at hread
    rw [Rose.mapList, map_rename_of_read h ha.1 hb.1 hread.1,
      mapList_rename_of_read h ha.2 hb.2 hread.2]

end

/-! ## What the text determines -/

section Text

variable [DecidableEq N] [DecidableEq V] {clang : Clang O}

/-- `canonicalize` of a tree that clang writes. -/
def ClangAst.canonical (a : ClangAst clang N V) : Text := StructuralHash.canonical (read a.ast)

omit [DecidableEq N] [DecidableEq V] in
/-- clang's kinds are plain. -/
theorem ClangAst.plain (a : ClangAst clang N V) : (read a.ast).Kinds Plain :=
  kinds_read.mpr (a.wellFormed.imp fun _ h => h.kind)

omit [DecidableEq N] [DecidableEq V] in
/-- A renaming that is seen renames the declarations. -/
theorem ClangAst.declares_of_mem {a : ClangAst clang N V} {σ : N → N} {τ : V → V}
    {b : ClangAst clang N V} (h : (read a.ast).map σ τ = read b.ast) {n : N} :
    Declares b.ast n ↔ ∃ m, Declares a.ast m ∧ σ m = n := by
  unfold Declares
  rw [← h, keys_map, List.mem_map]
  constructor
  · rintro ⟨key, hkey, heq⟩
    cases key with
    | name m => exact ⟨m, hkey, Key.name.inj heq⟩
    | value v => exact absurd heq (by simp [Key.map])
  · rintro ⟨m, hm, rfl⟩
    exact ⟨.name m, hm, rfl⟩

/-- The text determines what is read, up to a renaming. -/
theorem canonical_read_eq_iff (a b : ClangAst clang N V) : a.canonical = b.canonical ↔
    ∃ (σ : Equiv.Perm N) (τ : Equiv.Perm V), (read a.ast).map σ τ = read b.ast :=
  canonical_eq_iff _ _ a.plain b.plain

/-- clang leaves no choice: a node has one operator at most, and there is no reference, or only one
name that it could be to. -/
structure Determined (clang : Clang O) (a : Ast N V O) : Prop where
  opcodes    : a.All fun x => (clang.opcodes x.kind).Subsingleton
  references : (a.All fun x => ¬ clang.refers x.kind) ∨
    ∀ n m, Declares a n → Declares a m → n = m

omit [DecidableEq N] [DecidableEq V] in
/-- **Without a choice the other fields follow.** -/
theorem rename_of_determined {a b : ClangAst clang N V} (h : Determined clang a.ast)
    {σ : Equiv.Perm N} {τ : Equiv.Perm V} (hread : (read a.ast).map σ τ = read b.ast) :
    a.ast.map (Fields.rename σ τ) = b.ast := by
  have hdeclares : ∀ n, Declares b.ast n → ∃ m, Declares a.ast m ∧ σ m = n := fun n =>
    (ClangAst.declares_of_mem hread).mp
  -- a node of `a` that refers to something has only one name to refer to
  have hsingle : a.ast.All fun x => clang.refers x.kind →
      ∀ n m, Declares a.ast n → Declares a.ast m → n = m := by
    rcases h.references with hnone | hone
    · exact hnone.imp fun x hx hrefers => absurd hrefers hx
    · exact h.opcodes.imp fun x _ (_ : clang.refers x.kind) => hone
  refine map_rename_of_read ?_ (a.wellFormed.and (h.opcodes.and hsingle)) b.wellFormed hread
  rintro x y ⟨hx, hopcodes, hsingle⟩ hy hkind hname hvalue
  have hopcode : x.opcode = y.opcode := by
    cases hxo : x.opcode with
    | none =>
      have hempty := hx.noOpcode hxo
      cases hyo : y.opcode with
      | none => rfl
      | some o =>
        have hmem := hy.opcode o hyo
        rw [hkind, hempty] at hmem
        exact hmem.elim
    | some o =>
      have hmem := hx.opcode o hxo
      cases hyo : y.opcode with
      | none =>
        rw [← hkind, hy.noOpcode hyo] at hmem
        exact hmem.elim
      | some o' =>
        have hmem' := hy.opcode o' hyo
        rw [hkind] at hmem'
        rw [hopcodes hmem hmem']
  have hreference : x.referencedDecl.map σ = y.referencedDecl := by
    cases hxr : x.referencedDecl with
    | none =>
      cases hyr : y.referencedDecl with
      | none => rfl
      | some n =>
        -- both refer, or neither does
        have hrefers := hy.reference.mp (by rw [hyr]; rfl)
        rw [hkind, ← hx.reference, hxr] at hrefers
        exact absurd hrefers (by simp)
    | some n =>
      have hrefers := hx.reference.mp (by rw [hxr]; rfl)
      have hsome := hy.reference.mpr (hkind ▸ hrefers)
      obtain ⟨n', hyr⟩ := Option.isSome_iff_exists.mp hsome
      obtain ⟨m, hm, hσ⟩ := hdeclares n' (hy.declared n' hyr)
      rw [hyr, Option.map_some, ← hσ, hsingle hrefers n m (hx.declared n hxr) hm]
  cases y
  simp only [Fields.rename, Fields.mk.injEq] at *
  exact ⟨hkind.symm, hname.symm, hvalue.symm, hopcode, hreference⟩

/-! ## Trees with the same text -/

/-- Another operator for the same kind of node, if there is one. -/
noncomputable def otherOpcode (clang : Clang O) (kind : Text) (o : O) : O :=
  open Classical in
  if h : ∃ o', o' ∈ clang.opcodes kind ∧ o' ≠ o then h.choose else o

omit [DecidableEq N] [DecidableEq V] in
/-- The other opcode is one of the kind's. -/
theorem otherOpcode_mem {kind : Text} {o : O} (h : o ∈ clang.opcodes kind) :
    otherOpcode clang kind o ∈ clang.opcodes kind := by
  unfold otherOpcode
  split
  · rename_i hother
    exact hother.choose_spec.1
  · exact h

omit [DecidableEq N] [DecidableEq V] in
/-- No other operator is found where there is only one. -/
theorem subsingleton_of_otherOpcode {kind : Text} {o : O} (h : otherOpcode clang kind o = o) :
    (clang.opcodes kind).Subsingleton := by
  have hall : ∀ o' ∈ clang.opcodes kind, o' = o := by
    intro o' ho'
    by_contra hne
    have hother : ∃ o', o' ∈ clang.opcodes kind ∧ o' ≠ o := ⟨o', ho', hne⟩
    rw [otherOpcode, dif_pos hother] at h
    exact hother.choose_spec.2 h
  exact fun x hx y hy => (hall x hx).trans (hall y hy).symm

/-- The node with its operator exchanged for another. -/
noncomputable def Fields.exchangeOpcode (clang : Clang O) (x : Fields N V O) : Fields N V O :=
  { x with opcode := x.opcode.map (otherOpcode clang x.kind) }

/-- The node with its reference exchanged: one to `n` goes to `m`, and any other to `n`. -/
def Fields.exchangeReference (n m : N) (x : Fields N V O) : Fields N V O :=
  { x with referencedDecl := x.referencedDecl.map fun r => if r = n then m else n }

omit [DecidableEq N] [DecidableEq V] in
/-- An opcode is not read, -/
theorem unread_exchangeOpcode : Unread (Fields.exchangeOpcode (N := N) (V := V) clang) :=
  fun _ => ⟨rfl, rfl, rfl⟩

omit [DecidableEq V] in
/-- nor is a reference. -/
theorem unread_exchangeReference (n m : N) :
    Unread (Fields.exchangeReference (V := V) (O := O) n m) :=
  fun _ => ⟨rfl, rfl, rfl⟩

/-- The tree with every operator exchanged. -/
noncomputable def ClangAst.exchangeOpcodes (a : ClangAst clang N V) : ClangAst clang N V where
  ast := a.ast.map (Fields.exchangeOpcode clang)
  wellFormed := by
    rw [Rose.all_map]
    refine a.wellFormed.imp fun x hx => ⟨hx.kind, fun o ho => ?_, fun hnone => ?_, hx.reference, ?_⟩
    · obtain ⟨o', ho', rfl⟩ := Option.map_eq_some_iff.mp ho
      exact otherOpcode_mem (hx.opcode o' ho')
    · exact hx.noOpcode (Option.map_eq_none_iff.mp hnone)
    · intro n hn
      rw [Declares, read_map_of_unread unread_exchangeOpcode]
      exact hx.declared n hn

/-- The tree with every reference exchanged, for two names that it declares. -/
def ClangAst.exchangeReferences (a : ClangAst clang N V) {n m : N} (hn : Declares a.ast n)
    (hm : Declares a.ast m) : ClangAst clang N V where
  ast := a.ast.map (Fields.exchangeReference n m)
  wellFormed := by
    rw [Rose.all_map]
    refine a.wellFormed.imp fun x hx => ⟨hx.kind, hx.opcode, hx.noOpcode, ?_, ?_⟩
    · rw [Fields.exchangeReference, Option.isSome_map]
      exact hx.reference
    · intro r hr
      rw [Declares, read_map_of_unread (unread_exchangeReference n m)]
      obtain ⟨r', -, rfl⟩ := Option.map_eq_some_iff.mp hr
      split
      · exact hm
      · exact hn

/-- **With a choice the other fields are open**: a tree whose text determines them leaves none. -/
theorem determined_of_sound {a : ClangAst clang N V}
    (h : ∀ b : ClangAst clang N V, a.canonical = b.canonical →
      ∃ (σ : Equiv.Perm N) (τ : Equiv.Perm V), a.ast.map (Fields.rename σ τ) = b.ast) :
    Determined clang a.ast := by
  constructor
  · -- the operators are exchanged
    have hread : read a.exchangeOpcodes.ast = read a.ast :=
      read_map_of_unread unread_exchangeOpcode a.ast
    obtain ⟨σ, τ, hrename⟩ :=
      h a.exchangeOpcodes (by rw [ClangAst.canonical, ClangAst.canonical, hread])
    have hsame := Rose.map_eq_map_iff.mp hrename
    refine (hsame.and a.wellFormed).imp fun x hx => ?_
    obtain ⟨heq, hwell⟩ := hx
    have hopcode : x.opcode = x.opcode.map (otherOpcode clang x.kind) := congrArg Fields.opcode heq
    cases hxo : x.opcode with
    | none =>
      rw [hwell.noOpcode hxo]
      exact Set.subsingleton_empty
    | some o =>
      rw [hxo, Option.map_some, Option.some.injEq] at hopcode
      exact subsingleton_of_otherOpcode hopcode.symm
  · by_contra hno
    rw [not_or] at hno
    obtain ⟨hrefers, hnames⟩ := hno
    obtain ⟨n, m, hn, hm, hne⟩ : ∃ n m, Declares a.ast n ∧ Declares a.ast m ∧ n ≠ m := by
      by_contra hnone
      refine hnames fun n m hn hm => ?_
      by_contra hne
      exact hnone ⟨n, m, hn, hm, hne⟩
    -- the references are exchanged
    have hread : read (a.exchangeReferences hn hm).ast = read a.ast :=
      read_map_of_unread (unread_exchangeReference n m) a.ast
    obtain ⟨σ, τ, hrename⟩ := h (a.exchangeReferences hn hm)
      (by rw [ClangAst.canonical, ClangAst.canonical, hread])
    -- the renaming keeps every name that is declared
    have hfixed : ∀ r, Declares a.ast r → σ r = r := by
      intro r hr
      have hkeys : (read a.ast).keys.map (Key.map σ τ) = (read a.ast).keys.map id := by
        rw [← keys_map, ← read_map_rename, hrename, hread, List.map_id]
      exact Key.name.inj (List.map_inj_left.mp hkeys _ hr)
    have hsame := Rose.map_eq_map_iff.mp hrename
    refine hrefers ((hsame.and a.wellFormed).imp fun x hx hkind => ?_)
    obtain ⟨heq, hwell⟩ := hx
    obtain ⟨r, hr⟩ := Option.isSome_iff_exists.mp (hwell.reference.mpr hkind)
    have hreference : x.referencedDecl.map σ =
        x.referencedDecl.map (fun r => if r = n then m else n) := congrArg Fields.referencedDecl heq
    rw [hr, Option.map_some, Option.map_some, Option.some.injEq, hfixed r (hwell.declared r hr)]
      at hreference
    split at hreference
    · rename_i hrn
      exact hne (hrn ▸ hreference)
    · rename_i hrn
      exact hrn hreference

/-- **When an equal text means an equal program, up to names and literals.** For every tree that
clang writes: each tree with the same canonical text has the same operators at corresponding
nodes, and one renaming carries the names and references of the one to those of the other, if
and only if no node of the tree has a choice of operators, and it has no reference, or no two
names. -/
theorem sameText_sound_iff (clang : Clang O) (a : ClangAst clang N V) :
    (∀ b : ClangAst clang N V, a.canonical = b.canonical →
      ∃ (σ : Equiv.Perm N) (τ : Equiv.Perm V), a.ast.map (Fields.rename σ τ) = b.ast) ↔
      Determined clang a.ast := by
  constructor
  · exact determined_of_sound
  · intro hdetermined b hcanonical
    obtain ⟨σ, τ, hread⟩ := (canonical_read_eq_iff a b).mp hcanonical
    exact ⟨σ, τ, rename_of_determined hdetermined hread⟩

end Text

/-! ### A function with one operation -/

/-- Of what clang writes, the binary operations and the references to a declaration. -/
def someClang : Clang Text where
  opcodes kind := if kind = ascii "BinaryOperator" then {ascii "+", ascii "-"} else ∅
  refers kind := kind = ascii "DeclRefExpr"

/-- `int f() { return 1 + 2; }`, with this operator. -/
def operation (opcode : Text) : Ast Text Text Text :=
  .node ⟨ascii "TranslationUnitDecl", none, none, none, none⟩
    [.node ⟨ascii "FunctionDecl", some (ascii "f"), none, none, none⟩
      [.node ⟨ascii "BinaryOperator", none, none, some opcode, none⟩
        [.node ⟨ascii "IntegerLiteral", none, some (ascii "1"), none, none⟩ [],
         .node ⟨ascii "IntegerLiteral", none, some (ascii "2"), none, none⟩ []]]]

/-- A kind without blanks and parentheses is plain. -/
theorem plain_of_notMem {kind : Text} (h : blank ∉ kind ∧ closing ∉ kind) : Plain kind :=
  fun _ hb => ⟨fun heq => h.1 (heq ▸ hb), fun heq => h.2 (heq ▸ hb)⟩

/-- A node that is neither an operation nor a reference. -/
theorem wellFormed_of_neither {declared : Text → Prop} {kind : Text} {name value : Option Text}
    (hplain : blank ∉ kind ∧ closing ∉ kind) (hoperation : kind ≠ ascii "BinaryOperator")
    (hreference : kind ≠ ascii "DeclRefExpr") :
    Fields.WellFormed someClang declared ⟨kind, name, value, none, none⟩ where
  kind := plain_of_notMem hplain
  opcode _ ho := absurd ho (by simp)
  noOpcode _ := if_neg hoperation
  reference := iff_of_false (by simp) hreference
  declared _ hn := absurd hn (by simp)

def operationAst (opcode : Text) (h : opcode = ascii "+" ∨ opcode = ascii "-") :
    ClangAst someClang Text Text where
  ast := operation opcode
  wellFormed := by
    have hneither : ∀ {kind : Text} (name value : Option Text),
        (blank ∉ kind ∧ closing ∉ kind) ∧ kind ≠ ascii "BinaryOperator" ∧
          kind ≠ ascii "DeclRefExpr" →
        Fields.WellFormed someClang (Declares (operation opcode))
          ⟨kind, name, value, none, none⟩ :=
      fun _ _ h => wellFormed_of_neither h.1 h.2.1 h.2.2
    have hoperation : Fields.WellFormed someClang (Declares (operation opcode))
        (⟨ascii "BinaryOperator", none, none, some opcode, none⟩ : Fields Text Text Text) := by
      have hplain : Plain (ascii "BinaryOperator") := plain_of_notMem (by decide)
      have hreference : ascii "BinaryOperator" ≠ ascii "DeclRefExpr" := by decide
      refine ⟨hplain, fun o ho => ?_, fun hnone => absurd hnone (by simp),
        iff_of_false (by simp) hreference, fun _ hn => absurd hn (by simp)⟩
      obtain rfl := Option.some.inj ho
      simpa [someClang] using h
    exact ⟨hneither _ _ (by decide), ⟨hneither _ _ (by decide), ⟨hoperation,
      ⟨hneither _ _ (by decide), trivial⟩, ⟨hneither _ _ (by decide), trivial⟩, trivial⟩,
      trivial⟩, trivial⟩

/-- **A sum and a difference have one text.** -/
theorem sameText_fails_on_operators :
    ¬ ∀ (a b : ClangAst someClang Text Text), a.canonical = b.canonical →
        ∃ (σ τ : Equiv.Perm Text), a.ast.map (Fields.rename σ τ) = b.ast := by
  intro h
  obtain ⟨σ, τ, hrename⟩ := h (operationAst (ascii "+") (Or.inl rfl))
    (operationAst (ascii "-") (Or.inr rfl)) (by decide)
  simp only [operationAst, operation, Rose.map, Rose.mapList, Fields.rename, Rose.node.injEq,
    List.cons.injEq, Fields.mk.injEq] at hrename
  obtain ⟨-, ⟨-, ⟨⟨-, -, -, hopcode, -⟩, -⟩, -⟩, -⟩ := hrename
  exact absurd hopcode (by decide)

end Swayam.StructuralHash
