import Mathlib.Logic.Basic

/-!
# Trees with labels

Finitely branching trees with a label at each node, label by label: a function
applied to every label, and a condition met by all of them.

* `all_map` — what the labels of an image satisfy;
* `map_eq_map_iff` — two images of a tree are the same exactly when the functions
  agree on its labels.
-/

/-- A tree with a label at each node. -/
inductive Rose (α : Type)
  | node (label : α) (children : List (Rose α))

namespace Rose

variable {α β : Type}

mutual

def map (f : α → β) : Rose α → Rose β
  | .node label children => .node (f label) (mapList f children)

def mapList (f : α → β) : List (Rose α) → List (Rose β)
  | [] => []
  | child :: rest => child.map f :: mapList f rest

end

mutual

/-- Every label meets the condition. -/
def All (p : α → Prop) : Rose α → Prop
  | .node label children => p label ∧ AllList p children

def AllList (p : α → Prop) : List (Rose α) → Prop
  | [] => True
  | child :: rest => child.All p ∧ AllList p rest

end

variable {p q : α → Prop}

mutual

theorem All.imp (h : ∀ x, p x → q x) : ∀ {t : Rose α}, t.All p → t.All q
  | .node label _, ht => ⟨h label ht.1, AllList.imp h ht.2⟩

theorem AllList.imp (h : ∀ x, p x → q x) : ∀ {ts : List (Rose α)}, AllList p ts → AllList q ts
  | [], _ => trivial
  | _ :: _, ht => ⟨All.imp h ht.1, AllList.imp h ht.2⟩

end

mutual

theorem All.and : ∀ {t : Rose α}, t.All p → t.All q → t.All fun x => p x ∧ q x
  | .node _ _, hp, hq => ⟨⟨hp.1, hq.1⟩, AllList.and hp.2 hq.2⟩

theorem AllList.and : ∀ {ts : List (Rose α)}, AllList p ts → AllList q ts →
    AllList (fun x => p x ∧ q x) ts
  | [], _, _ => trivial
  | _ :: _, hp, hq => ⟨All.and hp.1 hq.1, AllList.and hp.2 hq.2⟩

end

mutual

theorem all_map {f : β → α} : ∀ {t : Rose β}, (t.map f).All p ↔ t.All fun x => p (f x)
  | .node _ _ => by rw [map, All, All, allList_map]

theorem allList_map {f : β → α} : ∀ {ts : List (Rose β)},
    AllList p (mapList f ts) ↔ AllList (fun x => p (f x)) ts
  | [] => Iff.rfl
  | _ :: _ => by rw [mapList, AllList, AllList, all_map, allList_map]

end

mutual

/-- **Images are told apart by the labels.** -/
theorem map_eq_map_iff {f g : α → β} : ∀ {t : Rose α}, t.map f = t.map g ↔ t.All fun x => f x = g x
  | .node _ _ => by rw [map, map, All, node.injEq, mapList_eq_mapList_iff]

/-- Two maps agree on a forest exactly if they agree on every label. -/
theorem mapList_eq_mapList_iff {f g : α → β} : ∀ {ts : List (Rose α)},
    mapList f ts = mapList g ts ↔ AllList (fun x => f x = g x) ts
  | [] => by simp [mapList, AllList]
  | _ :: _ => by rw [mapList, mapList, AllList, List.cons.injEq, map_eq_map_iff,
      mapList_eq_mapList_iff]

end

end Rose
