import Mathlib.Data.List.Basic

/-!
# Trees under addresses

A node of a tree is addressed by the positions of the children on the way to it. `RoseTree.nodeAt` goes
there, and `RoseTree.above` collects the labels on the way, which are those of its ancestors.
-/

set_option autoImplicit false
set_option relaxedAutoImplicit false

namespace DocStore.Foundation

/-- A tree with labelled nodes, whose children have an order. -/
inductive RoseTree (α : Type)
  | node (label : α) (children : List (RoseTree α))

namespace RoseTree

variable {α : Type}

def label : RoseTree α → α
  | node label _ => label

def children : RoseTree α → List (RoseTree α)
  | node _ children => children

/-- The node at an address. -/
def nodeAt : RoseTree α → List ℕ → Option (RoseTree α)
  | tree, [] => some tree
  | tree, position :: rest => tree.children[position]?.bind fun child ↦ child.nodeAt rest

/-- The labels on the way to an address. -/
def above : RoseTree α → List ℕ → List α
  | _, [] => []
  | tree, position :: rest =>
    tree.label :: (tree.children[position]?.elim [] fun child ↦ child.above rest)

variable {tree found : RoseTree α} {position : ℕ} {path rest : List ℕ}

@[simp] theorem nodeAt_nil : tree.nodeAt [] = some tree := rfl

@[simp] theorem above_nil : tree.above [] = [] := rfl

theorem nodeAt_cons_eq_some : tree.nodeAt (position :: rest) = some found ↔
    ∃ child, tree.children[position]? = some child ∧ child.nodeAt rest = some found :=
  Option.bind_eq_some_iff

theorem nodeAt_append (tree : RoseTree α) (path rest : List ℕ) :
    tree.nodeAt (path ++ rest) = (tree.nodeAt path).bind fun middle ↦ middle.nodeAt rest := by
  induction path generalizing tree with
  | nil => rfl
  | cons position path ih =>
    rw [List.cons_append, nodeAt, nodeAt]
    cases tree.children[position]? with
    | none => rfl
    | some child => exact ih child

theorem nodeAt_append_singleton_eq_some : tree.nodeAt (path ++ [position]) = some found ↔
    ∃ parent, tree.nodeAt path = some parent ∧ parent.children[position]? = some found := by
  rw [nodeAt_append, Option.bind_eq_some_iff]
  refine exists_congr fun parent ↦ and_congr_right fun _ ↦ ?_
  rw [nodeAt_cons_eq_some]
  simp

theorem above_cons {child : RoseTree α} (hchild : tree.children[position]? = some child) :
    tree.above (position :: rest) = tree.label :: child.above rest := by
  rw [above, hchild]
  rfl

/-- The ancestors are the nodes at the addresses on the way. -/
theorem mem_above {label : α} (hfound : tree.nodeAt path = some found) :
    label ∈ tree.above path ↔ ∃ front position back ancestor, path = front ++ position :: back ∧
      tree.nodeAt front = some ancestor ∧ ancestor.label = label := by
  induction path generalizing tree with
  | nil => simp
  | cons first path ih =>
    obtain ⟨child, hchild, hrest⟩ := nodeAt_cons_eq_some.mp hfound
    rw [above_cons hchild, List.mem_cons, ih hrest]
    constructor
    · rintro (rfl | ⟨front, position, back, ancestor, rfl, hancestor, hlabel⟩)
      · exact ⟨[], first, path, tree, rfl, rfl, rfl⟩
      · exact ⟨first :: front, position, back, ancestor, rfl,
          nodeAt_cons_eq_some.mpr ⟨child, hchild, hancestor⟩, hlabel⟩
    · rintro ⟨front, position, back, ancestor, hpath, hancestor, hlabel⟩
      cases front with
      | nil =>
        obtain rfl := Option.some.inj hancestor
        exact .inl hlabel.symm
      | cons other front =>
        obtain ⟨rfl, rfl⟩ := List.cons.inj hpath
        obtain ⟨child', hchild', hancestor⟩ := nodeAt_cons_eq_some.mp hancestor
        obtain rfl := Option.some.inj (hchild.symm.trans hchild')
        exact .inr ⟨front, position, back, ancestor, rfl, hancestor, hlabel⟩

end RoseTree

end DocStore.Foundation
