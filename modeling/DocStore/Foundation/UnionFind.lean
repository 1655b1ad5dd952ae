import DocStore.Foundation.Assoc
import Mathlib.Data.Finset.Card
import Mathlib.Data.Finset.Range
import Mathlib.Logic.Relation

/-!
# Union and find

A forest is a dict of parents; an item without an entry is its own parent. `find` climbs to the root
of an item by recursion and makes it the parent of everything on the way, `union` puts the root of
the right item under the root of the left one. There are no ranks, so a tree can be as high as the
forest has items. The recursion has a number of frames, and `find` fails exactly when the climb is
longer (`find_eq_none`, `find_spec`).

What a forest says is who shares a root. `find` keeps that, and nobody climbs longer than before
(`Compresses.climbsTo`); `union` joins two trees, and everybody climbs at most one step more
(`climbsTo_link`). So a forest into which pairs have been united has the classes of the smallest
equivalence that holds these pairs (`Represents.union`).
-/

set_option autoImplicit false
set_option relaxedAutoImplicit false

namespace DocStore.Foundation.UnionFind

variable {ι : Type*}

/-! ### Climbing -/

/-- An item climbs in a number of steps to a root, which is its own parent. -/
inductive ClimbsTo (up : ι → ι) : ι → ℕ → ι → Prop
  | root {item : ι} : up item = item → ClimbsTo up item 0 item
  | step {item root : ι} {steps : ℕ} :
    up item ≠ item → ClimbsTo up (up item) steps root → ClimbsTo up item (steps + 1) root

section Climbing

variable {up : ι → ι} {item root other : ι} {steps more : ℕ}

theorem ClimbsTo.up_root (hclimbs : ClimbsTo up item steps root) : up root = root := by
  induction hclimbs with
  | root hroot => exact hroot
  | step _ _ ih => exact ih

/-- There is one way up. -/
theorem ClimbsTo.unique (hclimbs : ClimbsTo up item steps root)
    (hother : ClimbsTo up item more other) : steps = more ∧ root = other := by
  induction hclimbs generalizing more other with
  | root hroot =>
    cases hother with
    | root => exact ⟨rfl, rfl⟩
    | step hne => exact absurd hroot hne
  | step hne _ ih =>
    cases hother with
    | root hroot => exact absurd hroot hne
    | step _ hrest =>
      obtain ⟨rfl, rfl⟩ := ih hrest
      exact ⟨rfl, rfl⟩

/-- A root climbs no step. -/
theorem ClimbsTo.eq_of_up_eq (hclimbs : ClimbsTo up item steps root) (hroot : up item = item) :
    steps = 0 ∧ root = item :=
  hclimbs.unique (.root hroot)

theorem ClimbsTo.eq_of_zero (hclimbs : ClimbsTo up item 0 root) : root = item := by
  cases hclimbs
  rfl

/-- What stands on the way. -/
theorem ClimbsTo.iterate (hclimbs : ClimbsTo up item steps root) {passed : ℕ}
    (hpassed : passed ≤ steps) : ClimbsTo up (up^[passed] item) (steps - passed) root := by
  induction passed generalizing item steps with
  | zero => exact hclimbs
  | succ passed ih =>
    cases hclimbs with
    | root => exact absurd hpassed (Nat.not_succ_le_zero _)
    | step _ hrest =>
      rw [Function.iterate_succ_apply, Nat.add_sub_add_right]
      exact ih hrest (Nat.le_of_succ_le_succ hpassed)

/-- A climb is not longer than the way to a place that is a root. -/
theorem ClimbsTo.le_of_iterate (hclimbs : ClimbsTo up item steps root) {passed : ℕ}
    (hroot : up (up^[passed] item) = up^[passed] item) : steps ≤ passed := by
  rcases Nat.le_total steps passed with hle | hle
  · exact hle
  · have hzero := ((hclimbs.iterate hle).eq_of_up_eq hroot).1
    omega

/-- A climb passes different items, so it is shorter than a set that holds them is large. -/
theorem ClimbsTo.lt_card [DecidableEq ι] (hclimbs : ClimbsTo up item steps root) {items : Finset ι}
    (hitem : item ∈ items) (hclosed : ∀ other ∈ items, up other ∈ items) : steps < items.card := by
  have hmem : ∀ passed, up^[passed] item ∈ items := by
    intro passed
    induction passed with
    | zero => exact hitem
    | succ passed ih =>
      rw [Function.iterate_succ_apply']
      exact hclosed _ ih
  have hinj : Set.InjOn (fun passed ↦ up^[passed] item) (Finset.range (steps + 1)) := by
    intro first hfirst second hsecond hsame
    rw [Finset.coe_range, Set.mem_Iio] at hfirst hsecond
    have hclimb := hclimbs.iterate (Nat.le_of_lt_succ hfirst)
    have hclimb' := hclimbs.iterate (Nat.le_of_lt_succ hsecond)
    have hplace : up^[first] item = up^[second] item := hsame
    rw [hplace] at hclimb
    have hsteps := (hclimb.unique hclimb').1
    omega
  have hcard := Finset.card_le_card_of_injOn _ (fun passed _ ↦ hmem passed) hinj
  rw [Finset.card_range] at hcard
  omega

end Climbing

/-! ### Compressing and linking -/

/-- A forest whose parents are those of another one or its roots. -/
def Compresses (up later : ι → ι) : Prop :=
  ∀ item, later item = up item ∨ ∃ steps, ClimbsTo up item steps (later item)

theorem Compresses.refl (up : ι → ι) : Compresses up up := fun _ ↦ .inl rfl

section Changing

variable {up later : ι → ι} {item root : ι} {steps : ℕ}

theorem Compresses.up_eq (hcompresses : Compresses up later) (hroot : up item = item) :
    later item = item := by
  rcases hcompresses item with hsame | ⟨steps, hclimbs⟩
  · exact hsame.trans hroot
  · exact (hclimbs.eq_of_up_eq hroot).2

/-- **Compressing keeps the roots**, and nobody climbs longer. -/
theorem Compresses.climbsTo (hcompresses : Compresses up later)
    (hclimbs : ClimbsTo up item steps root) :
    ∃ fewer ≤ steps, ClimbsTo later item fewer root := by
  induction hclimbs with
  | root hroot => exact ⟨0, le_rfl, .root (hcompresses.up_eq hroot)⟩
  | @step item root steps hne hrest ih =>
    obtain ⟨fewer, hfewer, hlater⟩ := ih
    rcases hcompresses item with hsame | ⟨others, hdirect⟩
    · refine ⟨fewer + 1, Nat.succ_le_succ hfewer, .step (hsame ▸ hne) ?_⟩
      rwa [hsame]
    · have hroot := (hdirect.unique (.step hne hrest)).2
      have hother : root ≠ item := by
        rintro rfl
        exact hne hrest.up_root
      refine ⟨1, Nat.succ_le_succ (Nat.zero_le _), .step ?_ ?_⟩
      · rwa [hroot]
      · rw [hroot]
        exact .root (hcompresses.up_eq hrest.up_root)

theorem Compresses.trans {last : ι → ι} (hfirst : Compresses up later)
    (hsecond : Compresses later last) (htotal : ∀ item, ∃ steps root, ClimbsTo up item steps root) :
    Compresses up last := by
  intro item
  rcases hsecond item with hsame | ⟨steps, hclimbs⟩
  · rw [hsame]
    exact hfirst item
  · obtain ⟨more, root, hup⟩ := htotal item
    obtain ⟨fewer, -, hlater⟩ := hfirst.climbsTo hup
    rw [(hclimbs.unique hlater).2]
    exact .inr ⟨more, hup⟩

/-- An item below one that was compressed climbs two steps at most. -/
theorem Compresses.le_two {left right top other : ι} (hcompresses : Compresses up later)
    (hunder : up right = left) (hleft : later left = top) (htop : up top = top)
    (hclimbs : ClimbsTo later right steps other) : steps ≤ 2 := by
  have hiterate : later (later^[2] right) = later^[2] right := by
    rw [Function.iterate_succ_apply, Function.iterate_one]
    rcases hcompresses right with hsame | ⟨before, hdirect⟩
    · rw [hsame, hunder, hleft]
      exact hcompresses.up_eq htop
    · rw [hcompresses.up_eq hdirect.up_root]
      exact hcompresses.up_eq hdirect.up_root
  exact hclimbs.le_of_iterate hiterate

/-- **Linking a root under another one** makes it the root of those who climbed to it, and they climb
one step more. -/
theorem climbsTo_link [DecidableEq ι] {winner loser : ι} (hwinner : up winner = winner)
    (hloser : up loser = loser) (hne : winner ≠ loser) (hclimbs : ClimbsTo up item steps root) :
    (root = loser ∧ ClimbsTo (Function.update up loser winner) item (steps + 1) winner) ∨
      (root ≠ loser ∧ ClimbsTo (Function.update up loser winner) item steps root) := by
  have htop : ClimbsTo (Function.update up loser winner) winner 0 winner :=
    .root (by rw [Function.update_of_ne hne, hwinner])
  induction hclimbs with
  | @root item hroot =>
    by_cases hlost : item = loser
    · refine .inl ⟨hlost, .step ?_ ?_⟩
      · rw [hlost, Function.update_self]
        exact hne
      · rw [hlost, Function.update_self]
        exact htop
    · exact .inr ⟨hlost, .root (by rw [Function.update_of_ne hlost, hroot])⟩
  | @step item root steps hup hrest ih =>
    have hitem : item ≠ loser := by
      rintro rfl
      exact hup hloser
    have hkept : Function.update up loser winner item = up item := Function.update_of_ne hitem _ _
    refine ih.imp (fun hlost ↦ ⟨hlost.1, .step (hkept ▸ hup) ?_⟩)
      fun hstays ↦ ⟨hstays.1, .step (hkept ▸ hup) ?_⟩
    · rw [hkept]
      exact hlost.2
    · rw [hkept]
      exact hstays.2

end Changing

/-! ### The operations -/

section Operations

variable [DecidableEq ι]

/-- The parent of an item. -/
def above (parents : List (ι × ι)) (item : ι) : ι := (getKey parents item).getD item

/-- The root of an item, which becomes the parent of everything on the way to it. The recursion has
`frames` frames, and fails when it needs more. -/
def find : ℕ → List (ι × ι) → ι → Option (ι × List (ι × ι))
  | 0, _, _ => none
  | frames + 1, parents, item =>
    let parents := setDefault parents (item, item)
    if above parents item ≠ item then
      (find frames parents (above parents item)).map fun found ↦
        (found.1, setKey found.2 item found.1)
    else some (item, parents)

/-- Puts the root of the right item under the root of the left one. -/
def union (frames : ℕ) (parents : List (ι × ι)) (left right : ι) : Option (List (ι × ι)) := do
  let (leftRoot, parents) ← find frames parents left
  let (rightRoot, parents) ← find frames parents right
  return if leftRoot ≠ rightRoot then setKey parents rightRoot leftRoot else parents

@[simp] theorem above_nil (item : ι) : above [] item = item := rfl

theorem above_setKey (parents : List (ι × ι)) (item parent : ι) :
    above (setKey parents item parent) = Function.update (above parents) item parent := by
  funext other
  rw [above]
  by_cases hsame : other = item
  · rw [hsame, getKey_setKey_self, Function.update_self]
    rfl
  · rw [getKey_setKey_of_ne _ _ hsame, Function.update_of_ne hsame]
    rfl

/-- An item that is entered as its own parent had no other one. -/
theorem above_setDefault (parents : List (ι × ι)) (item : ι) :
    above (setDefault parents (item, item)) = above parents := by
  funext other
  rw [setDefault]
  split
  · rfl
  next hnew =>
    rw [Option.not_isSome_iff_eq_none] at hnew
    rw [above, above, getKey_append]
    by_cases hsame : other = item
    · rw [hsame, hnew]
      simp [getKey]
    · have hnone : getKey [(item, item)] other = none := by
        simp [getKey, Ne.symm hsame]
      rw [hnone, Option.or_none]

/-- A climb that has as many steps as there are frames, or more, is not made. -/
theorem find_eq_none {parents : List (ι × ι)} {item root : ι} {steps frames : ℕ}
    (hclimbs : ClimbsTo (above parents) item steps root) (hframes : frames ≤ steps) :
    find frames parents item = none := by
  induction frames generalizing parents item steps with
  | zero => rfl
  | succ frames ih =>
    cases hclimbs with
    | root => exact absurd hframes (Nat.not_succ_le_zero _)
    | step hne hrest =>
      rw [find, above_setDefault, if_pos hne, Option.map_eq_none_iff]
      refine ih ?_ (Nat.le_of_succ_le_succ hframes)
      rwa [above_setDefault]

/-- **What `find` does** when it has frames enough: it returns the root, which becomes the parent of
the item, and compresses the forest. -/
theorem find_spec {parents : List (ι × ι)} {item root : ι} {steps frames : ℕ}
    (hclimbs : ClimbsTo (above parents) item steps root) (hframes : steps < frames) :
    ∃ later, find frames parents item = some (root, later) ∧
      Compresses (above parents) (above later) ∧ above later item = root := by
  induction frames generalizing parents item steps with
  | zero => exact absurd hframes (Nat.not_lt_zero _)
  | succ frames ih =>
    have hdefault := above_setDefault parents item
    cases hclimbs with
    | root hroot =>
      refine ⟨setDefault parents (root, root), ?_, ?_, ?_⟩
      · rw [find, hdefault, if_neg (not_not.mpr hroot)]
      · rw [hdefault]
        exact .refl _
      · rw [hdefault, hroot]
    | @step _ _ steps hne hrest =>
      have hrest' : ClimbsTo (above (setDefault parents (item, item))) (above parents item) steps
          root := by
        rwa [hdefault]
      obtain ⟨later, hfound, hcompresses, -⟩ := ih hrest' (Nat.lt_of_succ_lt_succ hframes)
      rw [hdefault] at hcompresses
      refine ⟨setKey later item root, ?_, fun other ↦ ?_, ?_⟩
      · rw [find, hdefault, if_pos hne, hfound, Option.map_some]
      · rw [above_setKey]
        by_cases hsame : other = item
        · rw [hsame, Function.update_self]
          exact .inr ⟨_, .step hne hrest⟩
        · rw [Function.update_of_ne hsame]
          exact hcompresses other
      · rw [above_setKey, Function.update_self]

theorem find_of_root {parents : List (ι × ι)} {item : ι} (frames : ℕ)
    (hroot : above parents item = item) :
    find (frames + 1) parents item = some (item, setDefault parents (item, item)) := by
  rw [find, above_setDefault, if_neg (not_not.mpr hroot)]

/-- Uniting two roots compresses nothing. -/
theorem exists_union_of_roots {parents : List (ι × ι)} {left right : ι} (frames : ℕ)
    (hleft : above parents left = left) (hright : above parents right = right)
    (hne : left ≠ right) : ∃ later, union (frames + 1) parents left right = some later ∧
      above later = Function.update (above parents) right left := by
  have hright' : above (setDefault parents (left, left)) right = right := by
    rw [above_setDefault, hright]
  refine ⟨_, Option.bind_eq_some_iff.mpr ⟨_, find_of_root frames hleft,
    Option.bind_eq_some_iff.mpr ⟨_, find_of_root frames hright', rfl⟩⟩, ?_⟩
  rw [if_pos hne, above_setKey, above_setDefault, above_setDefault]

/-- Uniting fails when the climb from the right item has as many steps as there are frames. -/
theorem union_eq_none {parents : List (ι × ι)} {left right root : ι} {steps frames : ℕ}
    (hleft : above parents left = left) (hclimbs : ClimbsTo (above parents) right steps root)
    (hframes : frames ≤ steps) : union frames parents left right = none := by
  cases frames with
  | zero => rfl
  | succ frames =>
    have hclimbs' : ClimbsTo (above (setDefault parents (left, left))) right steps root := by
      rwa [above_setDefault]
    rw [union, find_of_root frames hleft]
    show (find (frames + 1) (setDefault parents (left, left)) right).bind _ = none
    rw [find_eq_none hclimbs' hframes, Option.bind_none]

end Operations

/-! ### What a forest represents -/

/-- A forest with the roots of its items, and the relation whose classes its trees are. -/
structure Represents (up rootOf : ι → ι) (linked : ι → ι → Prop) : Prop where
  climbs : ∀ item, ∃ steps, ClimbsTo up item steps (rootOf item)
  joined : ∀ first second,
    rootOf first = rootOf second ↔ Relation.EqvGen linked first second

section Representing

variable {up rootOf : ι → ι} {linked : ι → ι → Prop}

/-- An item and its parent have one root. -/
theorem Represents.rootOf_up (hforest : Represents up rootOf linked) (item : ι) :
    rootOf (up item) = rootOf item := by
  obtain ⟨steps, hclimbs⟩ := hforest.climbs item
  obtain ⟨more, hparent⟩ := hforest.climbs (up item)
  by_cases hroot : up item = item
  · rw [hroot]
  · exact ((ClimbsTo.step hroot hparent).unique hclimbs).2

/-- Nobody climbs as many steps as items are linked with him. -/
theorem Represents.lt_card [DecidableEq ι] (hforest : Represents up rootOf linked)
    {items : Finset ι} (hclosed : ∀ item ∈ items, ∀ other,
      Relation.EqvGen linked item other → other ∈ items)
    {item root : ι} {steps : ℕ} (hitem : item ∈ items) (hclimbs : ClimbsTo up item steps root) :
    steps < items.card :=
  hclimbs.lt_card hitem fun other hother ↦
    hclosed other hother _ ((hforest.joined _ _).mp (hforest.rootOf_up other).symm)

/-- In the empty forest everything is a root, and nothing is linked. -/
theorem represents_id : Represents (id : ι → ι) id fun _ _ ↦ False where
  climbs item := ⟨0, .root rfl⟩
  joined first second := by
    constructor
    · rintro rfl
      exact .refl first
    · intro hlinked
      induction hlinked with
      | rel _ _ hnever => exact hnever.elim
      | refl => rfl
      | symm _ _ _ ih => exact ih.symm
      | trans _ _ _ _ _ hfirst hsecond => exact hfirst.trans hsecond

theorem Represents.compresses {later : ι → ι} (hforest : Represents up rootOf linked)
    (hcompresses : Compresses up later) : Represents later rootOf linked where
  climbs item := by
    obtain ⟨steps, hclimbs⟩ := hforest.climbs item
    obtain ⟨fewer, -, hlater⟩ := hcompresses.climbsTo hclimbs
    exact ⟨fewer, hlater⟩
  joined := hforest.joined

variable [DecidableEq ι]

/-- The roots after the root of the right item was put under that of the left one. -/
def joinRoots (rootOf : ι → ι) (left right item : ι) : ι :=
  if rootOf item = rootOf right then rootOf left else rootOf item

/-- Joining two classes is linking them. -/
theorem joinRoots_eq_iff (hjoined : ∀ first second,
      rootOf first = rootOf second ↔ Relation.EqvGen linked first second)
    (left right first second : ι) :
    joinRoots rootOf left right first = joinRoots rootOf left right second ↔
      Relation.EqvGen (fun item other ↦ linked item other ∨ item = left ∧ other = right)
        first second := by
  have hmore : ∀ {item other}, rootOf item = rootOf other → Relation.EqvGen
      (fun item other ↦ linked item other ∨ item = left ∧ other = right) item other := by
    intro item other hsame
    exact ((hjoined item other).mp hsame).mono fun _ _ hlinked ↦ .inl hlinked
  have hlink : Relation.EqvGen
      (fun item other ↦ linked item other ∨ item = left ∧ other = right) left right :=
    .rel _ _ (.inr ⟨rfl, rfl⟩)
  constructor
  · intro hsame
    rw [joinRoots, joinRoots] at hsame
    split at hsame
    next hfirst =>
      split at hsame
      next hsecond => exact hmore (hfirst.trans hsecond.symm)
      next => exact .trans _ _ _ (hmore hfirst) (.trans _ _ _ hlink.symm (hmore hsame))
    next =>
      split at hsame
      next hsecond => exact .trans _ _ _ (hmore hsame) (.trans _ _ _ hlink (hmore hsecond.symm))
      next => exact hmore hsame
  · intro hlinked
    induction hlinked with
    | rel item other hlinked =>
      rcases hlinked with hlinked | ⟨rfl, rfl⟩
      · rw [joinRoots, joinRoots, (hjoined item other).mpr (.rel _ _ hlinked)]
      · rw [joinRoots, joinRoots, if_pos rfl, ite_self]
    | refl => rfl
    | symm _ _ _ ih => exact ih.symm
    | trans _ _ _ _ _ hfirst hsecond => exact hfirst.trans hsecond

/-- What a successful `find` does. -/
theorem Represents.find {parents later : List (ι × ι)} {item root : ι} {frames : ℕ}
    (hforest : Represents (above parents) rootOf linked)
    (hfound : UnionFind.find frames parents item = some (root, later)) :
    root = rootOf item ∧ Compresses (above parents) (above later) ∧ above later item = root := by
  obtain ⟨steps, hclimbs⟩ := hforest.climbs item
  have hframes : steps < frames := by
    refine Nat.lt_of_not_le fun hle ↦ ?_
    rw [find_eq_none hclimbs hle] at hfound
    cases hfound
  obtain ⟨_, hspec, hcompresses, habove⟩ := find_spec hclimbs hframes
  obtain ⟨rfl, rfl⟩ := Prod.mk.inj (Option.some.inj (hspec.symm.trans hfound))
  exact ⟨rfl, hcompresses, habove⟩

/-- What a successful `union` does: it compresses the forest, and links the roots when they are
different ones. -/
theorem Represents.union_spec {parents later : List (ι × ι)} {left right : ι} {frames : ℕ}
    (hforest : Represents (above parents) rootOf linked)
    (hunion : UnionFind.union frames parents left right = some later) :
    ∃ middle, Compresses (above parents) middle ∧ above later =
      if rootOf left ≠ rootOf right then
        Function.update middle (rootOf right) (rootOf left) else middle := by
  obtain ⟨⟨leftRoot, first⟩, hleft, hunion⟩ := Option.bind_eq_some_iff.mp hunion
  obtain ⟨⟨rightRoot, second⟩, hright, hunion⟩ := Option.bind_eq_some_iff.mp hunion
  obtain ⟨rfl, hfirst, -⟩ := hforest.find hleft
  obtain ⟨rfl, hsecond, -⟩ := (hforest.compresses hfirst).find hright
  obtain rfl := Option.some.inj hunion
  refine ⟨above second, hfirst.trans hsecond fun item ↦ ?_, ?_⟩
  · obtain ⟨steps, hclimbs⟩ := hforest.climbs item
    exact ⟨steps, _, hclimbs⟩
  · split
    · exact above_setKey _ _ _
    · rfl

/-- **Uniting two items** puts the link between them into the relation. -/
theorem Represents.union {parents later : List (ι × ι)} {left right : ι} {frames : ℕ}
    (hforest : Represents (above parents) rootOf linked)
    (hunion : UnionFind.union frames parents left right = some later) :
    Represents (above later) (joinRoots rootOf left right)
      fun item other ↦ linked item other ∨ item = left ∧ other = right := by
  refine ⟨fun item ↦ ?_, joinRoots_eq_iff hforest.joined left right⟩
  obtain ⟨middle, hcompresses, hlater⟩ := hforest.union_spec hunion
  have hmiddle := hforest.compresses hcompresses
  obtain ⟨steps, hclimbs⟩ := hmiddle.climbs item
  obtain ⟨_, hleft⟩ := hmiddle.climbs left
  obtain ⟨_, hright⟩ := hmiddle.climbs right
  rw [hlater, joinRoots]
  by_cases hsame : rootOf left = rootOf right
  · rw [if_neg (not_not.mpr hsame)]
    refine ⟨steps, ?_⟩
    split
    next hitem => exact (hitem.trans hsame.symm) ▸ hclimbs
    next => exact hclimbs
  · rw [if_pos hsame]
    rcases climbsTo_link hleft.up_root hright.up_root hsame hclimbs with ⟨hlost, hlink⟩ | ⟨hkept, hlink⟩
    · rw [if_pos hlost]
      exact ⟨_, hlink⟩
    · rw [if_neg hkept]
      exact ⟨_, hlink⟩

/-- `union` has frames enough when both climbs are shorter. -/
theorem Represents.exists_union {parents : List (ι × ι)} {left right : ι} {frames : ℕ}
    (hforest : Represents (above parents) rootOf linked)
    (hshort : ∀ item ∈ [left, right], ∀ steps root,
      ClimbsTo (above parents) item steps root → steps < frames) :
    ∃ later, UnionFind.union frames parents left right = some later := by
  obtain ⟨hleftShort, hrightShort⟩ := List.forall_mem_cons.mp hshort
  obtain ⟨steps, hleft⟩ := hforest.climbs left
  obtain ⟨first, hfound, hfirst, -⟩ := find_spec hleft (hleftShort _ _ hleft)
  obtain ⟨more, hright⟩ := hforest.climbs right
  obtain ⟨fewer, hfewer, hright'⟩ := hfirst.climbsTo hright
  have hframes := hrightShort right List.mem_cons_self _ _ hright
  obtain ⟨second, hfound', -⟩ := find_spec hright' (hfewer.trans_lt hframes)
  exact ⟨_, Option.bind_eq_some_iff.mpr ⟨_, hfound,
    Option.bind_eq_some_iff.mpr ⟨_, hfound', rfl⟩⟩⟩

/-! ### How high a tree gets -/

/-- After some unions, the first of which put one item under another one, nobody climbs that many
steps, unless it is this item and it still hangs under the other one. -/
structure Shallow (up : ι → ι) (left right : ι) (unions : ℕ) : Prop where
  others : ∀ item, item ≠ right → ∀ steps root, ClimbsTo up item steps root → steps < unions
  first : up right = left ∨ ∀ steps root, ClimbsTo up right steps root → steps < unions

theorem Shallow.le {left right : ι} {unions : ℕ} (hshallow : Shallow up left right unions)
    (hne : left ≠ right) {item root : ι} {steps : ℕ} (hclimbs : ClimbsTo up item steps root) :
    steps ≤ unions := by
  by_cases hitem : item = right
  · subst hitem
    rcases hshallow.first with hunder | hless
    · cases hclimbs with
      | root => exact Nat.zero_le _
      | step _ hrest => exact hshallow.others _ (hunder ▸ hne) _ _ hrest
    · exact (hless _ _ hclimbs).le
  · exact (hshallow.others item hitem _ _ hclimbs).le

/-- After a union everybody climbs at most one step more than in the compressed forest. -/
theorem Represents.exists_climbsTo_le {middle later : ι → ι} {left right : ι}
    (hmiddle : Represents middle rootOf linked)
    (hlater : later = if rootOf left ≠ rootOf right then
      Function.update middle (rootOf right) (rootOf left) else middle)
    {item root : ι} {steps : ℕ} (hclimbs : ClimbsTo middle item steps root) :
    ∃ more ≤ steps + 1, ∃ root, ClimbsTo later item more root := by
  obtain ⟨_, hleft⟩ := hmiddle.climbs left
  obtain ⟨_, hright⟩ := hmiddle.climbs right
  rw [hlater]
  split
  next hne =>
    rcases climbsTo_link hleft.up_root hright.up_root hne hclimbs with ⟨-, hlink⟩ | ⟨-, hlink⟩
    · exact ⟨_, le_rfl, _, hlink⟩
    · exact ⟨_, Nat.le_succ _, _, hlink⟩
  next => exact ⟨_, Nat.le_succ _, _, hclimbs⟩

/-- The first union. -/
theorem shallow_union_nil {later : List (ι × ι)} {left right : ι} {frames : ℕ} (hne : left ≠ right)
    (hunion : UnionFind.union frames [] left right = some later) :
    Shallow (above later) left right 1 := by
  have hempty : above ([] : List (ι × ι)) = id := rfl
  have hforest : Represents (above ([] : List (ι × ι))) id fun _ _ ↦ False := hempty ▸ represents_id
  obtain ⟨middle, hcompresses, hlater⟩ := hforest.union_spec hunion
  have hmiddle : ∀ item, middle item = item := fun item ↦ hcompresses.up_eq rfl
  have hlater := hlater.trans (if_pos hne)
  refine ⟨fun item hitem steps root hclimbs ↦ ?_, .inl ?_⟩
  · have hroot : above later item = item := by
      rw [hlater]
      exact (Function.update_of_ne hitem _ _).trans (hmiddle item)
    rw [(hclimbs.eq_of_up_eq hroot).1]
    exact Nat.zero_lt_one
  · rw [hlater]
    exact Function.update_self _ _ _

/-- **A union adds at most one step** to the bound. -/
theorem Shallow.union {parents later : List (ι × ι)} {left right first second : ι}
    {unions frames : ℕ} (hshallow : Shallow (above parents) left right unions)
    (hpositive : 0 < unions) (hne : left ≠ right)
    (hforest : Represents (above parents) rootOf linked)
    (hunion : UnionFind.union frames parents first second = some later) :
    Shallow (above later) left right (unions + 1) := by
  obtain ⟨middle, hcompresses, hlater⟩ := hforest.union_spec hunion
  have hmiddle := hforest.compresses hcompresses
  have hgrows : ∀ {item root steps}, ClimbsTo middle item steps root → ∀ {more other},
      ClimbsTo (above later) item more other → more ≤ steps + 1 := by
    intro item root steps hclimbs more other hmore
    obtain ⟨some, hsome, _, hclimbs'⟩ := hmiddle.exists_climbsTo_le hlater hclimbs
    exact (hmore.unique hclimbs').1 ▸ hsome
  have hless : ∀ {item}, (∀ steps root, ClimbsTo (above parents) item steps root → steps < unions) →
      ∀ steps root, ClimbsTo (above later) item steps root → steps < unions + 1 := by
    intro item hbefore steps root hclimbs
    obtain ⟨before, hclimbs'⟩ := hforest.climbs item
    obtain ⟨fewer, hfewer, hmid⟩ := hcompresses.climbsTo hclimbs'
    have hsteps := hgrows hmid hclimbs
    have hbound := hbefore _ _ hclimbs'
    omega
  refine ⟨fun item hitem ↦ hless (hshallow.others item hitem), ?_⟩
  rcases hshallow.first with hunder | hfirst
  · by_cases hstays : middle right = left
    · -- the right item is no root, so it is not put under another one
      obtain ⟨_, hsecond⟩ := hmiddle.climbs second
      have hroot : right ≠ rootOf second := by
        intro hsame
        have htop := hsecond.up_root
        rw [← hsame, hstays] at htop
        exact hne htop
      refine .inl ?_
      rw [hlater]
      split
      · exact (Function.update_of_ne hroot _ _).trans hstays
      · exact hstays
    · rcases hcompresses right with hsame | ⟨before, hdirect⟩
      · exact absurd (hsame.trans hunder) hstays
      · refine .inr fun steps root hclimbs ↦ ?_
        have hshort : ∃ fewer ≤ 1, ClimbsTo middle right fewer (middle right) := by
          have htop := hcompresses.up_eq hdirect.up_root
          by_cases hself : middle right = right
          · exact ⟨0, Nat.zero_le _, hself.symm ▸ .root hself⟩
          · exact ⟨1, le_rfl, .step hself (.root htop)⟩
        obtain ⟨fewer, hfewer, hmid⟩ := hshort
        have hsteps := hgrows hmid hclimbs
        have htwo : unions ≠ 1 := by
          rintro rfl
          obtain ⟨more, hleft⟩ := hforest.climbs left
          have hzero := hshallow.others left hne _ _ hleft
          obtain rfl := Nat.lt_one_iff.mp hzero
          have hclimb : ClimbsTo (above parents) right 1 (rootOf left) :=
            .step (hunder ▸ hne) (hunder ▸ hleft)
          exact hstays ((hdirect.unique hclimb).2.trans hleft.eq_of_zero)
        omega
  · exact .inr (hless hfirst)

end Representing

end DocStore.Foundation.UnionFind
