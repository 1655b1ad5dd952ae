import DocStore.Domain.Strings
import DocStore.Domain.TextOrder
import DocStore.Foundation.Grouping
import DocStore.Foundation.Ranking
import DocStore.Foundation.UnionFind
import Mathlib.Algebra.Order.Ring.Rat
import Mathlib.Data.Prod.Lex

/-!
# Groups of related items

The pair query returns rows of two items and their distance. `groupsFromRows` unites the items of
each row in a forest of parents, keeps what the first row with an item says about it and what the
last row with a pair says about its distance, collects the items by their roots in the order in which
they were first seen, and describes each list that is long enough by its first `maxGroupSize` items.

The forest of the rows has their connected components as its trees (`collectRows_spec`), so the lists
are the components by first appearance (`groupItems_eq`, `memberLists_eq`). Nothing is lost unless a
list is cut.
-/

set_option autoImplicit false
set_option relaxedAutoImplicit false

namespace DocStore

open Foundation

/-! ### The rows and the groups -/

/-- A row of the pair query. What `_item_from_row` reads of a side beside its id is only handed on. -/
structure PairRow (β : Type) where
  leftItemId : Text
  rightItemId : Text
  leftItem : β
  rightItem : β
  distance : ℚ

/-- Which pairs the request asks for. -/
inductive SemanticRelation
  | similar
  | opposite
  deriving DecidableEq

/-- How the request measures a pair. -/
inductive RelationMetric
  | cosineDistance
  | cosineSimilarity
  deriving DecidableEq

def SemanticRelation.text : SemanticRelation → Text
  | similar => lit "similar"
  | opposite => lit "opposite"

def RelationMetric.text : RelationMetric → Text
  | cosineDistance => lit "cosine_distance"
  | cosineSimilarity => lit "cosine_similarity"

/-- A member of a group, with its best scores among the listed members. -/
structure RelatedItem (β : Type) where
  id : Text
  item : β
  similarity : Option ℚ
  distance : Option ℚ

structure RelationGroup (β : Type) where
  groupId : Text
  representativeId : Text
  itemCount : ℕ
  reason : Text
  minScore : Option ℚ
  maxScore : Option ℚ
  avgScore : Option ℚ
  items : List (RelatedItem β)

/-- What of the request describes and bounds the groups. -/
structure RelationQuery where
  relation : SemanticRelation
  metric : RelationMetric
  /-- `str(threshold)`. -/
  thresholdText : Text
  minGroupSize : ℕ
  maxGroupSize : ℕ

/-! ### Reading the rows -/

section Reading

variable {β : Type}

/-- `tuple(sorted((left, right)))`. -/
def sortedPair (left right : Text) : Text × Text :=
  if textLe left right then (left, right) else (right, left)

/-- What the first loop has collected: the forest, the items by their ids, and distance and
similarity by pairs. -/
structure CollectedRows (β : Type) where
  parent : List (Text × Text)
  items : List (Text × β)
  scores : List ((Text × Text) × ℚ × ℚ)

/-- A turn of the first loop. The recursion of `_find` has a number of frames. -/
def collectRow (frames : ℕ) (collected : CollectedRows β) (row : PairRow β) :
    Option (CollectedRows β) := do
  let parent ← UnionFind.union frames collected.parent row.leftItemId row.rightItemId
  let items := setDefault collected.items (row.leftItemId, row.leftItem)
  let items := setDefault items (row.rightItemId, row.rightItem)
  return {
    parent
    items
    scores := setKey collected.scores (sortedPair row.leftItemId row.rightItemId)
      (row.distance, 1 - row.distance) }

def collectRows (frames : ℕ) (rows : List (PairRow β)) : Option (CollectedRows β) :=
  rows.foldlM (collectRow frames) { parent := [], items := [], scores := [] }

/-- The second loop: the ids by their roots. -/
def groupItems (frames : ℕ) :
    List Text → List (Text × Text) → List (Text × List Text) → Option (List (Text × List Text))
  | [], _, grouped => some grouped
  | itemId :: rest, parent, grouped => do
    let (root, parent) ← UnionFind.find frames parent itemId
    groupItems frames rest parent (appendKey grouped root itemId)

/-- `_best_item_score`. -/
def bestItemScore (itemId : Text) (groupIds : List Text) (scores : List ((Text × Text) × ℚ × ℚ))
    (similarity : Bool) : Option ℚ :=
  let others := groupIds.filter fun other ↦ decide (other ≠ itemId)
  let values := others.filterMap fun other ↦
    (getKey scores (sortedPair itemId other)).map fun pairScores ↦
      if similarity then pairScores.2 else pairScores.1
  if similarity then values.max? else values.min?

/-- `fmean(values) if values else None`. -/
def meanOf (values : List ℚ) : Option ℚ :=
  if values.isEmpty then none else some (values.foldl (· + ·) 0 / values.length)

/-- What a group says about one of its listed members. -/
def relatedItem (collected : CollectedRows β) (trimmed : List Text) (itemId : Text) :
    Option (RelatedItem β) := do
  let item ← getKey collected.items itemId
  return {
    id := itemId
    item
    similarity := bestItemScore itemId trimmed collected.scores true
    distance := bestItemScore itemId trimmed collected.scores false }

/-- A turn of the third loop for a list that is long enough. -/
def describeGroup (query : RelationQuery) (collected : CollectedRows β) (index : ℕ)
    (memberIds : List Text) : Option (RelationGroup β) := do
  let trimmed := memberIds.take query.maxGroupSize
  let groupScores := collected.scores.filter fun entry ↦
    trimmed.contains entry.1.1 && trimmed.contains entry.1.2
  let scoreValues := groupScores.map fun entry ↦
    match query.metric with
    | .cosineSimilarity => entry.2.2
    | .cosineDistance => entry.2.1
  let representative ← trimmed.head?
  let items ← trimmed.mapM (relatedItem collected trimmed)
  return {
    groupId := query.relation.text ++ lit "-" ++ List.leftpad 4 '0' (Nat.toDigits 10 index)
    representativeId := representative
    itemCount := trimmed.length
    reason := query.relation.text ++ lit " by " ++ query.metric.text ++ lit " threshold " ++
      query.thresholdText
    minScore := scoreValues.min?
    maxScore := scoreValues.max?
    avgScore := meanOf scoreValues
    items }

/-- The lists of ids in the order in which they are numbered. -/
def memberLists (grouped : List (Text × List Text)) : List (List Text) :=
  ranked (fun memberIds ↦ toLex (TextKey.mk (memberIds.headD []), memberIds.length))
    (grouped.map Prod.snd)

/-- `_groups_from_rows`, without a result where Python raises. -/
def groupsFromRows (frames : ℕ) (query : RelationQuery) (rows : List (PairRow β)) :
    Option (List (RelationGroup β)) := do
  let collected ← collectRows frames rows
  let grouped ← groupItems frames (collected.items.map Prod.fst) collected.parent []
  let numbered := (memberLists grouped).zipIdx 1
  (numbered.filter fun entry ↦ query.minGroupSize ≤ entry.1.length).mapM fun entry ↦
    describeGroup query collected entry.2 entry.1

end Reading

/-! ### What the rows say -/

section Components

variable {β : Type}

/-- A row pairs two items, the left one first. -/
def Paired (rows : List (PairRow β)) (first second : Text) : Prop :=
  ∃ row ∈ rows, first = row.leftItemId ∧ second = row.rightItemId

/-- Two items of one component of the pair graph. -/
def Connected (rows : List (PairRow β)) : Text → Text → Prop := Relation.EqvGen (Paired rows)

/-- The items of the rows, in the order in which they are first seen. -/
def itemIds (rows : List (PairRow β)) : List Text :=
  fresh [] (rows.flatMap fun row ↦ [row.leftItemId, row.rightItemId])

variable {rows : List (PairRow β)} {row : PairRow β}

theorem mem_itemIds {item : Text} :
    item ∈ itemIds rows ↔ ∃ row ∈ rows, item = row.leftItemId ∨ item = row.rightItemId := by
  simp [itemIds, mem_fresh]

theorem nodup_itemIds (rows : List (PairRow β)) : (itemIds rows).Nodup := nodup_fresh _ _

theorem itemIds_append (rows more : List (PairRow β)) : itemIds (rows ++ more) =
    itemIds rows ++ fresh (itemIds rows)
      (more.flatMap fun row ↦ [row.leftItemId, row.rightItemId]) := by
  rw [itemIds, List.flatMap_append, fresh_append, List.nil_append]
  rfl

/-- Pairs stay among the items. -/
theorem Connected.mem_iff {first second : Text} (hconnected : Connected rows first second) :
    first ∈ itemIds rows ↔ second ∈ itemIds rows := by
  induction hconnected with
  | rel first second hpaired =>
    obtain ⟨row, hrow, rfl, rfl⟩ := hpaired
    exact iff_of_true (mem_itemIds.mpr ⟨row, hrow, .inl rfl⟩) (mem_itemIds.mpr ⟨row, hrow, .inr rfl⟩)
  | refl => rfl
  | symm _ _ _ ih => exact ih.symm
  | trans _ _ _ _ _ hfirst hsecond => exact hfirst.trans hsecond

theorem Connected.mono {more : List (PairRow β)} (hrows : ∀ row ∈ rows, row ∈ more)
    {first second : Text} (hconnected : Connected rows first second) :
    Connected more first second := by
  have hle : Paired rows ≤ Paired more := by
    rintro _ _ ⟨row, hrow, hids⟩
    exact ⟨row, hrows row hrow, hids⟩
  exact Relation.EqvGen.mono hle _ _ hconnected

theorem paired_append_singleton : Paired (rows ++ [row]) =
    fun first second ↦ Paired rows first second ∨
      first = row.leftItemId ∧ second = row.rightItemId := by
  funext first second
  simp [Paired, or_and_right, exists_or]

/-- Which rows mention a pair, on whichever side. -/
theorem sortedPair_eq_iff {first second left right : Text} :
    sortedPair first second = sortedPair left right ↔
      first = left ∧ second = right ∨ first = right ∧ second = left := by
  have hswap : sortedPair left right = sortedPair right left := by
    rw [sortedPair, sortedPair]
    by_cases hle : textLe left right
    · by_cases hge : textLe right left
      · rw [if_pos hle, if_pos hge, textLe_antisymm hle hge]
      · rw [if_pos hle, if_neg hge]
    · rw [if_neg hle, if_pos ((textLe_total left right).resolve_left hle)]
  have hcases : ∀ one two, sortedPair one two = (one, two) ∨ sortedPair one two = (two, one) := by
    intro one two
    rw [sortedPair]
    split
    · exact .inl rfl
    · exact .inr rfl
  constructor
  · intro hsame
    rcases hcases first second with hfirst | hfirst <;>
      rcases hcases left right with hleft | hleft <;>
      rw [hfirst, hleft, Prod.mk.injEq] at hsame
    · exact .inl hsame
    · exact .inr hsame
    · exact .inr hsame.symm
    · exact .inl hsame.symm
  · rintro (⟨rfl, rfl⟩ | ⟨rfl, rfl⟩)
    · rfl
    · exact hswap.symm

/-! ### What the loops collect -/

theorem map_fst_setDefault {κ υ : Type} [DecidableEq κ] (mapping : List (κ × υ)) (key : κ)
    (value : υ) : (setDefault mapping (key, value)).map Prod.fst =
      mapping.map Prod.fst ++ fresh (mapping.map Prod.fst) [key] := by
  have hthere : (getKey mapping key).isSome ↔ key ∈ mapping.map Prod.fst := by
    rw [← not_iff_not, Option.not_isSome_iff_eq_none, getKey_eq_none]
    simp only [List.mem_map, not_exists, not_and, ne_eq]
  by_cases hkey : key ∈ mapping.map Prod.fst
  · rw [setDefault, if_pos (hthere.mpr hkey), fresh_cons_of_mem hkey, fresh_nil, List.append_nil]
  · rw [setDefault, if_neg (mt hthere.mp hkey), fresh_cons_of_not_mem hkey, fresh_nil,
      List.map_append]
    rfl

/-- What was collected of some rows, with the roots of the forest. -/
structure Collects (rows : List (PairRow β)) (collected : CollectedRows β)
    (rootOf : Text → Text) : Prop where
  forest : UnionFind.Represents (UnionFind.above collected.parent) rootOf (Paired rows)
  items : collected.items.map Prod.fst = itemIds rows
  scored : ∀ pair, (getKey collected.scores pair).isSome ↔
    ∃ row ∈ rows, pair = sortedPair row.leftItemId row.rightItemId

theorem collects_nil : Collects ([] : List (PairRow β))
    { parent := [], items := [], scores := [] } id where
  forest := by
    have hnever : Paired ([] : List (PairRow β)) = fun _ _ ↦ False := by
      funext first second
      simp [Paired]
    rw [hnever]
    exact UnionFind.represents_id
  items := rfl
  scored pair := by simp [getKey]

/-- **A turn of the loop** adds its row. -/
theorem Collects.collectRow {collected later : CollectedRows β} {rootOf : Text → Text} {frames : ℕ}
    (hcollects : Collects rows collected rootOf)
    (hrow : DocStore.collectRow frames collected row = some later) :
    ∃ rootOf, Collects (rows ++ [row]) later rootOf := by
  obtain ⟨parent, hunion, hlater⟩ := Option.bind_eq_some_iff.mp hrow
  obtain rfl := Option.some.inj hlater
  refine ⟨UnionFind.joinRoots rootOf row.leftItemId row.rightItemId, ?_, ?_, fun pair ↦ ?_⟩
  · rw [paired_append_singleton]
    exact hcollects.forest.union hunion
  · have hboth : fresh (itemIds rows) [row.leftItemId, row.rightItemId] =
        fresh (itemIds rows) [row.leftItemId] ++ fresh (itemIds rows ++
          fresh (itemIds rows) [row.leftItemId]) [row.rightItemId] :=
      fresh_append _ [row.leftItemId] [row.rightItemId]
    rw [map_fst_setDefault, map_fst_setDefault, hcollects.items, itemIds_append,
      List.flatMap_singleton, hboth, List.append_assoc]
  · by_cases hpair : pair = sortedPair row.leftItemId row.rightItemId
    · rw [hpair, getKey_setKey_self]
      exact iff_of_true rfl ⟨row, by simp, rfl⟩
    · rw [getKey_setKey_of_ne _ _ hpair, hcollects.scored]
      simp [or_and_right, exists_or, hpair]

theorem collectRows_append_singleton (frames : ℕ) (rows : List (PairRow β)) (row : PairRow β) :
    collectRows frames (rows ++ [row]) =
      (collectRows frames rows).bind fun collected ↦ collectRow frames collected row := by
  rw [collectRows, List.foldlM_append]
  simp only [List.foldlM_cons, List.foldlM_nil, bind_pure]
  rfl

/-- **The first loop**: the trees of the forest are the components of the rows. -/
theorem collectRows_spec {frames : ℕ} {collected : CollectedRows β}
    (hrows : collectRows frames rows = some collected) : ∃ rootOf, Collects rows collected rootOf := by
  induction rows using List.reverseRecOn generalizing collected with
  | nil =>
    obtain rfl := Option.some.inj hrows
    exact ⟨id, collects_nil⟩
  | append_singleton rows row ih =>
    rw [collectRows_append_singleton] at hrows
    obtain ⟨before, hbefore, hrow⟩ := Option.bind_eq_some_iff.mp hrows
    obtain ⟨rootOf, hcollects⟩ := ih hbefore
    exact hcollects.collectRow hrow

/-- **The second loop**: the items by their roots. -/
theorem groupItems_eq {linked : Text → Text → Prop} {rootOf : Text → Text} {frames : ℕ}
    {ids : List Text} {parent : List (Text × Text)} {grouped result : List (Text × List Text)}
    (hforest : UnionFind.Represents (UnionFind.above parent) rootOf linked)
    (hgroup : groupItems frames ids parent grouped = some result) :
    result = ids.foldl (fun grouped item ↦ appendKey grouped (rootOf item) item) grouped := by
  induction ids generalizing parent grouped with
  | nil => exact (Option.some.inj hgroup).symm
  | cons item rest ih =>
    obtain ⟨⟨root, later⟩, hfound, hrest⟩ := Option.bind_eq_some_iff.mp hgroup
    obtain ⟨rfl, hcompresses, -⟩ := hforest.find hfound
    exact ih (hforest.compresses hcompresses) hrest

/-! ### Frames enough -/

theorem exists_collectRow_of_union {collected : CollectedRows β} {parent : List (Text × Text)}
    {frames : ℕ} (hunion : UnionFind.union frames collected.parent row.leftItemId row.rightItemId =
      some parent) :
    ∃ later, collectRow frames collected row = some later ∧ later.parent = parent :=
  ⟨_, Option.bind_eq_some_iff.mpr ⟨parent, hunion, rfl⟩, rfl⟩

theorem exists_collectRow {collected : CollectedRows β} {rootOf : Text → Text} {frames : ℕ}
    (hcollects : Collects rows collected rootOf)
    (hshort : ∀ item ∈ [row.leftItemId, row.rightItemId], ∀ steps root,
      UnionFind.ClimbsTo (UnionFind.above collected.parent) item steps root → steps < frames) :
    ∃ later, collectRow frames collected row = some later := by
  obtain ⟨parent, hunion⟩ := hcollects.forest.exists_union hshort
  obtain ⟨later, hlater, -⟩ := exists_collectRow_of_union hunion
  exact ⟨later, hlater⟩

/-- Nobody climbs over more items than there are. -/
theorem Collects.steps_lt {collected : CollectedRows β} {rootOf : Text → Text}
    (hcollects : Collects rows collected rootOf) {more : List (PairRow β)}
    (hmore : ∀ row ∈ rows, row ∈ more) {item root : Text} {steps : ℕ} (hitem : item ∈ itemIds more)
    (hclimbs : UnionFind.ClimbsTo (UnionFind.above collected.parent) item steps root) :
    steps < (itemIds more).length := by
  have hclosed : ∀ item ∈ (itemIds more).toFinset, ∀ other,
      Relation.EqvGen (Paired rows) item other → other ∈ (itemIds more).toFinset := by
    intro item hitem other hconnected
    rw [List.mem_toFinset] at hitem ⊢
    exact (Connected.mono hmore hconnected).mem_iff.mp hitem
  rw [← List.toFinset_card_of_nodup (nodup_itemIds more)]
  exact hcollects.forest.lt_card hclosed (List.mem_toFinset.mpr hitem) hclimbs

/-- As many frames as items are enough for the first loop. -/
theorem exists_collectRows {frames : ℕ} (hframes : (itemIds rows).length ≤ frames) :
    ∃ collected, collectRows frames rows = some collected := by
  induction rows using List.reverseRecOn with
  | nil => exact ⟨_, rfl⟩
  | append_singleton rows row ih =>
    have hlength : (itemIds rows).length ≤ (itemIds (rows ++ [row])).length := by
      rw [itemIds_append, List.length_append]
      exact Nat.le_add_right _ _
    obtain ⟨collected, hcollected⟩ := ih (hlength.trans hframes)
    obtain ⟨rootOf, hcollects⟩ := collectRows_spec hcollected
    rw [collectRows_append_singleton, hcollected, Option.bind_some]
    refine exists_collectRow hcollects fun item hitem steps root hclimbs ↦ ?_
    refine (hcollects.steps_lt (fun _ ↦ List.mem_append_left _) ?_ hclimbs).trans_le hframes
    refine mem_itemIds.mpr ⟨row, by simp, ?_⟩
    simpa using hitem

theorem exists_groupItems {linked : Text → Text → Prop} {rootOf : Text → Text} {frames : ℕ}
    {ids : List Text} {parent : List (Text × Text)} (grouped : List (Text × List Text))
    (hforest : UnionFind.Represents (UnionFind.above parent) rootOf linked)
    (hshort : ∀ item ∈ ids, ∀ steps root,
      UnionFind.ClimbsTo (UnionFind.above parent) item steps root → steps < frames) :
    ∃ result, groupItems frames ids parent grouped = some result := by
  induction ids generalizing parent grouped with
  | nil => exact ⟨grouped, rfl⟩
  | cons item rest ih =>
    obtain ⟨hitem, hrest⟩ := List.forall_mem_cons.mp hshort
    obtain ⟨steps, hclimbs⟩ := hforest.climbs item
    obtain ⟨later, hfound, hcompresses, -⟩ := UnionFind.find_spec hclimbs (hitem _ _ hclimbs)
    have hlater := hforest.compresses hcompresses
    obtain ⟨result, hresult⟩ := ih (appendKey grouped (rootOf item) item) hlater
      fun other hother more root hmore ↦ by
        obtain ⟨before, hbefore⟩ := hforest.climbs other
        obtain ⟨fewer, hfewer, hafter⟩ := hcompresses.climbsTo hbefore
        rw [(hmore.unique hafter).1]
        exact hfewer.trans_lt (hrest other hother _ _ hbefore)
    exact ⟨result, Option.bind_eq_some_iff.mpr ⟨_, hfound, hresult⟩⟩

end Components

end DocStore
