import DocStore.Domain.UuidText
import DocStore.Runtime.RelationGroups
import Mathlib.Data.List.GetD

/-!
# How deep the grouping recurses

The roots are linked without ranks, so a tree can be as high as there are items, and `_find` climbs
it by recursion. It never needs more frames than there are items, nor more than there are rows (and
three), since a union makes nobody climb more than one step more. Either bound is reached: rows that
put the root of a growing chain under a new item leave it as high as it has items, and a last row
that names its lowest item climbs all of it. So the grouping stays below the recursion limit exactly
when one of the two limits of the request does.
-/

set_option autoImplicit false
set_option relaxedAutoImplicit false

namespace DocStore

open Foundation

variable {β : Type} {rows : List (PairRow β)} {query : RelationQuery} {frames : ℕ}

/-- Python's default recursion limit. -/
def recursionLimit : ℕ := 1000

/-- What `search` accepts as the sizes of a group. -/
def RelationQuery.Accepted (query : RelationQuery) : Prop :=
  2 ≤ query.minGroupSize ∧ query.minGroupSize ≤ 100 ∧
    query.minGroupSize ≤ query.maxGroupSize ∧ query.maxGroupSize ≤ 100

/-- The rows that the query can deliver under its limits: different pairs of candidates, which are
rows with UUIDs, the smaller text on the left. -/
structure Deliverable (maxCandidates maxPairs : ℕ) (rows : List (PairRow β)) : Prop where
  ids : ∀ item ∈ itemIds rows, ∃ id, item = uuidText id
  ordered : ∀ row ∈ rows, TextKey.mk row.leftItemId < TextKey.mk row.rightItemId
  distinct : (rows.map fun row ↦ (row.leftItemId, row.rightItemId)).Nodup
  pairs : rows.length ≤ maxPairs
  candidates : (itemIds rows).length ≤ maxCandidates

/-- Under these limits the recursion stays below its own one, whatever rows arrive in whatever
order. -/
def GroupsWithinLimit (β : Type) (maxCandidates maxPairs : ℕ) : Prop :=
  ∀ query : RelationQuery, query.Accepted → ∀ rows : List (PairRow β),
    Deliverable maxCandidates maxPairs rows →
      ∃ groups, groupsFromRows (recursionLimit - 1) query rows = some groups

/-! ### Few rows -/

/-- Rows that start with a pair of different items leave a forest that is not higher than there are
rows, with the first of them on the left of the first row. -/
theorem exists_collectRows_shallow {first : PairRow β} (hne : first.leftItemId ≠ first.rightItemId)
    (hframes : (first :: rows).length ≤ frames) : ∃ collected rootOf,
      collectRows frames (first :: rows) = some collected ∧
      Collects (first :: rows) collected rootOf ∧
      UnionFind.Shallow (UnionFind.above collected.parent) first.leftItemId first.rightItemId
        (first :: rows).length := by
  induction rows using List.reverseRecOn with
  | nil =>
    have hshort : ∀ item ∈ [first.leftItemId, first.rightItemId], ∀ steps root,
        UnionFind.ClimbsTo (UnionFind.above []) item steps root → steps < frames := by
      intro item _ steps root hclimbs
      rw [(hclimbs.eq_of_up_eq rfl).1]
      exact hframes
    obtain ⟨collected, hcollected⟩ := exists_collectRow collects_nil hshort
    have hrows : collectRows frames [first] = some collected := by
      rw [← hcollected, ← List.nil_append [first], collectRows_append_singleton]
      rfl
    obtain ⟨rootOf, hcollects⟩ := collectRows_spec hrows
    obtain ⟨parent, hunion, hlater⟩ := Option.bind_eq_some_iff.mp hcollected
    obtain rfl := Option.some.inj hlater
    exact ⟨_, rootOf, hrows, hcollects, UnionFind.shallow_union_nil hne hunion⟩
  | append_singleton rows row ih =>
    rw [← List.cons_append, List.length_append, List.length_singleton] at hframes
    obtain ⟨before, rootOf, hbefore, hcollects, hshallow⟩ := ih (by omega)
    have hshort : ∀ item ∈ [row.leftItemId, row.rightItemId], ∀ steps root,
        UnionFind.ClimbsTo (UnionFind.above before.parent) item steps root → steps < frames :=
      fun item _ steps root hclimbs ↦ (Nat.lt_succ_of_le (hshallow.le hne hclimbs)).trans_le hframes
    obtain ⟨collected, hcollected⟩ := exists_collectRow hcollects hshort
    have hrows : collectRows frames (first :: (rows ++ [row])) = some collected := by
      rw [← List.cons_append, collectRows_append_singleton, hbefore, Option.bind_some, hcollected]
    obtain ⟨rootOf', hcollects'⟩ := collectRows_spec hrows
    obtain ⟨parent, hunion, hlater⟩ := Option.bind_eq_some_iff.mp hcollected
    obtain rfl := Option.some.inj hlater
    refine ⟨_, rootOf', hrows, hcollects', ?_⟩
    rw [← List.cons_append, List.length_append, List.length_singleton]
    exact hshallow.union (by simp) hne hcollects.forest hunion

/-- The first item seen stands on the left of the first row. -/
theorem itemIds_cons (first : PairRow β) (rows : List (PairRow β)) :
    ∃ rest, itemIds (first :: rows) = first.leftItemId :: rest := by
  rw [itemIds, List.flatMap_cons, List.cons_append, fresh_cons_of_not_mem List.not_mem_nil]
  exact ⟨_, rfl⟩

/-- **As many frames as rows are enough**, and three. -/
theorem exists_groupsFromRows_of_length_le (hne : ∀ row ∈ rows, row.leftItemId ≠ row.rightItemId)
    (hframes : rows.length ≤ frames) (hthree : 3 ≤ frames) (hlimit : 0 < query.maxGroupSize) :
    ∃ groups, groupsFromRows frames query rows = some groups := by
  cases rows with
  | nil => exact exists_groupsFromRows (Nat.zero_le _) fun _ _ ↦ hlimit
  | cons first rows =>
    have hfirst := hne first List.mem_cons_self
    obtain ⟨collected, rootOf, hcollected, hcollects, hshallow⟩ :=
      exists_collectRows_shallow hfirst hframes
    obtain ⟨rest, hitems⟩ := itemIds_cons first rows
    obtain ⟨steps, hclimbs⟩ := hcollects.forest.climbs first.leftItemId
    have hless := hshallow.others _ hfirst _ _ hclimbs
    obtain ⟨later, hfound, hcompresses, hroot⟩ :=
      UnionFind.find_spec hclimbs (hless.trans_le hframes)
    have hshort : ∀ item ∈ rest, ∀ steps root,
        UnionFind.ClimbsTo (UnionFind.above later) item steps root → steps < frames := by
      intro item _ steps root hlater
      have hothers : (∀ steps root, UnionFind.ClimbsTo (UnionFind.above collected.parent) item steps
          root → steps < (first :: rows).length) → steps < frames := by
        intro hbound
        obtain ⟨before, hbefore⟩ := hcollects.forest.climbs item
        obtain ⟨fewer, hfewer, hafter⟩ := hcompresses.climbsTo hbefore
        rw [(hlater.unique hafter).1]
        exact hfewer.trans_lt ((hbound _ _ hbefore).trans_le hframes)
      by_cases hitem : item = first.rightItemId
      · subst hitem
        rcases hshallow.first with hunder | hbound
        · exact (hcompresses.le_two hunder hroot hclimbs.up_root hlater).trans_lt hthree
        · exact hothers hbound
      · exact hothers (hshallow.others item hitem)
    obtain ⟨grouped, hgrouped⟩ := exists_groupItems
      (appendKey [] (rootOf first.leftItemId) first.leftItemId)
      (hcollects.forest.compresses hcompresses) hshort
    have hgrouped' : groupItems frames (collected.items.map Prod.fst) collected.parent [] =
        some grouped := by
      rw [hcollects.items, hitems]
      exact Option.bind_eq_some_iff.mpr ⟨_, hfound, hgrouped⟩
    exact exists_groupsFromRows_of_grouped hcollected hgrouped' fun _ _ ↦ hlimit

/-! ### A chain -/

/-- The texts of some UUIDs, the largest first. -/
def descendingIds (count : ℕ) : List Text :=
  (ranked TextKey.mk ((List.range count).map fun number ↦
    uuidText (BitVec.ofNat 128 number))).reverse

/-- A row that puts an item under the next one. -/
def linkRow [Inhabited β] (ids : List Text) (position : ℕ) : PairRow β where
  leftItemId := ids.getD (position + 1) []
  rightItemId := ids.getD position []
  leftItem := default
  rightItem := default
  distance := 1 / 10

/-- Rows that link each of some items to the next one, and the last to the first. -/
def chainRows [Inhabited β] (links : ℕ) : List (PairRow β) :=
  let ids := descendingIds (links + 1)
  (List.range links).map (linkRow ids) ++ [{
    leftItemId := ids.getD links []
    rightItemId := ids.getD 0 []
    leftItem := default
    rightItem := default
    distance := 1 / 5 }]

theorem mem_descendingIds {count : ℕ} {item : Text} : item ∈ descendingIds count ↔
    ∃ number < count, item = uuidText (BitVec.ofNat 128 number) := by
  rw [descendingIds, List.mem_reverse, mem_ranked, List.mem_map]
  simp only [List.mem_range, eq_comm]

theorem length_descendingIds (count : ℕ) : (descendingIds count).length = count := by
  rw [descendingIds, List.length_reverse, (perm_ranked _ _).length_eq, List.length_map,
    List.length_range]

theorem pairwise_descendingIds {count : ℕ} (hcount : count ≤ 2 ^ 128) :
    (descendingIds count).Pairwise fun first second ↦ TextKey.mk second < TextKey.mk first := by
  rw [descendingIds, List.pairwise_reverse]
  refine pairwise_lt_ranked ?_
  rw [List.map_map]
  refine List.Nodup.map_on ?_ List.nodup_range
  intro first hfirst second hsecond hsame
  rw [List.mem_range] at hfirst hsecond
  have hids := uuidText_injective (TextKey.mk.inj hsame)
  have hvalues := congrArg BitVec.toNat hids
  rwa [BitVec.toNat_ofNat, BitVec.toNat_ofNat, Nat.mod_eq_of_lt (hfirst.trans_le hcount),
    Nat.mod_eq_of_lt (hsecond.trans_le hcount)] at hvalues

/-- Each item of a chain hangs under the next one, and nothing else does. -/
structure IsChain (ids : List Text) (up : Text → Text) (links : ℕ) : Prop where
  next : ∀ position < links, up (ids.getD position []) = ids.getD (position + 1) []
  rest : ∀ item, (∀ position < links, item ≠ ids.getD position []) → up item = item

section Chain

variable {ids : List Text} {up : Text → Text} {links : ℕ}

theorem getD_inj (hids : ids.Nodup) {first second : ℕ} (hfirst : first < ids.length)
    (hsecond : second < ids.length) : ids.getD first [] = ids.getD second [] ↔ first = second := by
  rw [List.getD_eq_getElem _ _ hsecond, List.getD_eq_getElem _ _ hfirst, hids.getElem_inj_iff]

theorem getD_ne_getD (hids : ids.Nodup) {first second : ℕ} (hfirst : first < second)
    (hsecond : second < ids.length) : ids.getD second [] ≠ ids.getD first [] :=
  mt (getD_inj hids hsecond (hfirst.trans hsecond)).mp hfirst.ne'

theorem IsChain.root (hchain : IsChain ids up links) (hids : ids.Nodup)
    (hlinks : links < ids.length) : up (ids.getD links []) = ids.getD links [] :=
  hchain.rest _ fun _ hposition ↦ getD_ne_getD hids hposition hlinks

/-- The lowest item of a chain climbs all of it. -/
theorem IsChain.climbsTo (hchain : IsChain ids up links) (hids : ids.Nodup)
    (hlinks : links < ids.length) :
    UnionFind.ClimbsTo up (ids.getD 0 []) links (ids.getD links []) := by
  have hfrom : ∀ passed ≤ links,
      UnionFind.ClimbsTo up (ids.getD (links - passed) []) passed (ids.getD links []) := by
    intro passed
    induction passed with
    | zero => exact fun _ ↦ .root (hchain.root hids hlinks)
    | succ passed ih =>
      intro hpassed
      have hnext := hchain.next (links - (passed + 1)) (by omega)
      have hplace : links - (passed + 1) + 1 = links - passed := by omega
      have hne := getD_ne_getD hids (Nat.lt_succ_self (links - (passed + 1))) (by omega)
      refine .step (hnext ▸ hne) ?_
      rw [hnext, hplace]
      exact ih (Nat.le_of_succ_le hpassed)
  have hall := hfrom links le_rfl
  rwa [Nat.sub_self] at hall

/-- Rows that link the items one after the other build the chain. -/
theorem exists_collectRows_linkRow [Inhabited β] (hids : ids.Nodup) (hlinks : links < ids.length)
    (hframes : 0 < frames) : ∃ collected : CollectedRows β,
      collectRows frames ((List.range links).map (linkRow ids)) = some collected ∧
      IsChain ids (UnionFind.above collected.parent) links := by
  induction links with
  | zero =>
    refine ⟨_, rfl, fun position hposition ↦ absurd hposition (Nat.not_lt_zero _), fun item _ ↦ rfl⟩
  | succ links ih =>
    obtain ⟨before, hbefore, hchain⟩ := ih (Nat.lt_of_succ_lt hlinks)
    obtain ⟨frames, rfl⟩ := Nat.exists_eq_succ_of_ne_zero hframes.ne'
    have hright := hchain.root hids (Nat.lt_of_succ_lt hlinks)
    have hleft : UnionFind.above before.parent (ids.getD (links + 1) []) = ids.getD (links + 1) [] :=
      hchain.rest _ fun position hposition ↦
        getD_ne_getD hids (Nat.lt_succ_of_lt hposition) hlinks
    have hne := getD_ne_getD hids (Nat.lt_succ_self links) hlinks
    obtain ⟨later, hunion, habove⟩ := UnionFind.exists_union_of_roots frames hleft hright hne
    have hstep : ∃ collected, collectRow (frames + 1) before (linkRow ids links) = some collected ∧
        collected.parent = later := exists_collectRow_of_union hunion
    obtain ⟨collected, hcollected, rfl⟩ := hstep
    refine ⟨collected, ?_, ?_⟩
    · rw [List.range_succ, List.map_append, List.map_singleton, collectRows_append_singleton,
        hbefore, Option.bind_some, hcollected]
    · refine ⟨fun position hposition ↦ ?_, fun item hitem ↦ ?_⟩
      · rw [habove]
        rcases Nat.lt_succ_iff_lt_or_eq.mp hposition with hbelow | rfl
        · rw [Function.update_of_ne (getD_ne_getD hids hbelow (Nat.lt_of_succ_lt hlinks)).symm]
          exact hchain.next position hbelow
        · exact Function.update_self _ _ _
      · rw [habove, Function.update_of_ne (hitem links (Nat.lt_succ_self links))]
        exact hchain.rest item fun position hposition ↦ hitem position (Nat.lt_succ_of_lt hposition)

end Chain

theorem nodup_descendingIds {count : ℕ} (hcount : count ≤ 2 ^ 128) : (descendingIds count).Nodup :=
  (pairwise_descendingIds hcount).imp fun hless hsame ↦ hless.ne (congrArg TextKey.mk hsame.symm)

theorem getD_lt_getD {count : ℕ} (hcount : count ≤ 2 ^ 128) {first second : ℕ}
    (hfirst : first < second) (hsecond : second < count) :
    TextKey.mk ((descendingIds count).getD second []) <
      TextKey.mk ((descendingIds count).getD first []) := by
  have hlength := length_descendingIds count
  rw [List.getD_eq_getElem _ _ (hsecond.trans_eq hlength.symm),
    List.getD_eq_getElem _ _ ((hfirst.trans hsecond).trans_eq hlength.symm)]
  exact List.pairwise_iff_getElem.mp (pairwise_descendingIds hcount) _ _ _ _ hfirst

section ChainRows

variable [Inhabited β] {links : ℕ}

/-- The last row of a chain climbs all of it, so it needs more frames than there are links. -/
theorem groupsFromRows_chainRows (hcount : links + 1 ≤ 2 ^ 128) (hpositive : 0 < frames)
    (hframes : frames ≤ links) (query : RelationQuery) :
    groupsFromRows frames query (chainRows links : List (PairRow β)) = none := by
  have hnodup := nodup_descendingIds hcount
  have hlength : links < (descendingIds (links + 1)).length := by
    rw [length_descendingIds]
    exact Nat.lt_succ_self links
  obtain ⟨collected, hcollected, hchain⟩ :=
    exists_collectRows_linkRow (β := β) hnodup hlength hpositive
  have hrows : collectRows frames (chainRows links : List (PairRow β)) = none := by
    rw [chainRows, collectRows_append_singleton, hcollected, Option.bind_some, collectRow]
    dsimp only
    rw [UnionFind.union_eq_none (hchain.root hnodup hlength) (hchain.climbsTo hnodup hlength)
      hframes]
    rfl
  rw [groupsFromRows, hrows]
  rfl

/-- The rows of a chain put an item on the left of one before it. -/
theorem exists_of_mem_chainRows (hlinks : 0 < links) {row : PairRow β}
    (hrow : row ∈ (chainRows links : List (PairRow β))) : ∃ low high, low < high ∧ high ≤ links ∧
      row.leftItemId = (descendingIds (links + 1)).getD high [] ∧
      row.rightItemId = (descendingIds (links + 1)).getD low [] := by
  rcases List.mem_append.mp hrow with hrow | hrow
  · obtain ⟨position, hposition, rfl⟩ := List.mem_map.mp hrow
    exact ⟨position, position + 1, Nat.lt_succ_self _, List.mem_range.mp hposition, rfl, rfl⟩
  · rw [List.mem_singleton.mp hrow]
    exact ⟨0, links, hlinks, le_rfl, rfl, rfl⟩

/-- The query can deliver a chain. -/
theorem deliverable_chainRows {maxCandidates maxPairs : ℕ} (hlinks : 2 ≤ links)
    (hcount : links + 1 ≤ 2 ^ 128) (hcandidates : links + 1 ≤ maxCandidates)
    (hpairs : links + 1 ≤ maxPairs) :
    Deliverable maxCandidates maxPairs (chainRows links : List (PairRow β)) := by
  have hnodup := nodup_descendingIds hcount
  have hlength := length_descendingIds (links + 1)
  have hlisted : ∀ position ≤ links,
      (descendingIds (links + 1)).getD position [] ∈ descendingIds (links + 1) := by
    intro position hposition
    rw [List.getD_eq_getElem _ _ ((Nat.lt_succ_of_le hposition).trans_eq hlength.symm)]
    exact List.getElem_mem _
  have hmem : ∀ item ∈ itemIds (chainRows links : List (PairRow β)),
      item ∈ descendingIds (links + 1) := by
    intro item hitem
    obtain ⟨row, hrow, hside⟩ := mem_itemIds.mp hitem
    obtain ⟨low, high, hlow, hhigh, hleft, hright⟩ :=
      exists_of_mem_chainRows (Nat.lt_of_lt_of_le Nat.zero_lt_two hlinks) hrow
    rcases hside with rfl | rfl
    · exact hleft ▸ hlisted high hhigh
    · exact hright ▸ hlisted low (hlow.le.trans hhigh)
  refine ⟨fun item hitem ↦ ?_, fun row hrow ↦ ?_, ?_, ?_, ?_⟩
  · obtain ⟨number, -, hid⟩ := mem_descendingIds.mp (hmem item hitem)
    exact ⟨_, hid⟩
  · obtain ⟨low, high, hlow, hhigh, hleft, hright⟩ :=
      exists_of_mem_chainRows (Nat.lt_of_lt_of_le Nat.zero_lt_two hlinks) hrow
    rw [hleft, hright]
    exact getD_lt_getD hcount hlow (Nat.lt_succ_of_le hhigh)
  · have hplace : ∀ position ≤ links, position < (descendingIds (links + 1)).length :=
      fun position hposition ↦ (Nat.lt_succ_of_le hposition).trans_eq hlength.symm
    rw [chainRows, List.map_append, List.map_map, List.map_singleton, List.nodup_append]
    refine ⟨List.Nodup.map_on (fun first hfirst second hsecond hsame ↦ ?_) List.nodup_range,
      List.nodup_singleton _, fun pair hpair other hother ↦ ?_⟩
    · rw [List.mem_range] at hfirst hsecond
      exact (getD_inj hnodup (hplace _ hfirst.le) (hplace _ hsecond.le)).mp (Prod.mk.inj hsame).2
    · obtain ⟨position, hposition, rfl⟩ := List.mem_map.mp hpair
      rw [List.mem_range] at hposition
      rw [List.mem_singleton.mp hother]
      intro hsame
      obtain ⟨hleft, hright⟩ := Prod.mk.inj hsame
      have hlast := (getD_inj hnodup (hplace _ hposition) (hplace _ le_rfl)).mp hleft
      have hzero := (getD_inj hnodup (hplace _ hposition.le) (hplace _ (Nat.zero_le _))).mp hright
      omega
  · rw [chainRows, List.length_append, List.length_map, List.length_range, List.length_singleton]
    exact hpairs
  · rw [← List.toFinset_card_of_nodup (nodup_itemIds _)]
    refine (Finset.card_le_card fun item hitem ↦ List.mem_toFinset.mpr
      (hmem item (List.mem_toFinset.mp hitem))).trans ?_
    rw [List.toFinset_card_of_nodup hnodup, hlength]
    exact hcandidates

end ChainRows

/-! ### The limits -/

/-- The default sizes of a group. -/
def defaultSizes : RelationQuery where
  relation := .similar
  metric := .cosineDistance
  thresholdText := lit "0.18"
  minGroupSize := 2
  maxGroupSize := 20

theorem defaultSizes_accepted : defaultSizes.Accepted := by
  rw [RelationQuery.Accepted]
  decide

/-- Nine hundred and ninety-nine links cannot be climbed. -/
theorem not_groupsWithinLimit_of_chain [Inhabited β] {maxCandidates maxPairs : ℕ}
    (hcandidates : recursionLimit ≤ maxCandidates) (hpairs : recursionLimit ≤ maxPairs) :
    ¬ GroupsWithinLimit β maxCandidates maxPairs := by
  intro hwithin
  have hcount : recursionLimit - 1 + 1 ≤ 2 ^ 128 := by decide
  obtain ⟨groups, hgroups⟩ := hwithin defaultSizes defaultSizes_accepted
    (chainRows (recursionLimit - 1))
    (deliverable_chainRows (by decide) hcount hcandidates hpairs)
  rw [groupsFromRows_chainRows hcount (by decide) le_rfl] at hgroups
  cases hgroups

/-- **The grouping stays below the recursion limit exactly when one of the limits of the request
does**: with fewer candidates or fewer pairs than the recursion limit no rows exhaust the stack, and
with as many of both some rows do. -/
theorem groupsWithinLimit_iff [Inhabited β] (maxCandidates maxPairs : ℕ) :
    GroupsWithinLimit β maxCandidates maxPairs ↔
      maxCandidates < recursionLimit ∨ maxPairs < recursionLimit := by
  constructor
  · intro hwithin
    by_contra hlimits
    rw [not_or, not_lt, not_lt] at hlimits
    exact not_groupsWithinLimit_of_chain hlimits.1 hlimits.2 hwithin
  · intro hlimits query haccepted rows hrows
    have hlimit : 0 < query.maxGroupSize :=
      Nat.lt_of_lt_of_le Nat.zero_lt_two (haccepted.1.trans haccepted.2.2.1)
    rcases hlimits with hcandidates | hpairs
    · exact exists_groupsFromRows (hrows.candidates.trans (Nat.le_pred_of_lt hcandidates))
        fun _ _ ↦ hlimit
    · refine exists_groupsFromRows_of_length_le (fun row hrow hsame ↦ ?_)
        (hrows.pairs.trans (Nat.le_pred_of_lt hpairs)) (by decide) hlimit
      exact (hrows.ordered row hrow).ne (congrArg TextKey.mk hsame)

/-- At the largest limits of a request, a chain of a thousand items exhausts the stack. -/
theorem exhausts_chainRows : defaultSizes.Accepted ∧
    Deliverable 2000 10000 (chainRows (recursionLimit - 1) : List (PairRow Unit)) ∧
    groupsFromRows (recursionLimit - 1) defaultSizes
      (chainRows (recursionLimit - 1) : List (PairRow Unit)) = none := by
  have hcount : recursionLimit - 1 + 1 ≤ 2 ^ 128 := by decide
  exact ⟨defaultSizes_accepted, deliverable_chainRows (by decide) hcount (by decide) (by decide),
    groupsFromRows_chainRows hcount (by decide) le_rfl defaultSizes⟩

end DocStore
