import DocStore.Foundation.Paired
import DocStore.Runtime.SemanticRelations

/-!
# Relation groups and components

The groups of `groupsFromRows` are the components of the pair graph that are large enough, each cut
behind its first `maxGroupSize` items (`map_memberIds`). A component that fits is listed whole,
whatever the order of the rows and the sides of their items.

A component that does not fit is cut by first appearance, not along its pairs, so a listed item may
be paired only with items that were cut off, and then it has no scores. What is left is that a listed
item has scores exactly when a row pairs it with another listed one, and that the first two of a
group are always paired.
-/

set_option autoImplicit false
set_option relaxedAutoImplicit false

namespace DocStore

open Foundation

variable {β : Type} {rows : List (PairRow β)} {query : RelationQuery} {frames : ℕ}

/-- The ids of the listed members. -/
def RelationGroup.memberIds (group : RelationGroup β) : List Text := group.items.map (·.id)

/-- The set of the listed members. -/
def RelationGroup.members (group : RelationGroup β) : Finset Text := group.memberIds.toFinset

/-! ### Describing a group -/

theorem mapM_eq_some {α γ : Type} {step : α → Option γ} {entries : List α} {results : List γ} :
    entries.mapM step = some results ↔
      List.Forall₂ (fun entry result ↦ step entry = some result) entries results := by
  induction entries generalizing results with
  | nil => cases results <;> simp
  | cons entry entries ih =>
    rw [List.mapM_cons, List.forall₂_cons_left_iff]
    constructor
    · intro hall
      obtain ⟨result, hresult, hrest⟩ := Option.bind_eq_some_iff.mp hall
      obtain ⟨others, hothers, hresults⟩ := Option.bind_eq_some_iff.mp hrest
      exact ⟨result, others, hresult, ih.mp hothers, (Option.some.inj hresults).symm⟩
    · rintro ⟨result, others, hresult, hothers, rfl⟩
      exact Option.bind_eq_some_iff.mpr ⟨result, hresult,
        Option.bind_eq_some_iff.mpr ⟨others, ih.mpr hothers, rfl⟩⟩

theorem exists_mapM_eq_some {α γ : Type} {step : α → Option γ} {entries : List α}
    (hall : ∀ entry ∈ entries, ∃ result, step entry = some result) :
    ∃ results, entries.mapM step = some results := by
  induction entries with
  | nil => exact ⟨[], rfl⟩
  | cons entry entries ih =>
    obtain ⟨⟨result, hresult⟩, hrest⟩ := List.forall_mem_cons.mp hall
    obtain ⟨results, hresults⟩ := ih hrest
    exact ⟨result :: results, mapM_eq_some.mpr (.cons hresult (mapM_eq_some.mp hresults))⟩

/-- An item has a best score when it is scored with another one. -/
theorem isSome_bestItemScore {item : Text} {ids : List Text}
    {scores : List ((Text × Text) × ℚ × ℚ)} {similarity : Bool} :
    (bestItemScore item ids scores similarity).isSome ↔
      ∃ other ∈ ids, other ≠ item ∧ (getKey scores (sortedPair item other)).isSome := by
  have hvalues : ∀ values : List ℚ,
      (if similarity then values.max? else values.min?).isSome ↔ values ≠ [] := by
    intro values
    cases values <;> cases similarity <;> simp
  rw [bestItemScore, hvalues, Ne, List.filterMap_eq_nil_iff]
  simp only [List.mem_filter, decide_eq_true_eq, Option.map_eq_none_iff, not_forall, and_assoc,
    exists_prop, ← Ne.eq_def, Option.ne_none_iff_isSome]

theorem relatedItems_eq_some {collected : CollectedRows β} {listed ids : List Text}
    {items : List (RelatedItem β)} (hitems : ids.mapM (relatedItem collected listed) = some items) :
    items.map (·.id) = ids ∧ ∀ member ∈ items,
      member.similarity = bestItemScore member.id listed collected.scores true ∧
      member.distance = bestItemScore member.id listed collected.scores false := by
  induction mapM_eq_some.mp hitems with
  | nil => simp
  | cons hitem hrest ih =>
    obtain ⟨hids, hscores⟩ := ih (mapM_eq_some.mpr hrest)
    obtain ⟨item, -, hmember⟩ := Option.bind_eq_some_iff.mp hitem
    obtain rfl := Option.some.inj hmember
    exact ⟨by rw [List.map_cons, hids], List.forall_mem_cons.mpr ⟨⟨rfl, rfl⟩, hscores⟩⟩

/-- A group lists the first of its items, with their scores among the listed ones. -/
theorem describeGroup_eq_some {collected : CollectedRows β} {index : ℕ} {ids : List Text}
    {group : RelationGroup β} (hgroup : describeGroup query collected index ids = some group) :
    group.memberIds = ids.take query.maxGroupSize ∧ ∀ member ∈ group.items,
      member.similarity = bestItemScore member.id group.memberIds collected.scores true ∧
      member.distance = bestItemScore member.id group.memberIds collected.scores false := by
  obtain ⟨representative, -, hgroup⟩ := Option.bind_eq_some_iff.mp hgroup
  obtain ⟨items, hitems, hgroup⟩ := Option.bind_eq_some_iff.mp hgroup
  obtain rfl := Option.some.inj hgroup
  obtain ⟨hids, hscores⟩ := relatedItems_eq_some hitems
  rw [RelationGroup.memberIds, hids]
  exact ⟨rfl, hscores⟩

/-- A list of items can be described. -/
theorem exists_describeGroup {collected : CollectedRows β} {ids : List Text} (index : ℕ)
    (hids : ∀ item ∈ ids, item ∈ collected.items.map Prod.fst) (hne : ids ≠ [])
    (hlimit : 0 < query.maxGroupSize) :
    ∃ group, describeGroup query collected index ids = some group := by
  obtain ⟨first, rest, rfl⟩ := List.exists_cons_of_ne_nil hne
  obtain ⟨limit, hlimit⟩ := Nat.exists_eq_succ_of_ne_zero hlimit.ne'
  have hhead : ((first :: rest).take query.maxGroupSize).head? = some first := by
    rw [hlimit, List.take_succ_cons, List.head?_cons]
  have hitems : ∀ item ∈ (first :: rest).take query.maxGroupSize, ∃ related,
      relatedItem collected ((first :: rest).take query.maxGroupSize) item = some related := by
    intro item hitem
    have hfound : getKey collected.items item ≠ none := by
      intro hnone
      obtain ⟨entry, hentry, rfl⟩ := List.mem_map.mp (hids item (List.mem_of_mem_take hitem))
      exact getKey_eq_none.mp hnone entry hentry rfl
    obtain ⟨found, hfound⟩ := Option.ne_none_iff_exists'.mp hfound
    exact ⟨_, Option.bind_eq_some_iff.mpr ⟨found, hfound, rfl⟩⟩
  obtain ⟨items, hitems⟩ := exists_mapM_eq_some hitems
  exact ⟨_, Option.bind_eq_some_iff.mpr ⟨first, hhead,
    Option.bind_eq_some_iff.mpr ⟨items, hitems, rfl⟩⟩⟩

/-! ### The lists are the components -/

/-- A connected component of the pair graph. -/
def IsComponent (rows : List (PairRow β)) (members : Finset Text) : Prop :=
  ∃ item ∈ itemIds rows, ∀ other, other ∈ members ↔ Connected rows item other

open Classical in
/-- The component of an item, in the order in which its items are first seen. -/
noncomputable def componentOf (rows : List (PairRow β)) (item : Text) : List Text :=
  (itemIds rows).filter fun other ↦ decide (Connected rows item other)

theorem mem_componentOf {item other : Text} (hitem : item ∈ itemIds rows) :
    other ∈ componentOf rows item ↔ Connected rows item other := by
  classical
  rw [componentOf, List.mem_filter, decide_eq_true_iff]
  exact and_iff_right_of_imp fun hconnected ↦ hconnected.mem_iff.mp hitem

theorem nodup_componentOf (rows : List (PairRow β)) (item : Text) : (componentOf rows item).Nodup :=
  (nodup_itemIds rows).filter _

theorem isComponent_iff {members : Finset Text} : IsComponent rows members ↔
    ∃ item ∈ itemIds rows, members = (componentOf rows item).toFinset := by
  refine exists_congr fun item ↦ and_congr_right fun hitem ↦ ?_
  rw [Finset.ext_iff]
  exact forall_congr' fun other ↦ by rw [List.mem_toFinset, mem_componentOf hitem]

theorem card_componentOf (rows : List (PairRow β)) (item : Text) :
    (componentOf rows item).toFinset.card = (componentOf rows item).length :=
  List.toFinset_card_of_nodup (nodup_componentOf rows item)

theorem IsComponent.card_le {members : Finset Text} (hcomponent : IsComponent rows members) :
    members.card ≤ (itemIds rows).length := by
  obtain ⟨item, -, rfl⟩ := isComponent_iff.mp hcomponent
  rw [card_componentOf]
  exact List.length_filter_le _ _

variable {collected : CollectedRows β} {rootOf : Text → Text}

/-- The items below a root are a component. -/
theorem Collects.fiber_eq (hcollects : Collects rows collected rootOf) (item : Text) :
    fiber rootOf (itemIds rows) (rootOf item) = componentOf rows item := by
  refine List.filter_congr fun other _ ↦ decide_eq_decide.mpr ?_
  rw [eq_comm, hcollects.forest.joined]
  rfl

/-- The lists are the components. -/
theorem Collects.mem_memberLists_iff (hcollects : Collects rows collected rootOf) {ids : List Text} :
    ids ∈ memberLists (groupBy rootOf (itemIds rows)) ↔
      ∃ item ∈ itemIds rows, ids = componentOf rows item := by
  rw [memberLists, mem_ranked, groupBy_eq, List.map_map, List.mem_map]
  constructor
  · rintro ⟨root, hroot, rfl⟩
    obtain ⟨item, hitem, rfl⟩ := List.mem_map.mp (mem_fresh.mp hroot).1
    exact ⟨item, hitem, hcollects.fiber_eq item⟩
  · rintro ⟨item, hitem, rfl⟩
    exact ⟨rootOf item, mem_fresh.mpr ⟨List.mem_map_of_mem hitem, List.not_mem_nil⟩,
      hcollects.fiber_eq item⟩

/-- No item is in two lists. -/
theorem pairwise_memberLists (rootOf : Text → Text) (ids : List Text) :
    (memberLists (groupBy rootOf ids)).Pairwise List.Disjoint := by
  have hfibers : ((groupBy rootOf ids).map Prod.snd).Pairwise List.Disjoint := by
    rw [groupBy_eq, List.map_map, List.pairwise_map]
    refine (nodup_fresh _ _).imp fun {first second} hne item hfirst hsecond ↦ hne ?_
    exact (mem_fiber.mp hfirst).2.symm.trans (mem_fiber.mp hsecond).2
  exact (perm_ranked _ _).symm.pairwise hfibers fun hdisjoint ↦ hdisjoint.symm

/-! ### The groups are cut from the lists -/

/-- The lists that are long enough, with their numbers. -/
theorem groupsFromRows_eq_some {groups : List (RelationGroup β)}
    (hgroups : groupsFromRows frames query rows = some groups) :
    ∃ collected rootOf, Collects rows collected rootOf ∧
      List.Forall₂ (fun entry group ↦ describeGroup query collected entry.2 entry.1 = some group)
        (((memberLists (groupBy rootOf (itemIds rows))).zipIdx 1).filter fun entry ↦
          query.minGroupSize ≤ entry.1.length) groups := by
  obtain ⟨collected, hcollected, hgroups⟩ := Option.bind_eq_some_iff.mp hgroups
  obtain ⟨grouped, hgrouped, hgroups⟩ := Option.bind_eq_some_iff.mp hgroups
  obtain ⟨rootOf, hcollects⟩ := collectRows_spec hcollected
  have hlists := groupItems_eq hcollects.forest hgrouped
  rw [hcollects.items] at hlists
  rw [hlists] at hgroups
  exact ⟨collected, rootOf, hcollects, mapM_eq_some.mp hgroups⟩

theorem map_fst_filter_zipIdx {α : Type} (keep : α → Bool) (entries : List α) (start : ℕ) :
    ((entries.zipIdx start).filter fun entry ↦ keep entry.1).map Prod.fst = entries.filter keep :=
  calc ((entries.zipIdx start).filter fun entry ↦ keep entry.1).map Prod.fst
      = ((entries.zipIdx start).map Prod.fst).filter keep := List.filter_map.symm
    _ = entries.filter keep := by rw [List.zipIdx_map_fst]

theorem map_memberIds {entries : List (List Text × ℕ)} {groups : List (RelationGroup β)}
    (hgroups : List.Forall₂
      (fun entry group ↦ describeGroup query collected entry.2 entry.1 = some group) entries groups) :
    groups.map RelationGroup.memberIds =
      (entries.map Prod.fst).map (·.take query.maxGroupSize) := by
  induction hgroups with
  | nil => rfl
  | cons hgroup _ ih =>
    rw [List.map_cons, List.map_cons, List.map_cons, ih, (describeGroup_eq_some hgroup).1]

/-- **The groups** are the lists that are long enough, each cut behind its first items. -/
theorem map_memberIds_groupsFromRows {groups : List (RelationGroup β)}
    (hgroups : groupsFromRows frames query rows = some groups) :
    ∃ collected rootOf, Collects rows collected rootOf ∧ groups.map RelationGroup.memberIds =
      ((memberLists (groupBy rootOf (itemIds rows))).filter fun ids ↦
        query.minGroupSize ≤ ids.length).map (·.take query.maxGroupSize) := by
  obtain ⟨collected, rootOf, hcollects, hdescribed⟩ := groupsFromRows_eq_some hgroups
  refine ⟨collected, rootOf, hcollects, (map_memberIds hdescribed).trans ?_⟩
  exact congrArg (List.map _)
    (map_fst_filter_zipIdx (fun ids : List Text ↦ decide (query.minGroupSize ≤ ids.length)) _ 1)

/-- What was collected and grouped can be described. -/
theorem exists_groupsFromRows_of_grouped {grouped : List (Text × List Text)}
    (hcollected : collectRows frames rows = some collected)
    (hgrouped : groupItems frames (collected.items.map Prod.fst) collected.parent [] = some grouped)
    (hlimit : ∀ item ∈ itemIds rows, 0 < query.maxGroupSize) :
    ∃ groups, groupsFromRows frames query rows = some groups := by
  obtain ⟨rootOf, hcollects⟩ := collectRows_spec hcollected
  have hlists := groupItems_eq hcollects.forest hgrouped
  rw [hcollects.items] at hlists
  have hdescribed : ∀ entry ∈ ((memberLists grouped).zipIdx 1).filter fun entry ↦
      query.minGroupSize ≤ entry.1.length,
      ∃ group, describeGroup query collected entry.2 entry.1 = some group := by
    intro entry hentry
    have hlist : entry.1 ∈ memberLists grouped := by
      have hmem := List.mem_map_of_mem (f := Prod.fst) (List.mem_of_mem_filter hentry)
      rwa [List.zipIdx_map_fst] at hmem
    rw [hlists] at hlist
    obtain ⟨item, hitem, hlist⟩ := hcollects.mem_memberLists_iff.mp hlist
    rw [hlist]
    refine exists_describeGroup _ (fun other hother ↦ ?_) ?_ (hlimit item hitem)
    · rw [hcollects.items]
      exact List.mem_of_mem_filter hother
    · exact List.ne_nil_of_mem ((mem_componentOf hitem).mpr (.refl item))
  obtain ⟨groups, hgroups⟩ := exists_mapM_eq_some hdescribed
  exact ⟨groups, Option.bind_eq_some_iff.mpr ⟨collected, hcollected,
    Option.bind_eq_some_iff.mpr ⟨grouped, hgrouped, hgroups⟩⟩⟩

/-- The loops return when there are as many frames as items. -/
theorem exists_groupsFromRows (hframes : (itemIds rows).length ≤ frames)
    (hlimit : ∀ item ∈ itemIds rows, 0 < query.maxGroupSize) :
    ∃ groups, groupsFromRows frames query rows = some groups := by
  obtain ⟨collected, hcollected⟩ := exists_collectRows hframes
  obtain ⟨rootOf, hcollects⟩ := collectRows_spec hcollected
  obtain ⟨grouped, hgrouped⟩ := exists_groupItems [] hcollects.forest
    fun item hitem steps root hclimbs ↦
      (hcollects.steps_lt (fun _ hrow ↦ hrow) (hcollects.items ▸ hitem) hclimbs).trans_le hframes
  exact exists_groupsFromRows_of_grouped hcollected hgrouped hlimit

/-! ### Components that fit -/

/-- The groups list the components that are large enough, each once and without repetition. -/
structure ListsComponents (rows : List (PairRow β)) (minGroupSize : ℕ)
    (groups : List (RelationGroup β)) : Prop where
  members : ∀ members, (∃ group ∈ groups, group.members = members) ↔
    IsComponent rows members ∧ minGroupSize ≤ members.card
  disjoint : groups.Pairwise fun first second ↦ Disjoint first.members second.members
  nodup : ∀ group ∈ groups, group.memberIds.Nodup

/-- Two lists of rows with the same pairs, on whichever sides their items stand. -/
def SamePairs (rows others : List (PairRow β)) : Prop :=
  ∀ first second, (Paired rows first second ∨ Paired rows second first) ↔
    (Paired others first second ∨ Paired others second first)

theorem SamePairs.symm {others : List (PairRow β)} (hsame : SamePairs rows others) :
    SamePairs others rows :=
  fun first second ↦ (hsame first second).symm

theorem SamePairs.connected {others : List (PairRow β)} (hsame : SamePairs rows others)
    {first second : Text} (hconnected : Connected rows first second) :
    Connected others first second := by
  induction hconnected with
  | rel first second hpaired =>
    rcases (hsame first second).mp (.inl hpaired) with hother | hother
    · exact .rel _ _ hother
    · exact .symm _ _ (.rel _ _ hother)
  | refl item => exact .refl item
  | symm _ _ _ ih => exact ih.symm
  | trans _ _ _ _ _ hfirst hsecond => exact .trans _ _ _ hfirst hsecond

theorem SamePairs.mem_itemIds {others : List (PairRow β)} (hsame : SamePairs rows others)
    {item : Text} (hitem : item ∈ itemIds rows) : item ∈ itemIds others := by
  have hpaired : ∃ other, Paired rows item other ∨ Paired rows other item := by
    obtain ⟨row, hrow, rfl | rfl⟩ := DocStore.mem_itemIds.mp hitem
    · exact ⟨_, .inl ⟨row, hrow, rfl, rfl⟩⟩
    · exact ⟨_, .inr ⟨row, hrow, rfl, rfl⟩⟩
  obtain ⟨other, hother⟩ := hpaired
  rcases (hsame item other).mp hother with ⟨row, hrow, rfl, -⟩ | ⟨row, hrow, -, rfl⟩
  · exact DocStore.mem_itemIds.mpr ⟨row, hrow, .inl rfl⟩
  · exact DocStore.mem_itemIds.mpr ⟨row, hrow, .inr rfl⟩

/-- Components depend on the pairs alone. -/
theorem SamePairs.isComponent {others : List (PairRow β)} (hsame : SamePairs rows others)
    {members : Finset Text} (hmembers : IsComponent rows members) : IsComponent others members := by
  obtain ⟨item, hitem, hmem⟩ := hmembers
  exact ⟨item, hsame.mem_itemIds hitem, fun other ↦
    (hmem other).trans ⟨hsame.connected, hsame.symm.connected⟩⟩

/-- What fits is listed whole. -/
theorem listsComponents {groups : List (RelationGroup β)}
    (hsize : ∀ members, IsComponent rows members → members.card ≤ query.maxGroupSize)
    (hgroups : groupsFromRows frames query rows = some groups) :
    ListsComponents rows query.minGroupSize groups := by
  obtain ⟨collected, rootOf, hcollects, hids⟩ := map_memberIds_groupsFromRows hgroups
  have hmemLists : ∀ ids, ids ∈ memberLists (groupBy rootOf (itemIds rows)) ↔
      ∃ item ∈ itemIds rows, ids = componentOf rows item := fun _ ↦ hcollects.mem_memberLists_iff
  have hwhole : groups.map RelationGroup.memberIds =
      (memberLists (groupBy rootOf (itemIds rows))).filter fun ids ↦
        query.minGroupSize ≤ ids.length := by
    refine hids.trans ((List.map_congr_left fun ids hlist ↦ ?_).trans (List.map_id _))
    obtain ⟨item, hitem, rfl⟩ := (hmemLists ids).mp (List.mem_of_mem_filter hlist)
    have hcard := hsize _ (isComponent_iff.mpr ⟨item, hitem, rfl⟩)
    rw [card_componentOf] at hcard
    exact List.take_of_length_le hcard
  have hlist : ∀ group ∈ groups, ∃ item ∈ itemIds rows,
      group.memberIds = componentOf rows item ∧ query.minGroupSize ≤ group.memberIds.length := by
    intro group hgroup
    have hmem := List.mem_map_of_mem (f := RelationGroup.memberIds) hgroup
    rw [hwhole, List.mem_filter, hmemLists, decide_eq_true_iff] at hmem
    obtain ⟨⟨item, hitem, hsame⟩, hlong⟩ := hmem
    exact ⟨item, hitem, hsame, hlong⟩
  refine ⟨fun members ↦ ⟨?_, ?_⟩, ?_, fun group hgroup ↦ ?_⟩
  · rintro ⟨group, hgroup, rfl⟩
    obtain ⟨item, hitem, hsame, hlong⟩ := hlist group hgroup
    rw [RelationGroup.members, isComponent_iff, hsame, card_componentOf]
    exact ⟨⟨item, hitem, rfl⟩, hsame ▸ hlong⟩
  · rintro ⟨hcomponent, hlong⟩
    obtain ⟨item, hitem, rfl⟩ := isComponent_iff.mp hcomponent
    rw [card_componentOf] at hlong
    have hmem : componentOf rows item ∈ groups.map RelationGroup.memberIds := by
      rw [hwhole, List.mem_filter, hmemLists, decide_eq_true_iff]
      exact ⟨⟨item, hitem, rfl⟩, hlong⟩
    obtain ⟨group, hgroup, hsame⟩ := List.mem_map.mp hmem
    exact ⟨group, hgroup, by rw [RelationGroup.members, hsame]⟩
  · have hdisjoint : (groups.map RelationGroup.memberIds).Pairwise List.Disjoint := by
      rw [hwhole]
      exact (pairwise_memberLists rootOf _).filter _
    refine (List.pairwise_map.mp hdisjoint).imp fun {first second} hapart ↦ ?_
    exact List.disjoint_toFinset_iff_disjoint.mpr hapart
  · obtain ⟨item, -, hsame, -⟩ := hlist group hgroup
    rw [hsame]
    exact nodup_componentOf rows item

/-- **Relation groups are the connected components** of the pair graph that are large enough, when
every component fits into a group. They come back when there are as many frames as items, and for
rows with the same pairs, in whatever order and on whichever sides, they are the same sets. -/
theorem groupsFromRows_components
    (hsize : ∀ members, IsComponent rows members → members.card ≤ query.maxGroupSize) :
    ((itemIds rows).length ≤ frames → ∃ groups, groupsFromRows frames query rows = some groups) ∧
      ∀ others depth groups, SamePairs rows others →
        groupsFromRows depth query others = some groups →
          ListsComponents rows query.minGroupSize groups := by
  refine ⟨fun hframes ↦ exists_groupsFromRows hframes fun item hitem ↦ ?_,
    fun others depth groups hsame hgroups ↦ ?_⟩
  · have hcard := hsize _ (isComponent_iff.mpr ⟨item, hitem, rfl⟩)
    refine (Finset.card_pos.mpr ⟨item, ?_⟩).trans_le hcard
    exact List.mem_toFinset.mpr ((mem_componentOf hitem).mpr (.refl item))
  · have hothers := listsComponents (fun members hmembers ↦
      hsize members (hsame.symm.isComponent hmembers)) hgroups
    refine ⟨fun members ↦ (hothers.members members).trans (and_congr_left fun _ ↦ ?_),
      hothers.disjoint, hothers.nodup⟩
    exact ⟨hsame.symm.isComponent, hsame.isComponent⟩

/-- Rows with three items, the middle one on either side. -/
def chainedRows : List (PairRow Unit) :=
  [⟨lit "a", lit "b", (), (), 1 / 10⟩, ⟨lit "b", lit "c", (), (), 1 / 9⟩]

/-- Similar items by distance, in groups of two to a number of them. -/
def similarQuery (maxGroupSize : ℕ) : RelationQuery where
  relation := .similar
  metric := .cosineDistance
  thresholdText := lit "0.18"
  minGroupSize := 2
  maxGroupSize := maxGroupSize

theorem groupsFromRows_components_chained :
    ((itemIds chainedRows).length ≤ 999 →
        ∃ groups, groupsFromRows 999 (similarQuery 20) chainedRows = some groups) ∧
      ∀ others depth groups, SamePairs chainedRows others →
        groupsFromRows depth (similarQuery 20) others = some groups →
          ListsComponents chainedRows (similarQuery 20).minGroupSize groups :=
  groupsFromRows_components fun _ hmembers ↦ hmembers.card_le.trans (by decide +kernel)

/-! ### Groups that are cut -/

/-- A row pairs two listed items. -/
def PairedWithin (rows : List (PairRow β)) (ids : List Text) (first second : Text) : Prop :=
  first ∈ ids ∧ second ∈ ids ∧ Paired rows first second

/-- The listed members are connected by pairs between them, and each has a similarity and a distance
to another one. -/
def HoldsTogether (rows : List (PairRow β)) (group : RelationGroup β) : Prop :=
  (∀ first ∈ group.memberIds, ∀ second ∈ group.memberIds,
    Relation.EqvGen (PairedWithin rows group.memberIds) first second) ∧
  ∀ member ∈ group.items, member.similarity.isSome ∧ member.distance.isSome

/-- Some row pairs an item with another listed one, on whichever side. -/
def PairedWithOther (rows : List (PairRow β)) (ids : List Text) (item : Text) : Prop :=
  ∃ other ∈ ids, other ≠ item ∧ (Paired rows item other ∨ Paired rows other item)

/-- Linked items are each linked to some other item directly. -/
theorem exists_linked_of_ne {α : Type} {linked : α → α → Prop} {first second : α}
    (hjoined : Relation.EqvGen linked first second) (hne : first ≠ second) :
    (∃ other, other ≠ first ∧ (linked first other ∨ linked other first)) ∧
      ∃ other, other ≠ second ∧ (linked second other ∨ linked other second) := by
  induction hjoined with
  | rel first second hlinked =>
    exact ⟨⟨second, hne.symm, .inl hlinked⟩, ⟨first, hne, .inr hlinked⟩⟩
  | refl => exact absurd rfl hne
  | symm _ _ _ ih => exact (ih hne.symm).symm
  | trans first middle second _ _ hfirst hsecond =>
    by_cases hsame : first = middle
    · subst hsame
      exact hsecond hne
    · by_cases hsame' : middle = second
      · subst hsame'
        exact hfirst hne
      · exact ⟨(hfirst hsame).1, (hsecond hsame').2⟩

/-- What is connected in the rows is connected by pairs between the items of a list that holds whole
components. -/
theorem Connected.pairedWithin {ids : List Text}
    (hclosed : ∀ first second, Connected rows first second → (first ∈ ids ↔ second ∈ ids))
    {first second : Text} (hconnected : Connected rows first second) (hfirst : first ∈ ids) :
    Relation.EqvGen (PairedWithin rows ids) first second := by
  induction hconnected with
  | rel first second hpaired =>
    exact .rel _ _ ⟨hfirst, (hclosed _ _ (.rel _ _ hpaired)).mp hfirst, hpaired⟩
  | refl item => exact .refl item
  | symm first second hlinked ih => exact .symm _ _ (ih ((hclosed _ _ hlinked).mpr hfirst))
  | trans first middle second hlinked _ ih ih' =>
    exact .trans _ _ _ (ih hfirst) (ih' ((hclosed _ _ hlinked).mp hfirst))

/-- An item has scores when a row pairs it with another listed one. -/
theorem Collects.isSome_bestItemScore (hcollects : Collects rows collected rootOf) {item : Text}
    {ids : List Text} {similarity : Bool} :
    (bestItemScore item ids collected.scores similarity).isSome ↔ PairedWithOther rows ids item := by
  rw [DocStore.isSome_bestItemScore]
  refine exists_congr fun other ↦ and_congr_right fun _ ↦ and_congr_right fun _ ↦ ?_
  rw [hcollects.scored]
  constructor
  · rintro ⟨row, hrow, hpair⟩
    rcases sortedPair_eq_iff.mp hpair with ⟨hleft, hright⟩ | ⟨hright, hleft⟩
    · exact .inl ⟨row, hrow, hleft, hright⟩
    · exact .inr ⟨row, hrow, hleft, hright⟩
  · rintro (⟨row, hrow, hleft, hright⟩ | ⟨row, hrow, hleft, hright⟩)
    · exact ⟨row, hrow, sortedPair_eq_iff.mpr (.inl ⟨hleft, hright⟩)⟩
    · exact ⟨row, hrow, sortedPair_eq_iff.mpr (.inr ⟨hright, hleft⟩)⟩

/-- The first two items that are kept come from one row, when rows pair different items and are kept
or dropped with both. -/
theorem paired_of_filter_itemIds {keep : Text → Bool}
    (hkeep : ∀ row ∈ rows, keep row.leftItemId = keep row.rightItemId)
    (hpairs : ∀ row ∈ rows, row.leftItemId ≠ row.rightItemId) {first second : Text}
    {rest done : List Text} (hdone : ∀ item ∈ done, keep item = false)
    (hlist : (fresh done (rows.flatMap fun row ↦ [row.leftItemId, row.rightItemId])).filter keep =
      first :: second :: rest) : Paired rows first second := by
  induction rows generalizing done with
  | nil => cases hlist
  | cons row rows ih =>
    obtain ⟨hkeepRow, hkeepRest⟩ := List.forall_mem_cons.mp hkeep
    obtain ⟨hpairsRow, hpairsRest⟩ := List.forall_mem_cons.mp hpairs
    rw [List.flatMap_cons] at hlist
    by_cases hleft : keep row.leftItemId = true
    · have hright : keep row.rightItemId = true := hkeepRow ▸ hleft
      have hnew : row.leftItemId ∉ done := fun hmem ↦ by
        rw [hdone _ hmem] at hleft
        cases hleft
      have hnew' : row.rightItemId ∉ done ++ [row.leftItemId] := by
        rw [List.mem_append, List.mem_singleton, not_or]
        refine ⟨fun hmem ↦ ?_, hpairsRow.symm⟩
        rw [hdone _ hmem] at hright
        cases hright
      rw [List.cons_append, fresh_cons_of_not_mem hnew, List.cons_append,
        fresh_cons_of_not_mem hnew', List.filter_cons_of_pos hleft,
        List.filter_cons_of_pos hright, List.cons.injEq, List.cons.injEq] at hlist
      exact ⟨row, List.mem_cons_self, hlist.1.symm, hlist.2.1.symm⟩
    · have hleft : keep row.leftItemId = false := Bool.eq_false_iff.mpr hleft
      have hdropped : ∀ item ∈ fresh done [row.leftItemId, row.rightItemId], keep item = false := by
        intro item hitem
        have hmem := (mem_fresh.mp hitem).1
        rw [List.mem_cons, List.mem_singleton] at hmem
        rcases hmem with rfl | rfl
        · exact hleft
        · exact hkeepRow.symm.trans hleft
      have hnone : (fresh done [row.leftItemId, row.rightItemId]).filter keep = [] :=
        List.filter_eq_nil_iff.mpr fun item hitem ↦ Bool.eq_false_iff.mp (hdropped item hitem)
      rw [fresh_append, List.filter_append, hnone, List.nil_append] at hlist
      obtain ⟨other, hother, hids⟩ := ih hkeepRest hpairsRest (fun item hitem ↦
        (List.mem_append.mp hitem).elim (hdone item) (hdropped item)) hlist
      exact ⟨other, List.mem_cons_of_mem _ hother, hids⟩

/-- The first two items of a component are paired. -/
theorem paired_of_componentOf (hpairs : ∀ row ∈ rows, row.leftItemId ≠ row.rightItemId)
    {item first second : Text} {rest : List Text}
    (hlist : componentOf rows item = first :: second :: rest) : Paired rows first second := by
  refine paired_of_filter_itemIds (fun row hrow ↦ ?_) hpairs (fun _ hnone ↦ ?_) hlist
  · have hlinked : Connected rows row.leftItemId row.rightItemId := .rel _ _ ⟨row, hrow, rfl, rfl⟩
    exact decide_eq_decide.mpr ⟨fun hleft ↦ .trans _ _ _ hleft hlinked,
      fun hright ↦ .trans _ _ _ hright hlinked.symm⟩
  · cases hnone

/-- A whole component holds together. -/
theorem connected_componentOf {item first second : Text} (hitem : item ∈ itemIds rows)
    (hfirst : first ∈ componentOf rows item) (hsecond : second ∈ componentOf rows item) :
    Relation.EqvGen (PairedWithin rows (componentOf rows item)) first second := by
  refine Connected.pairedWithin (fun one two hlinked ↦ ?_) ?_ hfirst
  · rw [mem_componentOf hitem, mem_componentOf hitem]
    exact ⟨fun hone ↦ .trans _ _ _ hone hlinked, fun htwo ↦ .trans _ _ _ htwo hlinked.symm⟩
  · rw [mem_componentOf hitem] at hfirst hsecond
    exact .trans _ _ _ hfirst.symm hsecond

/-- An item of a component of two or more is paired with another one. -/
theorem pairedWithOther_componentOf {item member : Text} (hitem : item ∈ itemIds rows)
    (hlong : 2 ≤ (componentOf rows item).length) (hmember : member ∈ componentOf rows item) :
    PairedWithOther rows (componentOf rows item) member := by
  have hother : ∃ other ∈ componentOf rows item, other ≠ member := by
    refine by_contra fun hnone ↦ ?_
    have hall : ∀ other ∈ componentOf rows item, other = member := fun other hother ↦
      by_contra fun hne ↦ hnone ⟨other, hother, hne⟩
    have hlength := (List.nodup_replicate.mp
      (List.eq_replicate_of_mem hall ▸ nodup_componentOf rows item))
    omega
  obtain ⟨other, hother, hne⟩ := hother
  obtain ⟨⟨partner, hpartner, hpaired⟩, -⟩ :=
    exists_linked_of_ne (connected_componentOf hitem hmember hother) hne.symm
  rcases hpaired with ⟨-, hlisted, hpaired⟩ | ⟨hlisted, -, hpaired⟩
  · exact ⟨partner, hlisted, hpartner, .inl hpaired⟩
  · exact ⟨partner, hlisted, hpartner, .inr hpaired⟩

/-- **What a relation group is**: the first items of a component. A component that fits holds
together; a listed item has scores exactly when a row pairs it with another listed one, and the first
two are paired. -/
theorem listed_of_groupsFromRows {groups : List (RelationGroup β)}
    (hgroups : groupsFromRows frames query rows = some groups) {group : RelationGroup β}
    (hgroup : group ∈ groups) : ∃ item ∈ itemIds rows,
      group.memberIds = (componentOf rows item).take query.maxGroupSize ∧
      ((componentOf rows item).length ≤ query.maxGroupSize → 2 ≤ (componentOf rows item).length →
        HoldsTogether rows group) ∧
      (∀ member ∈ group.items,
        (member.similarity.isSome ↔ PairedWithOther rows group.memberIds member.id) ∧
        (member.distance.isSome ↔ PairedWithOther rows group.memberIds member.id)) ∧
      ((∀ row ∈ rows, row.leftItemId ≠ row.rightItemId) → ∀ first second rest,
        group.memberIds = first :: second :: rest → Paired rows first second) := by
  obtain ⟨collected, rootOf, hcollects, hdescribed⟩ := groupsFromRows_eq_some hgroups
  obtain ⟨⟨ids, index⟩, hentry, hdescribe⟩ : ∃ entry ∈ ((memberLists (groupBy rootOf
      (itemIds rows))).zipIdx 1).filter fun entry ↦ query.minGroupSize ≤ entry.1.length,
      describeGroup query collected entry.2 entry.1 = some group :=
    exists_of_forall₂_right hdescribed hgroup
  obtain ⟨hids, hscores⟩ := describeGroup_eq_some hdescribe
  have hlist : ids ∈ memberLists (groupBy rootOf (itemIds rows)) := by
    have hmem := List.mem_map_of_mem (f := Prod.fst) (List.mem_of_mem_filter hentry)
    rwa [List.zipIdx_map_fst] at hmem
  obtain ⟨item, hitem, rfl⟩ := hcollects.mem_memberLists_iff.mp hlist
  have hscored : ∀ member ∈ group.items,
      (member.similarity.isSome ↔ PairedWithOther rows group.memberIds member.id) ∧
      (member.distance.isSome ↔ PairedWithOther rows group.memberIds member.id) := by
    intro member hmember
    obtain ⟨hsimilarity, hdistance⟩ := hscores member hmember
    rw [hsimilarity, hdistance]
    exact ⟨hcollects.isSome_bestItemScore, hcollects.isSome_bestItemScore⟩
  refine ⟨item, hitem, hids, fun hfits hlong ↦ ?_, hscored, fun hpairs first second rest hsame ↦ ?_⟩
  · rw [List.take_of_length_le hfits] at hids
    refine ⟨fun first hfirst second hsecond ↦ ?_, fun member hmember ↦ ?_⟩
    · rw [hids] at hfirst hsecond ⊢
      exact connected_componentOf hitem hfirst hsecond
    · rw [(hscored member hmember).1, (hscored member hmember).2, and_self, hids]
      have hmem : member.id ∈ componentOf rows item := hids ▸ List.mem_map_of_mem hmember
      exact pairedWithOther_componentOf hitem hlong hmem
  · have hlist : componentOf rows item =
        first :: second :: (rest ++ (componentOf rows item).drop query.maxGroupSize) := by
      rw [← List.cons_append, ← List.cons_append, ← hsame, hids, List.take_append_drop]
    exact paired_of_componentOf hpairs hlist

theorem listed_of_groupsFromRows_chained : ∃ groups group,
    groupsFromRows 999 (similarQuery 2) chainedRows = some groups ∧ group ∈ groups ∧
      ∃ item ∈ itemIds chainedRows,
        group.memberIds = (componentOf chainedRows item).take (similarQuery 2).maxGroupSize ∧
        ((componentOf chainedRows item).length ≤ (similarQuery 2).maxGroupSize →
          2 ≤ (componentOf chainedRows item).length → HoldsTogether chainedRows group) ∧
        (∀ member ∈ group.items,
          (member.similarity.isSome ↔ PairedWithOther chainedRows group.memberIds member.id) ∧
          (member.distance.isSome ↔ PairedWithOther chainedRows group.memberIds member.id)) ∧
        ((∀ row ∈ chainedRows, row.leftItemId ≠ row.rightItemId) → ∀ first second rest,
          group.memberIds = first :: second :: rest → Paired chainedRows first second) := by
  have hsome : ((groupsFromRows 999 (similarQuery 2) chainedRows).bind List.head?).isSome = true := by
    decide +kernel
  obtain ⟨group, hfirst⟩ := Option.isSome_iff_exists.mp hsome
  obtain ⟨groups, hgroups, hhead⟩ := Option.bind_eq_some_iff.mp hfirst
  have hgroup : group ∈ groups := List.mem_of_mem_head? hhead
  exact ⟨groups, group, hgroups, hgroup, listed_of_groupsFromRows hgroups hgroup⟩

/-- Two pairs that a third row joins. -/
def crossedRows : List (PairRow Unit) :=
  [⟨lit "a", lit "b", (), (), 1 / 10⟩, ⟨lit "c", lit "d", (), (), 1 / 9⟩,
    ⟨lit "b", lit "d", (), (), 1 / 8⟩]

/-- Cut behind three of four items, the group of two joined pairs lists an item without its partner. -/
theorem not_holdsTogether_crossed : ∃ groups group,
    groupsFromRows 999 (similarQuery 3) crossedRows = some groups ∧ group ∈ groups ∧
      ¬ HoldsTogether crossedRows group := by
  have hlisted : (groupsFromRows 999 (similarQuery 3) crossedRows).map
      (fun groups ↦ groups.map fun group ↦ group.items.all (·.similarity.isSome)) =
        some [false] := by
    decide +kernel
  obtain ⟨groups, hgroups, hflags⟩ := Option.map_eq_some_iff.mp hlisted
  obtain ⟨group, hgroup, hflag⟩ := List.mem_map.mp (hflags ▸ List.mem_singleton_self false)
  refine ⟨groups, group, hgroups, hgroup, fun hholds ↦ ?_⟩
  have hall : group.items.all (·.similarity.isSome) = true :=
    List.all_eq_true.mpr fun member hmember ↦ (hholds.2 member hmember).1
  rw [hflag] at hall
  cases hall

end DocStore
