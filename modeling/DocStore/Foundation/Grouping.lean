import DocStore.Foundation.Assoc
import DocStore.Foundation.Schedule
import Mathlib.Data.List.Induction

/-!
# Items by their keys

`groupBy` is the loop `grouped.setdefault(key(item), []).append(item)`. Its entries are the keys in
the order of their first items, each with all the items that have it (`groupBy_eq`).
-/

set_option autoImplicit false
set_option relaxedAutoImplicit false

namespace DocStore.Foundation

variable {α κ υ : Type*} [DecidableEq κ]

/-- `grouped.setdefault(key, []).append(item)`. -/
def appendKey (grouped : List (κ × List α)) (key : κ) (item : α) : List (κ × List α) :=
  setKey grouped key ((getKey grouped key).getD [] ++ [item])

/-- The items by their keys. -/
def groupBy (key : α → κ) (items : List α) : List (κ × List α) :=
  items.foldl (fun grouped item ↦ appendKey grouped (key item) item) []

/-- The items of a key. -/
def fiber (key : α → κ) (items : List α) (of : κ) : List α :=
  items.filter fun item ↦ decide (key item = of)

variable {key : α → κ} {items : List α}

@[simp] theorem mem_fiber {of : κ} {item : α} :
    item ∈ fiber key items of ↔ item ∈ items ∧ key item = of := by
  rw [fiber, List.mem_filter, decide_eq_true_iff]

theorem groupBy_append (key : α → κ) (items : List α) (item : α) :
    groupBy key (items ++ [item]) = appendKey (groupBy key items) (key item) item := by
  rw [groupBy, List.foldl_append]
  rfl

/-- Assigning a key that is not there adds its entry at the end. -/
theorem setKey_of_getKey_eq_none {mapping : List (κ × υ)} {key : κ} (value : υ)
    (hnone : getKey mapping key = none) : setKey mapping key value = mapping ++ [(key, value)] := by
  induction mapping with
  | nil => rfl
  | cons entry rest ih =>
    have hne : entry.1 ≠ key := getKey_eq_none.mp hnone entry List.mem_cons_self
    rw [getKey, if_neg hne] at hnone
    rw [setKey, if_neg hne, ih hnone, List.cons_append]

/-- An update with keys that are not there adds its entries at the end. -/
theorem updateKeys_eq_append {mapping overlay : List (κ × υ)}
    (hnodup : (overlay.map Prod.fst).Nodup)
    (hnew : ∀ entry ∈ overlay, getKey mapping entry.1 = none) :
    updateKeys mapping overlay = mapping ++ overlay := by
  induction overlay generalizing mapping with
  | nil => exact (List.append_nil mapping).symm
  | cons entry rest ih =>
    obtain ⟨hfirst, hrest⟩ := List.forall_mem_cons.mp hnew
    obtain ⟨hnotMem, hnodup⟩ := List.nodup_cons.mp hnodup
    have hadded : setKey mapping entry.1 entry.2 = mapping ++ [entry] :=
      setKey_of_getKey_eq_none entry.2 hfirst
    show updateKeys (setKey mapping entry.1 entry.2) rest = _
    rw [hadded, ih hnodup, List.append_assoc, List.singleton_append]
    intro other hother
    have hne : entry.1 ≠ other.1 := fun heq ↦ hnotMem (heq ▸ List.mem_map_of_mem hother)
    rw [getKey_append, hrest other hother, Option.none_or, getKey, if_neg hne]
    rfl

/-- So do several updates, when no key is there twice. -/
theorem foldl_updateKeys_eq_append {overlays : List (List (κ × υ))} {mapping : List (κ × υ)}
    (hnodup : ((mapping ++ overlays.flatten).map Prod.fst).Nodup) :
    overlays.foldl updateKeys mapping = mapping ++ overlays.flatten := by
  induction overlays generalizing mapping with
  | nil => exact (List.append_nil mapping).symm
  | cons overlay rest ih =>
    rw [List.flatten_cons, ← List.append_assoc] at hnodup ⊢
    rw [List.map_append, List.map_append] at hnodup
    have hfront := List.Nodup.of_append_left hnodup
    have hadded : updateKeys mapping overlay = mapping ++ overlay := by
      refine updateKeys_eq_append (List.Nodup.of_append_right hfront) fun entry hentry ↦ ?_
      refine getKey_eq_none.mpr fun other hother heq ↦ ?_
      exact List.disjoint_of_nodup_append hfront (List.mem_map_of_mem hother)
        (heq ▸ List.mem_map_of_mem hentry)
    rw [List.foldl_cons, hadded]
    refine ih ?_
    rwa [List.map_append, List.map_append]

theorem getKey_map_of_mem {keys : List κ} {key : κ} (value : κ → υ) (hkey : key ∈ keys) :
    getKey (keys.map fun key ↦ (key, value key)) key = some (value key) := by
  induction keys with
  | nil => cases hkey
  | cons first rest ih =>
    by_cases hfirst : first = key
    · rw [hfirst, List.map_cons, getKey, if_pos rfl]
    · rw [List.map_cons, getKey, if_neg hfirst]
      exact ih ((List.mem_cons.mp hkey).resolve_left (Ne.symm hfirst))

theorem getKey_map_of_not_mem {keys : List κ} {key : κ} (value : κ → υ) (hkey : key ∉ keys) :
    getKey (keys.map fun key ↦ (key, value key)) key = none := by
  refine getKey_eq_none.mpr fun entry hentry ↦ ?_
  obtain ⟨other, hother, rfl⟩ := List.mem_map.mp hentry
  rintro rfl
  exact hkey hother

/-- Assigning one of the keys changes its entry alone. -/
theorem setKey_map_of_mem {keys : List κ} (hnodup : keys.Nodup) {key : κ} (hkey : key ∈ keys)
    (value : κ → υ) (assigned : υ) :
    setKey (keys.map fun key ↦ (key, value key)) key assigned =
      keys.map fun other ↦ (other, if other = key then assigned else value other) := by
  induction keys with
  | nil => cases hkey
  | cons first rest ih =>
    obtain ⟨hnew, hrest⟩ := List.nodup_cons.mp hnodup
    by_cases hfirst : first = key
    · have hothers : ∀ other ∈ rest, other ≠ key := fun other hother hsame ↦
        hnew (hfirst ▸ hsame ▸ hother)
      rw [List.map_cons, setKey, if_pos hfirst, List.map_cons, if_pos hfirst, hfirst]
      refine congrArg (List.cons _) (List.map_congr_left fun other hother ↦ ?_)
      rw [if_neg (hothers other hother)]
    · rw [List.map_cons, setKey, if_neg hfirst, List.map_cons, if_neg hfirst,
        ih hrest ((List.mem_cons.mp hkey).resolve_left (Ne.symm hfirst))]

/-- **Grouping** lists the keys in the order of their first items, each with its items. -/
theorem groupBy_eq (key : α → κ) (items : List α) :
    groupBy key items = (fresh [] (items.map key)).map fun of ↦ (of, fiber key items of) := by
  induction items using List.reverseRecOn with
  | nil => rfl
  | append_singleton items item ih =>
    have hfiber : ∀ of, fiber key (items ++ [item]) of =
        if of = key item then fiber key items of ++ [item] else fiber key items of := by
      intro of
      rw [fiber, List.filter_append, List.filter_singleton]
      by_cases hof : of = key item
      · rw [if_pos hof, decide_eq_true hof.symm]
        rfl
      · rw [if_neg hof, decide_eq_false (Ne.symm hof)]
        exact List.append_nil _
    have hkeys : ∀ of, of ∈ fresh [] (items.map key) ↔ of ∈ items.map key := by
      intro of
      rw [mem_fresh]
      exact and_iff_left List.not_mem_nil
    rw [groupBy_append, ih, appendKey, List.map_append, List.map_singleton, fresh_append,
      List.nil_append]
    by_cases hitem : key item ∈ items.map key
    · have hmem := (hkeys (key item)).mpr hitem
      rw [getKey_map_of_mem _ hmem, setKey_map_of_mem (nodup_fresh _ _) hmem, fresh_cons_of_mem hmem,
        fresh_nil, List.append_nil]
      refine List.map_congr_left fun of _ ↦ ?_
      rw [hfiber]
      by_cases hof : of = key item
      · rw [if_pos hof, if_pos hof, hof]
        rfl
      · rw [if_neg hof, if_neg hof]
    · have hnew := mt (hkeys (key item)).mp hitem
      have hnone : fiber key items (key item) = [] := by
        refine List.eq_nil_iff_forall_not_mem.mpr fun other hother ↦ hitem ?_
        obtain ⟨hother, hsame⟩ := mem_fiber.mp hother
        exact hsame ▸ List.mem_map_of_mem hother
      rw [setKey_of_getKey_eq_none _ (getKey_map_of_not_mem _ hnew),
        getKey_map_of_not_mem _ hnew, fresh_cons_of_not_mem hnew, fresh_nil, List.map_append,
        List.map_singleton, hfiber, if_pos rfl, hnone]
      refine congrArg (· ++ _) (List.map_congr_left fun of hof ↦ ?_)
      have hne : of ≠ key item := by
        rintro rfl
        exact hnew hof
      rw [hfiber, if_neg hne]

/-- Groups that are put behind one another are found again. -/
theorem fiber_flatMap {keys : List κ} (hnodup : keys.Nodup) {group : κ → List α}
    (hgroup : ∀ of ∈ keys, ∀ item ∈ group of, key item = of) {of : κ} (hof : of ∈ keys) :
    fiber key (keys.flatMap group) of = group of := by
  have hself : ∀ other ∈ keys, fiber key (group other) of =
      if other = of then group other else [] := by
    intro other hother
    by_cases heq : other = of
    · rw [if_pos heq]
      exact List.filter_eq_self.mpr fun item hitem ↦
        decide_eq_true ((hgroup other hother item hitem).trans heq)
    · rw [if_neg heq]
      refine List.filter_eq_nil_iff.mpr fun item hitem hkey ↦ heq ?_
      exact (hgroup other hother item hitem).symm.trans (of_decide_eq_true hkey)
  induction keys with
  | nil => cases hof
  | cons first rest ih =>
    obtain ⟨hnew, hrest⟩ := List.nodup_cons.mp hnodup
    obtain ⟨hfirst, hothers⟩ := List.forall_mem_cons.mp hself
    have hgroups := (List.forall_mem_cons.mp hgroup).2
    rw [List.flatMap_cons, fiber, List.filter_append]
    change fiber key (group first) of ++ fiber key (rest.flatMap group) of = _
    rw [hfirst]
    by_cases heq : first = of
    · have hnone : fiber key (rest.flatMap group) of = [] := by
        refine List.filter_eq_nil_iff.mpr fun item hitem hkey ↦ hnew ?_
        obtain ⟨other, hother, hitem⟩ := List.mem_flatMap.mp hitem
        have hsame := (hgroups other hother item hitem).symm.trans (of_decide_eq_true hkey)
        exact heq ▸ hsame ▸ hother
      rw [if_pos heq, hnone, List.append_nil, heq]
    · rw [if_neg heq, List.nil_append]
      exact ih hrest hgroups ((List.mem_cons.mp hof).resolve_left (Ne.symm heq)) hothers

/-- A group has its items, so it is not empty. -/
theorem fiber_ne_nil {of : κ} (hof : of ∈ fresh [] (items.map key)) : fiber key items of ≠ [] := by
  obtain ⟨item, hitem, rfl⟩ := List.mem_map.mp (mem_fresh.mp hof).1
  exact List.ne_nil_of_mem (mem_fiber.mpr ⟨hitem, rfl⟩)

end DocStore.Foundation
