import Mathlib.Data.List.Dedup
import Mathlib.Data.List.Sort

/-!
# Batches and groups

`batches` cuts a list into pieces of a size, the last of which may be shorter, and `grouped` puts
the values of a list of pairs under their keys, as a dict of lists does that is filled with
`setdefault(key, []).append(value)`. The batches of a list, one behind the other, are the list.
-/

set_option autoImplicit false
set_option relaxedAutoImplicit false

namespace DocStore.Foundation

variable {α κ : Type*}

/-- The first batches of a list. -/
def batchesWithin (size : ℕ) : ℕ → List α → List (List α)
  | 0, _ => []
  | count + 1, items =>
    if items.isEmpty then [] else items.take size :: batchesWithin size count (items.drop size)

/-- `items[start : start + size] for start in range(0, len(items), size)`. -/
def batches (size : ℕ) (items : List α) : List (List α) := batchesWithin size items.length items

variable {size : ℕ}

theorem batchesWithin_eq (hsize : 0 < size) {count : ℕ} {items : List α}
    (hcount : items.length ≤ count) : batchesWithin size count items = batches size items := by
  induction count using Nat.strong_induction_on generalizing items with
  | _ count ih =>
    cases count with
    | zero => rw [List.length_eq_zero_iff.mp (Nat.le_zero.mp hcount)]; rfl
    | succ count =>
      cases items with
      | nil => rfl
      | cons item rest =>
        have hdrop : ((item :: rest).drop size).length ≤ rest.length := by
          rw [List.length_drop, List.length_cons]
          omega
        have hrest : rest.length ≤ count := Nat.succ_le_succ_iff.mp hcount
        rw [batches, List.length_cons, batchesWithin, batchesWithin,
          ih count (Nat.lt_succ_self _) (hdrop.trans hrest)]
        by_cases hlast : rest.length = count
        · rw [hlast, ih count (Nat.lt_succ_self _) (hdrop.trans hrest)]
        · rw [ih rest.length (by omega) hdrop]

@[simp] theorem batches_nil : batches size ([] : List α) = [] :=
  rfl

theorem batches_of_ne_nil (hsize : 0 < size) {items : List α} (hitems : items ≠ []) :
    batches size items = items.take size :: batches size (items.drop size) := by
  cases items with
  | nil => exact absurd rfl hitems
  | cons item rest =>
    have hdrop : ((item :: rest).drop size).length ≤ rest.length := by
      rw [List.length_drop, List.length_cons]
      omega
    rw [batches, List.length_cons, batchesWithin, batchesWithin_eq hsize hdrop]
    rfl

/-- An induction over the batches of a list. -/
theorem batches_induction (hsize : 0 < size) {motive : List α → Prop} (hnil : motive [])
    (hbatch : ∀ items, items ≠ [] → motive (items.drop size) → motive items)
    (items : List α) : motive items := by
  induction hlength : items.length using Nat.strong_induction_on generalizing items with
  | _ length ih =>
    cases items with
    | nil => exact hnil
    | cons item rest =>
      refine hbatch _ (List.cons_ne_nil _ _) (ih _ ?_ _ rfl)
      rw [← hlength, List.length_drop, List.length_cons]
      omega

theorem flatten_batches (hsize : 0 < size) (items : List α) :
    (batches size items).flatten = items := by
  induction items using batches_induction hsize with
  | hnil => rfl
  | hbatch items hitems ih =>
    rw [batches_of_ne_nil hsize hitems, List.flatten_cons, ih, List.take_append_drop]

theorem mem_of_mem_batches (hsize : 0 < size) {items batch : List α}
    (hbatch : batch ∈ batches size items) {item : α} (hitem : item ∈ batch) : item ∈ items := by
  rw [← flatten_batches hsize items]
  exact List.mem_flatten.mpr ⟨batch, hbatch, hitem⟩

/-- The values under a key. -/
def valuesOf [DecidableEq κ] (key : κ) (pairs : List (κ × α)) : List α :=
  (pairs.filter fun pair ↦ pair.1 = key).map Prod.snd

/-- The values under each key, the keys in the order in which they come first. -/
def grouped [DecidableEq κ] (pairs : List (κ × α)) : List (κ × List α) :=
  (pairs.map Prod.fst).eraseDups.map fun key ↦ (key, valuesOf key pairs)

theorem valuesOf_eq_nil [DecidableEq κ] {key : κ} {pairs : List (κ × α)} :
    valuesOf key pairs = [] ↔ ∀ pair ∈ pairs, pair.1 ≠ key := by
  simp [valuesOf, List.filter_eq_nil_iff]

/-- A list of pairs is empty when no key has a value. -/
theorem eq_nil_iff_valuesOf [DecidableEq κ] {pairs : List (κ × α)} :
    pairs = [] ↔ ∀ key, valuesOf key pairs = [] := by
  refine ⟨fun hnil key ↦ by rw [hnil]; rfl, fun hnone ↦ ?_⟩
  exact List.eq_nil_iff_forall_not_mem.mpr fun pair hpair ↦
    valuesOf_eq_nil.mp (hnone pair.1) pair hpair rfl

theorem valuesOf_append [DecidableEq κ] (key : κ) (first second : List (κ × α)) :
    valuesOf key (first ++ second) = valuesOf key first ++ valuesOf key second := by
  rw [valuesOf, List.filter_append, List.map_append]
  rfl

theorem valuesOf_filterMap [DecidableEq κ] {β : Type*} (key : κ) (read : β → Option (κ × α))
    (rows : List β) : valuesOf key (rows.filterMap read) = rows.filterMap fun row ↦
      (read row).bind fun pair ↦ if pair.1 = key then some pair.2 else none := by
  induction rows with
  | nil => rfl
  | cons row rows ih =>
    cases hread : read row with
    | none => simp [hread, ih]
    | some pair =>
      rw [List.filterMap_cons_some hread, ← List.singleton_append, valuesOf_append, ih]
      by_cases hkey : pair.1 = key <;> simp [hread, hkey, valuesOf]

theorem grouped_eq_nil [DecidableEq κ] {pairs : List (κ × α)} :
    grouped pairs = [] ↔ pairs = [] := by
  constructor
  · intro hnil
    refine List.eq_nil_iff_forall_not_mem.mpr fun pair hpair ↦ ?_
    have hkey : pair.1 ∈ (pairs.map Prod.fst).eraseDups :=
      List.mem_eraseDups.mpr (List.mem_map_of_mem hpair)
    rw [grouped, List.map_eq_nil_iff] at hnil
    rw [hnil] at hkey
    cases hkey
  · rintro rfl
    rfl

/-- Distinct keys are all first ones. -/
theorem eraseDups_eq_self [BEq κ] [LawfulBEq κ] {keys : List κ} (hnodup : keys.Nodup) :
    keys.eraseDups = keys := by
  induction keys with
  | nil => rfl
  | cons key keys ih =>
    obtain ⟨hnot, hrest⟩ := List.nodup_cons.mp hnodup
    have hothers : keys.filter (fun other ↦ !other == key) = keys := by
      refine List.filter_eq_self.mpr fun other hmem ↦ ?_
      have hne : other ≠ key := fun heq ↦ hnot (heq ▸ hmem)
      simpa using hne
    rw [List.eraseDups_cons, hothers, ih hrest]

theorem nodup_eraseDups [BEq κ] [LawfulBEq κ] (keys : List κ) : keys.eraseDups.Nodup := by
  induction hlength : keys.length using Nat.strong_induction_on generalizing keys with
  | _ length ih =>
    cases keys with
    | nil => exact List.nodup_nil
    | cons key keys =>
      rw [List.eraseDups_cons, List.nodup_cons]
      have hshorter : (keys.filter fun other ↦ !other == key).length < length := by
        rw [← hlength, List.length_cons]
        exact Nat.lt_succ_of_le (List.length_filter_le _ _)
      refine ⟨fun hmem ↦ ?_, ih _ hshorter _ rfl⟩
      simpa using (List.mem_filter.mp (List.mem_eraseDups.mp hmem)).2

/-- The keys of groups are distinct. -/
theorem nodup_keys_grouped [DecidableEq κ] (pairs : List (κ × α)) :
    ((grouped pairs).map Prod.fst).Nodup := by
  rw [grouped, List.map_map, show Prod.fst ∘ (fun key ↦ (key, valuesOf key pairs)) = id from rfl,
    List.map_id]
  exact nodup_eraseDups _

/-- The group of a key holds its values, when it has any. -/
theorem find_grouped [DecidableEq κ] (key : κ) (pairs : List (κ × α)) :
    ((grouped pairs).find? fun group ↦ group.1 = key) =
      if valuesOf key pairs = [] then none else some (key, valuesOf key pairs) := by
  split
  next hnil =>
    refine List.find?_eq_none.mpr fun group hgroup ↦ ?_
    obtain ⟨other, hother, rfl⟩ := List.mem_map.mp hgroup
    obtain ⟨pair, hpair, rfl⟩ := List.mem_map.mp (List.mem_eraseDups.mp hother)
    simpa using valuesOf_eq_nil.mp hnil pair hpair
  next hvalues =>
    have hkey : key ∈ (pairs.map Prod.fst).eraseDups := by
      simp only [valuesOf_eq_nil, not_forall, not_not] at hvalues
      obtain ⟨pair, hpair, rfl⟩ := hvalues
      exact List.mem_eraseDups.mpr (List.mem_map_of_mem hpair)
    have hfound : ((grouped pairs).find? fun group ↦ group.1 = key).isSome = true :=
      List.find?_isSome.mpr ⟨_, List.mem_map_of_mem hkey, decide_eq_true rfl⟩
    obtain ⟨group, hgroup⟩ := Option.isSome_iff_exists.mp hfound
    obtain ⟨other, _, rfl⟩ := List.mem_map.mp (List.mem_of_find?_eq_some hgroup)
    have hother := List.find?_some hgroup
    rw [decide_eq_true_eq] at hother
    rw [hgroup, ← hother]

/-- What is in a group stands under its key in the list. -/
theorem mem_grouped [DecidableEq κ] {pairs : List (κ × α)} {group : κ × List α}
    (hgroup : group ∈ grouped pairs) :
    group.2 ≠ [] ∧ ∀ value ∈ group.2, (group.1, value) ∈ pairs := by
  obtain ⟨key, hkey, rfl⟩ := List.mem_map.mp hgroup
  obtain ⟨pair, hpair, rfl⟩ := List.mem_map.mp (List.mem_eraseDups.mp hkey)
  refine ⟨List.ne_nil_of_mem (List.mem_map_of_mem
    (List.mem_filter.mpr ⟨hpair, decide_eq_true rfl⟩)), fun value hvalue ↦ ?_⟩
  obtain ⟨other, hother, rfl⟩ := List.mem_map.mp hvalue
  obtain ⟨hmem, hkey⟩ := List.mem_filter.mp hother
  rwa [← of_decide_eq_true hkey]

end DocStore.Foundation
