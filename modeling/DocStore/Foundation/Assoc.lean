import Mathlib.Data.List.Nodup

/-!
# Association lists as dicts

A dict is the list of its entries in insertion order. `getKey` reads a key, `setKey` assigns one in
place or at the end, `updateKeys` assigns every entry of another dict (which is also what unpacking
two dicts into a new one computes), `popKeys` removes keys and `setDefault` adds one that is not
there. Each operation comes with the lemma that says which keys it leaves alone.
-/

set_option autoImplicit false
set_option relaxedAutoImplicit false

namespace DocStore.Foundation

variable {κ υ : Type*} [DecidableEq κ]

/-- `mapping.get(key)`. -/
def getKey : List (κ × υ) → κ → Option υ
  | [], _ => none
  | entry :: rest, key => if entry.1 = key then some entry.2 else getKey rest key

/-- `mapping[key] = value`. -/
def setKey : List (κ × υ) → κ → υ → List (κ × υ)
  | [], key, value => [(key, value)]
  | entry :: rest, key, value =>
    if entry.1 = key then (key, value) :: rest else entry :: setKey rest key value

/-- `mapping.update(overlay)`, or `{**mapping, **overlay}`. -/
def updateKeys (mapping overlay : List (κ × υ)) : List (κ × υ) :=
  overlay.foldl (fun updated entry ↦ setKey updated entry.1 entry.2) mapping

/-- `mapping.pop(key, None)` for each key. -/
def popKeys (mapping : List (κ × υ)) (keys : List κ) : List (κ × υ) :=
  mapping.filter fun entry ↦ !keys.contains entry.1

@[simp] theorem getKey_setKey_self (mapping : List (κ × υ)) (key : κ) (value : υ) :
    getKey (setKey mapping key value) key = some value := by
  induction mapping with
  | nil => simp [setKey, getKey]
  | cons entry rest ih => by_cases hkey : entry.1 = key <;> simp [setKey, getKey, hkey, ih]

theorem getKey_setKey_of_ne (mapping : List (κ × υ)) {key other : κ} (value : υ)
    (hne : other ≠ key) : getKey (setKey mapping key value) other = getKey mapping other := by
  induction mapping with
  | nil => simp [setKey, getKey, hne.symm]
  | cons entry rest ih =>
    by_cases hkey : entry.1 = key
    · have hentry : entry.1 ≠ other := fun heq ↦ hne (heq.symm.trans hkey)
      simp [setKey, getKey, hkey, hne.symm]
    · simp [setKey, getKey, hkey, ih]

/-- Assigning a key that is not there adds an entry. -/
theorem length_setKey_of_getKey_eq_none {mapping : List (κ × υ)} {key : κ} (value : υ)
    (hnone : getKey mapping key = none) :
    (setKey mapping key value).length = mapping.length + 1 := by
  induction mapping with
  | nil => rfl
  | cons entry rest ih =>
    by_cases hkey : entry.1 = key
    · simp [getKey, hkey] at hnone
    · rw [getKey, if_neg hkey] at hnone
      rw [setKey, if_neg hkey, List.length_cons, ih hnone, List.length_cons]

/-- An update leaves a key alone that its overlay does not have. -/
theorem getKey_updateKeys_of_forall_ne {overlay : List (κ × υ)} {key : κ}
    (hne : ∀ entry ∈ overlay, entry.1 ≠ key) (mapping : List (κ × υ)) :
    getKey (updateKeys mapping overlay) key = getKey mapping key := by
  induction overlay generalizing mapping with
  | nil => rfl
  | cons entry rest ih =>
    have hentry : key ≠ entry.1 := (hne entry (by simp)).symm
    calc getKey (updateKeys mapping (entry :: rest)) key
        = getKey (setKey mapping entry.1 entry.2) key :=
          ih (fun other hother ↦ hne other (List.mem_cons_of_mem _ hother)) _
      _ = getKey mapping key := getKey_setKey_of_ne mapping entry.2 hentry

theorem getKey_eq_none {mapping : List (κ × υ)} {key : κ} :
    getKey mapping key = none ↔ ∀ entry ∈ mapping, entry.1 ≠ key := by
  induction mapping with
  | nil => simp [getKey]
  | cons entry rest ih => by_cases hkey : entry.1 = key <;> simp [getKey, hkey, ih]

/-- Updates with dicts that do not have a key leave it alone. -/
theorem getKey_foldl_updateKeys {overlays : List (List (κ × υ))} {key : κ}
    (habsent : ∀ overlay ∈ overlays, getKey overlay key = none) (mapping : List (κ × υ)) :
    getKey (overlays.foldl updateKeys mapping) key = getKey mapping key := by
  induction overlays generalizing mapping with
  | nil => rfl
  | cons overlay rest ih =>
    rw [List.foldl_cons, ih fun other hother ↦ habsent other (List.mem_cons_of_mem _ hother)]
    exact getKey_updateKeys_of_forall_ne (getKey_eq_none.mp (habsent overlay (by simp))) mapping

/-- A dict without some of its entries still has the keys that are not among those. -/
theorem getKey_filter (keep : κ → Bool) {key : κ} (hkeep : keep key = true)
    (mapping : List (κ × υ)) :
    getKey (mapping.filter fun entry ↦ keep entry.1) key = getKey mapping key := by
  induction mapping with
  | nil => rfl
  | cons entry rest ih =>
    by_cases hentry : entry.1 = key
    · subst hentry
      simp [getKey, hkeep]
    · by_cases hkept : keep entry.1 = true <;> simp [getKey, hentry, hkept, ih]

theorem getKey_popKeys_of_notMem (mapping : List (κ × υ)) {keys : List κ} {key : κ}
    (hkey : key ∉ keys) : getKey (popKeys mapping keys) key = getKey mapping key := by
  have hkeep : (!keys.contains key) = true := by simpa using hkey
  exact getKey_filter (fun other ↦ !keys.contains other) hkeep mapping

theorem getKey_append (first second : List (κ × υ)) (key : κ) :
    getKey (first ++ second) key = (getKey first key).or (getKey second key) := by
  induction first with
  | nil => rfl
  | cons entry rest ih => by_cases hkey : entry.1 = key <;> simp [getKey, hkey, ih]

/-- Changed values are found under the same keys. -/
theorem getKey_mapValues {ω : Type*} (change : κ → υ → ω) (mapping : List (κ × υ)) (key : κ) :
    getKey (mapping.map fun entry ↦ (entry.1, change entry.1 entry.2)) key =
      (getKey mapping key).map (change key) := by
  induction mapping with
  | nil => rfl
  | cons entry rest ih =>
    by_cases hkey : entry.1 = key
    · simp [getKey, hkey]
    · simpa [getKey, hkey] using ih

/-- The last assignment of a key is the one that stays. -/
theorem getKey_updateKeys (mapping overlay : List (κ × υ)) (key : κ) :
    getKey (updateKeys mapping overlay) key =
      (getKey overlay.reverse key).or (getKey mapping key) := by
  induction overlay generalizing mapping with
  | nil => rfl
  | cons entry rest ih =>
    show getKey (updateKeys (setKey mapping entry.1 entry.2) rest) key = _
    rw [ih, List.reverse_cons, getKey_append, Option.or_assoc]
    congr 1
    by_cases hkey : entry.1 = key
    · subst hkey
      simp [getKey]
    · rw [getKey_setKey_of_ne _ _ (Ne.symm hkey)]
      simp [getKey, hkey]

/-- In a dict a key has the value of its entry. -/
theorem getKey_eq_some {mapping : List (κ × υ)} (hnodup : (mapping.map Prod.fst).Nodup) {key : κ}
    {value : υ} : getKey mapping key = some value ↔ (key, value) ∈ mapping := by
  induction mapping with
  | nil => simp [getKey]
  | cons entry rest ih =>
    rw [List.map_cons, List.nodup_cons] at hnodup
    rw [List.mem_cons]
    by_cases hkey : entry.1 = key
    · subst hkey
      have hnot : (entry.1, value) ∉ rest := fun hmem ↦
        hnodup.1 (List.mem_map.mpr ⟨_, hmem, rfl⟩)
      simp only [getKey, if_true, Option.some.injEq, hnot, or_false]
      exact ⟨fun heq ↦ by rw [← heq], fun heq ↦ by rw [← heq]⟩
    · have hne : (key, value) ≠ entry := fun heq ↦ hkey (heq ▸ rfl)
      simp [getKey, hkey, hne, ih hnodup.2]

theorem getKey_reverse {mapping : List (κ × υ)} (hnodup : (mapping.map Prod.fst).Nodup) (key : κ) :
    getKey mapping.reverse key = getKey mapping key := by
  have hreverse : (mapping.reverse.map Prod.fst).Nodup := by
    rwa [List.map_reverse, List.nodup_reverse]
  ext value
  rw [getKey_eq_some hreverse, getKey_eq_some hnodup, List.mem_reverse]

/-- What is in a dict after an assignment. -/
theorem mem_setKey {mapping : List (κ × υ)} {key : κ} {value : υ} {entry : κ × υ}
    (hentry : entry ∈ setKey mapping key value) : entry = (key, value) ∨ entry ∈ mapping := by
  induction mapping with
  | nil => exact Or.inl (by simpa [setKey] using hentry)
  | cons first rest ih =>
    by_cases hkey : first.1 = key
    · rw [setKey, if_pos hkey] at hentry
      exact (List.mem_cons.mp hentry).imp_right (List.mem_cons_of_mem _)
    · rw [setKey, if_neg hkey] at hentry
      rcases List.mem_cons.mp hentry with rfl | hrest
      · exact Or.inr List.mem_cons_self
      · exact (ih hrest).imp_right (List.mem_cons_of_mem _)

theorem mem_map_fst_setKey {mapping : List (κ × υ)} {key other : κ} {value : υ}
    (hother : other ∈ (setKey mapping key value).map Prod.fst) :
    other = key ∨ other ∈ mapping.map Prod.fst := by
  induction mapping with
  | nil => exact Or.inl (by simpa [setKey] using hother)
  | cons entry rest ih =>
    by_cases hkey : entry.1 = key
    · rw [setKey, if_pos hkey] at hother
      exact (List.mem_cons.mp hother).imp_right (List.mem_cons_of_mem _)
    · rw [setKey, if_neg hkey] at hother
      rcases List.mem_cons.mp hother with rfl | hrest
      · exact Or.inr List.mem_cons_self
      · exact (ih hrest).imp_right (List.mem_cons_of_mem _)

/-- Assigning a key keeps the keys distinct. -/
theorem nodup_setKey {mapping : List (κ × υ)} (hnodup : (mapping.map Prod.fst).Nodup) (key : κ)
    (value : υ) : ((setKey mapping key value).map Prod.fst).Nodup := by
  induction mapping with
  | nil => simp [setKey]
  | cons entry rest ih =>
    rw [List.map_cons, List.nodup_cons] at hnodup
    by_cases hkey : entry.1 = key
    · rw [setKey, if_pos hkey]
      exact List.nodup_cons.mpr ⟨hkey ▸ hnodup.1, hnodup.2⟩
    · rw [setKey, if_neg hkey]
      refine List.nodup_cons.mpr ⟨fun hmem ↦ ?_, ih hnodup.2⟩
      rcases mem_map_fst_setKey hmem with heq | hrest
      · exact hkey heq
      · exact hnodup.1 hrest

/-- Updating a dict keeps its keys distinct. -/
theorem nodup_updateKeys {mapping : List (κ × υ)} (hnodup : (mapping.map Prod.fst).Nodup)
    (overlay : List (κ × υ)) : ((updateKeys mapping overlay).map Prod.fst).Nodup := by
  induction overlay generalizing mapping with
  | nil => exact hnodup
  | cons entry rest ih => exact ih (nodup_setKey hnodup entry.1 entry.2)

/-- What a key is found with is an entry of it. -/
theorem mem_of_getKey_eq_some {mapping : List (κ × υ)} {key : κ} {value : υ}
    (hfound : getKey mapping key = some value) : (key, value) ∈ mapping := by
  induction mapping with
  | nil => cases hfound
  | cons entry rest ih =>
    by_cases hkey : entry.1 = key
    · rw [getKey, if_pos hkey, Option.some.injEq] at hfound
      exact hkey ▸ hfound ▸ List.mem_cons_self
    · rw [getKey, if_neg hkey] at hfound
      exact List.mem_cons_of_mem _ (ih hfound)

/-- A dict that is made of entries with one value for each key has just these entries. -/
theorem mem_updateKeys_nil {overlay : List (κ × υ)}
    (hvalues : ∀ first ∈ overlay, ∀ second ∈ overlay, first.1 = second.1 → first = second)
    {entry : κ × υ} : entry ∈ updateKeys [] overlay ↔ entry ∈ overlay := by
  obtain ⟨key, value⟩ := entry
  have hnodup : ((updateKeys [] overlay).map Prod.fst).Nodup :=
    nodup_updateKeys (by simp) overlay
  rw [← getKey_eq_some hnodup, getKey_updateKeys]
  constructor
  · intro hfound
    rw [getKey, Option.or_none] at hfound
    exact List.mem_reverse.mp (mem_of_getKey_eq_some hfound)
  · intro hentry
    cases hfound : getKey overlay.reverse key with
    | none => exact absurd rfl (getKey_eq_none.mp hfound _ (List.mem_reverse.mpr hentry))
    | some other =>
      have hother := List.mem_reverse.mp (mem_of_getKey_eq_some hfound)
      exact congrArg some (congrArg Prod.snd (hvalues _ hother _ hentry rfl))

/-- Where two dicts agree on a key, they agree on it after the same update; on the keys of the update
they do in any case. -/
theorem getKey_updateKeys_congr {mapping other overlay : List (κ × υ)} {key : κ}
    (hagree : key ∉ overlay.map Prod.fst → getKey mapping key = getKey other key) :
    getKey (updateKeys mapping overlay) key = getKey (updateKeys other overlay) key := by
  rw [getKey_updateKeys, getKey_updateKeys]
  cases hfound : getKey overlay.reverse key with
  | some value => rfl
  | none =>
    have hnot : key ∉ overlay.map Prod.fst := by
      intro hmem
      obtain ⟨entry, hentry, hkey⟩ := List.mem_map.mp hmem
      exact getKey_eq_none.mp hfound entry (List.mem_reverse.mpr hentry) hkey
    rw [Option.none_or, Option.none_or, hagree hnot]

/-- After an update with a dict, a key has the value that the dict gives it, or else the old one. -/
theorem getKey_updateKeys_of_nodup {overlay : List (κ × υ)}
    (hnodup : (overlay.map Prod.fst).Nodup) (mapping : List (κ × υ)) (key : κ) :
    getKey (updateKeys mapping overlay) key = (getKey overlay key).or (getKey mapping key) := by
  rw [getKey_updateKeys, getKey_reverse hnodup]

/-! ### Defaults -/

/-- `mapping.setdefault(key, value)`. -/
def setDefault (mapping : List (κ × υ)) (entry : κ × υ) : List (κ × υ) :=
  if (getKey mapping entry.1).isSome then mapping else mapping ++ [entry]

/-- Defaults add the entries whose keys are not there. -/
theorem foldl_setDefault {defaults : List (κ × υ)} (hnodup : (defaults.map Prod.fst).Nodup)
    (mapping : List (κ × υ)) :
    defaults.foldl setDefault mapping =
      mapping ++ defaults.filter fun entry ↦ (getKey mapping entry.1).isNone := by
  induction defaults generalizing mapping with
  | nil => simp
  | cons entry rest ih =>
    rw [List.map_cons, List.nodup_cons] at hnodup
    rw [List.foldl_cons, ih hnodup.2]
    cases hthere : getKey mapping entry.1 with
    | some value => simp [setDefault, hthere]
    | none =>
      have hrest : ∀ other ∈ rest, (getKey (mapping ++ [entry]) other.1).isNone =
          (getKey mapping other.1).isNone := by
        intro other hother
        have hne : entry.1 ≠ other.1 := fun heq ↦ hnodup.1 (heq ▸ List.mem_map_of_mem hother)
        rw [getKey_append]
        simp [getKey, hne]
      rw [setDefault, hthere, List.filter_cons]
      simp only [Option.isSome_none, Bool.false_eq_true, if_false, hthere, Option.isNone_none,
        if_true]
      rw [List.filter_congr hrest, List.append_assoc, List.singleton_append]

end DocStore.Foundation
