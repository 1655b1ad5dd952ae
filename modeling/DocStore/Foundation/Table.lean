import Mathlib.Data.List.Nodup
import Mathlib.Data.List.Perm.Basic

/-!
# Tables as lists of rows

A table is the list of its rows, with a key that no two rows share. `updateWhere` and
`deleteWhere` are the row-wise statements, `insertNew` an insertion that a row with the same key
refuses, `upsert` an insertion that rewrites such a row instead, and `lookup` the selection by
key. The lemmas say what each statement does to membership, to lookups and to the uniqueness of
the keys; a statement that keeps the key of every row keeps everything that is said through
keys.
-/

set_option autoImplicit false
set_option relaxedAutoImplicit false

namespace DocStore.Foundation

variable {ρ κ : Type*}

/-! ### Row-wise statements -/

/-- Rewrites the selected rows and keeps the others. -/
def updateWhere (selected : ρ → Bool) (change : ρ → ρ) (rows : List ρ) : List ρ :=
  rows.map fun row ↦ if selected row then change row else row

/-- Removes the selected rows. -/
def deleteWhere (selected : ρ → Bool) (rows : List ρ) : List ρ := rows.filter fun row ↦ !selected row

theorem mem_updateWhere {selected : ρ → Bool} {change : ρ → ρ} {rows : List ρ} {row : ρ} :
    row ∈ updateWhere selected change rows ↔
      ∃ old ∈ rows, row = if selected old then change old else old := by
  simp only [updateWhere, List.mem_map, eq_comm]

/-- What a change keeps holds of every row after an update. -/
theorem forall_mem_updateWhere {selected : ρ → Bool} {change : ρ → ρ} {rows : List ρ}
    {kept : ρ → Prop} (hkeep : ∀ row, kept row → kept (change row))
    (hrows : ∀ row ∈ rows, kept row) : ∀ row ∈ updateWhere selected change rows, kept row := by
  intro row hmem
  obtain ⟨old, hold, rfl⟩ := mem_updateWhere.mp hmem
  split
  · exact hkeep old (hrows old hold)
  · exact hrows old hold

/-- What held of every row holds after an update just when the change gives it to the selected
rows. -/
theorem forall_mem_updateWhere_iff {selected : ρ → Bool} {change : ρ → ρ} {rows : List ρ}
    {kept : ρ → Prop} (hrows : ∀ row ∈ rows, kept row) :
    (∀ row ∈ updateWhere selected change rows, kept row) ↔
      ∀ row ∈ rows, selected row = true → kept (change row) := by
  constructor
  · intro hupdated row hmem hselected
    exact hupdated _ (mem_updateWhere.mpr ⟨row, hmem, (if_pos hselected).symm⟩)
  · intro hchanged row hmem
    obtain ⟨old, hold, rfl⟩ := mem_updateWhere.mp hmem
    split
    next hselected => exact hchanged old hold hselected
    next => exact hrows old hold

/-- A row that is not selected survives an update. -/
theorem mem_updateWhere_of_not {selected : ρ → Bool} {change : ρ → ρ} {rows : List ρ} {row : ρ}
    (hmem : row ∈ rows) (hnot : selected row = false) : row ∈ updateWhere selected change rows :=
  mem_updateWhere.mpr ⟨row, hmem, by simp [hnot]⟩

@[simp] theorem mem_deleteWhere {selected : ρ → Bool} {rows : List ρ} {row : ρ} :
    row ∈ deleteWhere selected rows ↔ row ∈ rows ∧ selected row = false := by
  simp [deleteWhere]

@[simp] theorem updateWhere_append (selected : ρ → Bool) (change : ρ → ρ) (first second : List ρ) :
    updateWhere selected change (first ++ second) =
      updateWhere selected change first ++ updateWhere selected change second := by
  simp [updateWhere]

@[simp] theorem updateWhere_nil (selected : ρ → Bool) (change : ρ → ρ) :
    updateWhere selected change [] = [] :=
  rfl

/-- An update that selects nothing changes nothing. -/
theorem updateWhere_of_forall_not {selected : ρ → Bool} {change : ρ → ρ} {rows : List ρ}
    (hnone : ∀ row ∈ rows, selected row = false) : updateWhere selected change rows = rows := by
  have hmap : ∀ row ∈ rows, (if selected row then change row else row) = row := by
    intro row hmem
    simp [hnone row hmem]
  rw [updateWhere, List.map_congr_left hmap, List.map_id']

/-- An update changes nothing when the selected rows are as it makes them. -/
theorem updateWhere_eq_self {selected : ρ → Bool} {change : ρ → ρ} {rows : List ρ} :
    updateWhere selected change rows = rows ↔
      ∀ row ∈ rows, selected row = true → change row = row := by
  nth_rewrite 2 [← List.map_id rows]
  rw [updateWhere, List.map_inj_left]
  refine forall₂_congr fun row _ ↦ ?_
  split
  next hselected => exact ⟨fun hsame _ ↦ hsame, fun hsame ↦ hsame hselected⟩
  next hnot => exact ⟨fun _ hselected ↦ absurd hselected hnot, fun _ ↦ rfl⟩

/-- Two updates of the same rows are one. -/
theorem updateWhere_updateWhere {selected : ρ → Bool} {first second : ρ → ρ}
    (hkeep : ∀ row, selected row = true → selected (first row) = true) (rows : List ρ) :
    updateWhere selected second (updateWhere selected first rows) =
      updateWhere selected (fun row ↦ second (first row)) rows := by
  rw [updateWhere, updateWhere, updateWhere, List.map_map]
  refine List.map_congr_left fun row _ ↦ ?_
  by_cases hselected : selected row = true
  · simp [hselected, hkeep row hselected]
  · simp [hselected]

/-- Any reading that the change keeps of the selected rows is read off the same after an update. -/
theorem map_updateWhere_of_mem {β : Type*} {selected : ρ → Bool} {change : ρ → ρ} {read : ρ → β}
    {rows : List ρ} (hkeep : ∀ row ∈ rows, selected row = true → read (change row) = read row) :
    (updateWhere selected change rows).map read = rows.map read := by
  rw [updateWhere, List.map_map]
  refine List.map_congr_left fun row hmem ↦ ?_
  by_cases hselected : selected row
  · simp [hselected, hkeep row hmem hselected]
  · simp [hselected]

theorem map_updateWhere_of_selected {β : Type*} {selected : ρ → Bool} {change : ρ → ρ}
    {read : ρ → β} (hkeep : ∀ row, selected row = true → read (change row) = read row)
    (rows : List ρ) : (updateWhere selected change rows).map read = rows.map read :=
  map_updateWhere_of_mem fun row _ ↦ hkeep row

theorem map_updateWhere {β : Type*} {selected : ρ → Bool} {change : ρ → ρ} {read : ρ → β}
    (hkeep : ∀ row, read (change row) = read row) (rows : List ρ) :
    (updateWhere selected change rows).map read = rows.map read :=
  map_updateWhere_of_selected (fun row _ ↦ hkeep row) rows

/-- Filtering by a condition that the change keeps commutes with an update. -/
theorem filter_updateWhere {selected condition : ρ → Bool} {change : ρ → ρ}
    (hkeep : ∀ row, condition (change row) = condition row) (rows : List ρ) :
    (updateWhere selected change rows).filter condition =
      updateWhere selected change (rows.filter condition) := by
  induction rows with
  | nil => rfl
  | cons row rest ih =>
    by_cases hselected : selected row <;> by_cases hcondition : condition row <;>
      simp_all [updateWhere]

/-- A rewriting that touches no row which a condition asks for keeps what the condition finds. -/
theorem filter_map_eq {condition : ρ → Bool} {rewrite : ρ → ρ} {rows : List ρ}
    (hkeep : ∀ row ∈ rows, rewrite row = row ∨
      condition row = false ∧ condition (rewrite row) = false) :
    (rows.map rewrite).filter condition = rows.filter condition := by
  induction rows with
  | nil => rfl
  | cons row rest ih =>
    have hrest := ih fun other hother ↦ hkeep other (List.mem_cons_of_mem _ hother)
    rcases hkeep row (by simp) with hsame | ⟨hbefore, hafter⟩
    · rw [List.map_cons, hsame, List.filter_cons, List.filter_cons, hrest]
    · rw [List.map_cons, List.filter_cons_of_neg (by simp [hafter]),
        List.filter_cons_of_neg (by simp [hbefore]), hrest]

theorem filter_updateWhere_of_not {selected condition : ρ → Bool} {change : ρ → ρ} {rows : List ρ}
    (hnot : ∀ row ∈ rows, selected row = true → condition row = false ∧ condition (change row) = false) :
    (updateWhere selected change rows).filter condition = rows.filter condition := by
  refine filter_map_eq fun row hmem ↦ ?_
  by_cases hselected : selected row
  · simp only [hselected, if_true]
    exact Or.inr (hnot row hmem hselected)
  · exact Or.inl (if_neg hselected)

/-- A join that keeps the key of a row keeps the keys in their order. -/
theorem map_filterMap_sublist {σ κ : Type*} {key : ρ → κ} {read : σ → κ} {join : ρ → Option σ}
    (hkey : ∀ {row : ρ} {joined : σ}, join row = some joined → read joined = key row)
    (rows : List ρ) : ((rows.filterMap join).map read).Sublist (rows.map key) := by
  induction rows with
  | nil => exact List.Sublist.refl _
  | cons row rows ih =>
    cases hjoin : join row with
    | none =>
      rw [List.filterMap_cons_none hjoin, List.map_cons]
      exact ih.cons _
    | some joined =>
      rw [List.filterMap_cons_some hjoin, List.map_cons, List.map_cons, hkey hjoin]
      exact ih.cons_cons _

/-- An update that gives every selected row one value, read off rows that are all selected. -/
theorem map_filter_updateWhere {β : Type*} {selected condition : ρ → Bool} {change : ρ → ρ}
    {read : ρ → β} {value : β} (hkeep : ∀ row, condition (change row) = condition row)
    (hselected : ∀ row, condition row = true → selected row = true)
    (hread : ∀ row, read (change row) = value) (rows : List ρ) :
    ((updateWhere selected change rows).filter condition).map read =
      (rows.filter condition).map fun _ ↦ value := by
  rw [filter_updateWhere hkeep, updateWhere, List.map_map]
  refine List.map_congr_left fun row hrow ↦ ?_
  rw [Function.comp_apply, if_pos (hselected row (List.mem_filter.mp hrow).2), hread]

/-! ### Keys -/

section Keys

variable [DecidableEq κ] (key : ρ → κ)

/-- The row with a key, when there is one. -/
def lookup (wanted : κ) (rows : List ρ) : Option ρ := rows.find? fun row ↦ key row = wanted

/-- Whether some row carries a key. -/
def hasKey (wanted : κ) (rows : List ρ) : Bool := rows.any fun row ↦ key row = wanted

/-- Appends a row unless its key is taken. -/
def insertNew (row : ρ) (rows : List ρ) : Option (List ρ) :=
  if hasKey key (key row) rows then none else some (rows ++ [row])

/-- Appends a row, or applies `onConflict` to the row that already carries its key. -/
def upsert (row : ρ) (onConflict : ρ → ρ) (rows : List ρ) : List ρ :=
  if hasKey key (key row) rows then updateWhere (fun old ↦ key old = key row) onConflict rows
  else rows ++ [row]

/-- Appends some rows, or replaces the rows that already carry their keys. -/
def upsertAll (new rows : List ρ) : List ρ :=
  new.foldl (fun rows row ↦ upsert key row (fun _ ↦ row) rows) rows

variable {key}

@[simp] theorem hasKey_eq_true {wanted : κ} {rows : List ρ} :
    hasKey key wanted rows = true ↔ ∃ row ∈ rows, key row = wanted := by
  simp [hasKey]

@[simp] theorem hasKey_eq_false {wanted : κ} {rows : List ρ} :
    hasKey key wanted rows = false ↔ ∀ row ∈ rows, key row ≠ wanted := by
  simp [hasKey]

theorem lookup_eq_none {wanted : κ} {rows : List ρ} :
    lookup key wanted rows = none ↔ ∀ row ∈ rows, key row ≠ wanted := by
  simp [lookup]

theorem mem_of_lookup {wanted : κ} {rows : List ρ} {row : ρ}
    (hfound : lookup key wanted rows = some row) : row ∈ rows ∧ key row = wanted :=
  ⟨List.mem_of_find?_eq_some hfound, by simpa using List.find?_some hfound⟩

/-- When the keys are distinct, a lookup finds a row exactly when it is there under that key. -/
theorem lookup_eq_some {wanted : κ} {rows : List ρ} (hnodup : (rows.map key).Nodup) {row : ρ} :
    lookup key wanted rows = some row ↔ row ∈ rows ∧ key row = wanted := by
  constructor
  · exact mem_of_lookup
  · rintro ⟨hmem, rfl⟩
    cases hfound : lookup key (key row) rows with
    | none => exact absurd rfl (lookup_eq_none.mp hfound row hmem)
    | some other =>
      obtain ⟨hother, hkey⟩ := mem_of_lookup hfound
      rw [List.inj_on_of_nodup_map hnodup hother hmem hkey]

/-- Without repeated keys the order of the rows does not matter. -/
theorem lookup_reverse {rows : List ρ} (hnodup : (rows.map key).Nodup) (wanted : κ) :
    lookup key wanted rows.reverse = lookup key wanted rows := by
  have hreverse : (rows.reverse.map key).Nodup := by
    rwa [List.map_reverse, List.nodup_reverse]
  ext row
  rw [lookup_eq_some hreverse, lookup_eq_some hnodup, List.mem_reverse]

theorem lookup_append (wanted : κ) (first second : List ρ) :
    lookup key wanted (first ++ second) =
      (lookup key wanted first).or (lookup key wanted second) := by
  simp [lookup, List.find?_append]

/-- A lookup past rows that do not carry the key. -/
theorem lookup_append_of_forall_ne {wanted : κ} {first second : List ρ}
    (hne : ∀ row ∈ first, key row ≠ wanted) :
    lookup key wanted (first ++ second) = lookup key wanted second := by
  rw [lookup_append, lookup_eq_none.mpr hne, Option.none_or]

/-- A row that was appended under a new key is found. -/
theorem lookup_append_of_mem {first second : List ρ} (hnodup : (second.map key).Nodup) {row : ρ}
    (hmem : row ∈ second) (hne : ∀ old ∈ first, key old ≠ key row) :
    lookup key (key row) (first ++ second) = some row := by
  rw [lookup_append_of_forall_ne hne]
  exact (lookup_eq_some hnodup).mpr ⟨hmem, rfl⟩

/-- An update that keeps keys is looked up through. -/
theorem lookup_updateWhere {selected : ρ → Bool} {change : ρ → ρ}
    (hkeep : ∀ row, key (change row) = key row) (wanted : κ) (rows : List ρ) :
    lookup key wanted (updateWhere selected change rows) =
      (lookup key wanted rows).map fun row ↦ if selected row then change row else row := by
  induction rows with
  | nil => rfl
  | cons row rest ih =>
    have hrow : key (if selected row then change row else row) = key row := by
      by_cases hselected : selected row <;> simp [hselected, hkeep]
    by_cases hkey : key row = wanted
    · simp [lookup, updateWhere, hrow, hkey]
    · simpa [lookup, updateWhere, hrow, hkey] using ih

/-- The first row with a key is found changed after an update of the rows with that key. -/
theorem lookup_updateWhere_self {change : ρ → ρ} {wanted : κ} {rows : List ρ} {row : ρ}
    (hkeep : ∀ old, key old = wanted → key (change old) = wanted)
    (hfound : lookup key wanted rows = some row) :
    lookup key wanted (updateWhere (fun old ↦ key old = wanted) change rows) =
      some (change row) := by
  induction rows with
  | nil => cases hfound
  | cons first rest ih =>
    by_cases hkey : key first = wanted
    · obtain rfl : first = row := by simpa [lookup, hkey] using hfound
      simp [lookup, updateWhere, hkey, hkeep first hkey]
    · have hrest := ih (by simpa [lookup, hkey] using hfound)
      simpa [lookup, updateWhere, hkey] using hrest

/-- Rows under other keys are looked up through an update of the rows with a key. -/
theorem lookup_updateWhere_of_ne {change : ρ → ρ} {wanted updated : κ} (rows : List ρ)
    (hkeep : ∀ old, key old = updated → key (change old) = updated) (hne : wanted ≠ updated) :
    lookup key wanted (updateWhere (fun old ↦ key old = updated) change rows) =
      lookup key wanted rows := by
  induction rows with
  | nil => rfl
  | cons first rest ih =>
    by_cases hkey : key first = updated
    · simpa [lookup, updateWhere, hkey, hkeep first hkey, hne.symm] using ih
    · by_cases hwanted : key first = wanted
      · simp [lookup, updateWhere, hwanted, hne]
      · simpa [lookup, updateWhere, hkey, hwanted] using ih

omit [DecidableEq κ] in
/-- A condition that only the key of one row meets finds that row. -/
theorem filter_eq_singleton {rows : List ρ} (hnodup : (rows.map key).Nodup) {row : ρ}
    (hmem : row ∈ rows) {condition : ρ → Bool}
    (hiff : ∀ other ∈ rows, condition other = true ↔ key other = key row) :
    rows.filter condition = [row] := by
  induction rows with
  | nil => cases hmem
  | cons first rest ih =>
    rw [List.map_cons, List.nodup_cons] at hnodup
    have hrest := fun other hother ↦ hiff other (List.mem_cons_of_mem first hother)
    rcases List.mem_cons.mp hmem with rfl | hmem
    · have hnone : rest.filter condition = [] := by
        refine List.filter_eq_nil_iff.mpr fun other hother hcondition ↦ hnodup.1 ?_
        exact (hrest other hother).mp hcondition ▸ List.mem_map_of_mem hother
      rw [List.filter_cons_of_pos ((hiff row (by simp)).mpr rfl), hnone]
    · have hfirst : ¬condition first = true := fun hcondition ↦ hnodup.1 <|
        (hiff first (by simp)).mp hcondition ▸ List.mem_map_of_mem hmem
      rw [List.filter_cons_of_neg hfirst]
      exact ih hnodup.2 hmem hrest

/-- A row is the only one with its key. -/
theorem filter_key_eq_singleton {rows : List ρ} (hnodup : (rows.map key).Nodup) {row : ρ}
    (hmem : row ∈ rows) : rows.filter (fun other ↦ key other = key row) = [row] :=
  filter_eq_singleton hnodup hmem fun _ _ ↦ decide_eq_true_iff

/-- An upsert that replaces leaves its row. -/
theorem mem_upsert_self (row : ρ) (rows : List ρ) :
    row ∈ upsert key row (fun _ ↦ row) rows := by
  unfold upsert
  by_cases htaken : hasKey key (key row) rows
  · obtain ⟨old, hmem, hkey⟩ := hasKey_eq_true.mp htaken
    rw [if_pos htaken, mem_updateWhere]
    exact ⟨old, hmem, by simp [hkey]⟩
  · simp [htaken]

/-- An upsert leaves the new row and the rows under other keys. -/
theorem mem_upsert_iff {row other : ρ} {rows : List ρ} :
    other ∈ upsert key row (fun _ ↦ row) rows ↔
      other = row ∨ other ∈ rows ∧ key other ≠ key row := by
  constructor
  · intro hmem
    unfold upsert at hmem
    split at hmem
    · obtain ⟨old, hold, rfl⟩ := mem_updateWhere.mp hmem
      by_cases hselected : key old = key row
      · exact .inl (by simp [hselected])
      · exact .inr (by simpa [hselected] using hold)
    next hfree =>
      rw [Bool.not_eq_true, hasKey_eq_false] at hfree
      rcases List.mem_append.mp hmem with hold | hnew
      · exact .inr ⟨hold, hfree other hold⟩
      · exact .inl (List.mem_singleton.mp hnew)
  · rintro (rfl | ⟨hmem, hother⟩)
    · exact mem_upsert_self other rows
    · unfold upsert
      split
      · exact mem_updateWhere_of_not hmem (by simpa using hother)
      · exact List.mem_append_left _ hmem

theorem mem_upsert {row other : ρ} {rows : List ρ}
    (hmem : other ∈ upsert key row (fun _ ↦ row) rows) : other = row ∨ other ∈ rows :=
  (mem_upsert_iff.mp hmem).imp_right And.left

/-- An upsert changes nothing when the row is there as it makes it. -/
theorem upsert_eq_self {row : ρ} {onConflict : ρ → ρ} {rows : List ρ} :
    upsert key row onConflict rows = rows ↔
      hasKey key (key row) rows = true ∧ ∀ old ∈ rows, key old = key row → onConflict old = old := by
  rw [upsert]
  split
  next hfound =>
    simp only [updateWhere_eq_self, hfound, decide_eq_true_eq, true_and]
  next hnot => simp [hnot]

/-- An upsert leaves the rows with other keys alone. -/
theorem filter_upsert_of_ne {row : ρ} {onConflict : ρ → ρ} {wanted : κ} (hne : wanted ≠ key row)
    (hkeep : ∀ old, key old = key row → key (onConflict old) = key row) (rows : List ρ) :
    (upsert key row onConflict rows).filter (fun other ↦ key other = wanted) =
      rows.filter fun other ↦ key other = wanted := by
  unfold upsert
  split
  · refine filter_updateWhere_of_not fun old _ hselected ↦ ?_
    have hold : key old = key row := of_decide_eq_true hselected
    simp [hold, hkeep old hold, hne.symm]
  · simp [List.filter_append, hne.symm]

/-- What is looked up after an upsert. -/
theorem lookup_upsert {row : ρ} {onConflict : ρ → ρ}
    (hkeep : ∀ old, key old = key row → key (onConflict old) = key row) (rows : List ρ)
    (wanted : κ) : lookup key wanted (upsert key row onConflict rows) =
      if wanted = key row then some ((lookup key wanted rows).elim row onConflict)
      else lookup key wanted rows := by
  unfold upsert
  by_cases hwanted : wanted = key row
  · subst hwanted
    rw [if_pos rfl]
    cases hfound : lookup key (key row) rows with
    | none =>
      have hfree := hasKey_eq_false.mpr (lookup_eq_none.mp hfound)
      rw [if_neg (by simp [hfree]), lookup_append, hfound, Option.none_or]
      simp [lookup]
    | some old =>
      rw [if_pos (hasKey_eq_true.mpr ⟨old, mem_of_lookup hfound⟩)]
      exact lookup_updateWhere_self hkeep hfound
  · rw [if_neg hwanted]
    split
    · exact lookup_updateWhere_of_ne rows hkeep hwanted
    · have hother : lookup key wanted [row] = none :=
        lookup_eq_none.mpr (List.forall_mem_singleton.mpr (Ne.symm hwanted))
      rw [lookup_append, hother, Option.or_none]

/-- An upsert leaves what is found under another key. -/
theorem lookup_upsert_of_ne {row : ρ} {wanted : κ} (hne : wanted ≠ key row) (rows : List ρ) :
    lookup key wanted (upsert key row (fun _ ↦ row) rows) = lookup key wanted rows := by
  rw [lookup_upsert (fun _ _ ↦ rfl), if_neg hne]

/-- An upsert that replaces is found. -/
theorem lookup_upsert_self (row : ρ) (rows : List ρ) :
    lookup key (key row) (upsert key row (fun _ ↦ row) rows) = some row := by
  rw [lookup_upsert (fun _ _ ↦ rfl), if_pos rfl]
  cases lookup key (key row) rows <;> rfl

/-- Upserts leave the old rows under other keys, and only those. -/
theorem mem_upsertAll_of_not {new rows : List ρ} {row : ρ} (hmem : row ∈ rows)
    (hother : ∀ replacing ∈ new, key row ≠ key replacing) : row ∈ upsertAll key new rows := by
  induction new generalizing rows with
  | nil => exact hmem
  | cons first rest ih =>
    rw [List.forall_mem_cons] at hother
    exact ih (mem_upsert_iff.mpr (.inr ⟨hmem, hother.1⟩)) hother.2

theorem mem_or_of_mem_upsertAll {new rows : List ρ} {row : ρ}
    (hmem : row ∈ upsertAll key new rows) :
    row ∈ new ∨ row ∈ rows ∧ ∀ replacing ∈ new, key row ≠ key replacing := by
  induction new generalizing rows with
  | nil => exact .inr ⟨hmem, by simp⟩
  | cons first rest ih =>
    rcases ih hmem with hrest | ⟨hupserted, hothers⟩
    · exact .inl (List.mem_cons_of_mem _ hrest)
    · rcases mem_upsert_iff.mp hupserted with rfl | ⟨hold, hother⟩
      · exact .inl List.mem_cons_self
      · exact .inr ⟨hold, List.forall_mem_cons.mpr ⟨hother, hothers⟩⟩

/-- Upserts put the new rows in, and no others. -/
theorem mem_of_mem_upsertAll {new rows : List ρ} {row : ρ} (hmem : row ∈ upsertAll key new rows) :
    row ∈ new ∨ row ∈ rows :=
  (mem_or_of_mem_upsertAll hmem).imp_right And.left

/-- The last of some upserts under a key is the one that is found. -/
theorem lookup_upsertAll (new rows : List ρ) (wanted : κ) :
    lookup key wanted (upsertAll key new rows) =
      (lookup key wanted new.reverse).or (lookup key wanted rows) := by
  induction new generalizing rows with
  | nil => rfl
  | cons row rest ih =>
    show lookup key wanted (upsertAll key rest (upsert key row (fun _ ↦ row) rows)) = _
    rw [ih, List.reverse_cons, lookup_append, Option.or_assoc]
    congr 1
    by_cases hkey : wanted = key row
    · subst hkey
      rw [lookup_upsert_self]
      simp [lookup]
    · rw [lookup_upsert_of_ne hkey]
      simp [lookup, Ne.symm hkey]

/-- An upsert that keeps what is there is looked up behind it. -/
theorem lookup_upsert_keep (row : ρ) (rows : List ρ) (wanted : κ) :
    lookup key wanted (upsert key row id rows) =
      (lookup key wanted rows).or (if key row = wanted then some row else none) := by
  unfold upsert
  by_cases htaken : hasKey key (key row) rows
  · have hsame : updateWhere (fun old ↦ key old = key row) id rows = rows := by simp [updateWhere]
    rw [if_pos htaken, hsame]
    split
    next hwanted =>
      cases hfound : lookup key wanted rows with
      | some old => rw [Option.some_or]
      | none =>
        obtain ⟨old, hmem, hkey⟩ := hasKey_eq_true.mp htaken
        exact absurd (hkey.trans hwanted) (lookup_eq_none.mp hfound old hmem)
    next => rw [Option.or_none]
  · rw [if_neg htaken, lookup_append]
    congr 1
    by_cases hwanted : key row = wanted <;> simp [lookup, hwanted]

theorem insertNew_eq_some {row : ρ} {rows inserted : List ρ} :
    insertNew key row rows = some inserted ↔
      (∀ old ∈ rows, key old ≠ key row) ∧ inserted = rows ++ [row] := by
  unfold insertNew
  by_cases htaken : hasKey key (key row) rows
  · obtain ⟨old, hmem, hkey⟩ := hasKey_eq_true.mp htaken
    simp only [htaken, if_true, reduceCtorEq, false_iff, not_and]
    exact fun hfree ↦ absurd hkey (hfree old hmem)
  · have hfree := hasKey_eq_false.mp (Bool.eq_false_iff.mpr htaken)
    simp only [htaken, Bool.false_eq_true, if_false, Option.some.injEq]
    exact ⟨fun heq ↦ ⟨hfree, heq.symm⟩, fun h ↦ h.2.symm⟩

omit [DecidableEq κ] in
/-- Keys stay distinct when a row with a new key is appended. -/
theorem nodup_map_append_singleton {row : ρ} {rows : List ρ} (hnodup : (rows.map key).Nodup)
    (hfree : ∀ old ∈ rows, key old ≠ key row) : ((rows ++ [row]).map key).Nodup := by
  rw [List.map_append, List.nodup_append]
  refine ⟨hnodup, by simp, ?_⟩
  intro first hfirst second hsecond heq
  obtain ⟨old, hmem, rfl⟩ := List.mem_map.mp hfirst
  simp only [List.map_cons, List.map_nil, List.mem_singleton] at hsecond
  exact hfree old hmem (heq.trans hsecond)

omit [DecidableEq κ] in
theorem nodup_map_updateWhere {selected : ρ → Bool} {change : ρ → ρ} {rows : List ρ}
    (hkeep : ∀ row, key (change row) = key row) (hnodup : (rows.map key).Nodup) :
    ((updateWhere selected change rows).map key).Nodup := by
  rwa [map_updateWhere hkeep]

omit [DecidableEq κ] in
theorem nodup_map_deleteWhere {selected : ρ → Bool} {rows : List ρ}
    (hnodup : (rows.map key).Nodup) : ((deleteWhere selected rows).map key).Nodup :=
  (List.filter_sublist.map key).nodup hnodup

theorem nodup_map_upsert {row : ρ} {onConflict : ρ → ρ} {rows : List ρ}
    (hkeep : ∀ old, key old = key row → key (onConflict old) = key row)
    (hnodup : (rows.map key).Nodup) : ((upsert key row onConflict rows).map key).Nodup := by
  unfold upsert
  by_cases htaken : hasKey key (key row) rows
  · rw [if_pos htaken, map_updateWhere_of_selected fun old hselected ↦ ?_]
    · exact hnodup
    · have hold : key old = key row := of_decide_eq_true hselected
      rw [hkeep old hold, hold]
  · rw [if_neg htaken]
    exact nodup_map_append_singleton hnodup (hasKey_eq_false.mp (Bool.eq_false_iff.mpr htaken))

end Keys

/-! ### The rows around a row -/

section Around

variable {ρ κ β : Type*} [DecidableEq κ] {key : ρ → κ} {rows : List ρ} {row : ρ}

/-- The rows in front of a row and those behind it, when the keys are distinct. -/
theorem eq_around (hnodup : (rows.map key).Nodup) (hmem : row ∈ rows) :
    rows = rows.takeWhile (fun other ↦ key other ≠ key row) ++ row ::
        (rows.dropWhile fun other ↦ key other ≠ key row).tail ∧
      (∀ other ∈ rows.takeWhile (fun other ↦ key other ≠ key row), key other ≠ key row) ∧
      ∀ other ∈ (rows.dropWhile fun other ↦ key other ≠ key row).tail, key other ≠ key row := by
  induction rows with
  | nil => cases hmem
  | cons first rest ih =>
    rw [List.map_cons, List.nodup_cons] at hnodup
    by_cases hkey : key first = key row
    · have hrow : row = first := by
        rcases List.mem_cons.mp hmem with heq | hrest
        · exact heq
        · exact absurd (hkey ▸ List.mem_map_of_mem hrest) hnodup.1
      subst hrow
      simp only [ne_eq, not_true_eq_false, decide_false, Bool.false_eq_true, not_false_eq_true,
        List.takeWhile_cons_of_neg, List.dropWhile_cons_of_neg, List.tail_cons, List.nil_append,
        List.not_mem_nil, false_implies, implies_true, true_and]
      exact fun other hother heq ↦ hnodup.1 (heq ▸ List.mem_map_of_mem hother)
    · have hrest : row ∈ rest := by
        rcases List.mem_cons.mp hmem with heq | hrest
        · exact absurd (congrArg key heq.symm) hkey
        · exact hrest
      obtain ⟨heq, hbefore, hafter⟩ := ih hnodup.2 hrest
      have htake : (first :: rest).takeWhile (fun other ↦ key other ≠ key row) =
          first :: rest.takeWhile fun other ↦ key other ≠ key row :=
        List.takeWhile_cons_of_pos (decide_eq_true hkey)
      have hdrop : (first :: rest).dropWhile (fun other ↦ key other ≠ key row) =
          rest.dropWhile fun other ↦ key other ≠ key row :=
        List.dropWhile_cons_of_pos (decide_eq_true hkey)
      rw [htake, hdrop]
      exact ⟨congrArg (List.cons first) heq, List.forall_mem_cons.mpr ⟨hkey, hbefore⟩, hafter⟩

/-- What is read of the rows, around the one row of a key. -/
theorem filterMap_around (hnodup : (rows.map key).Nodup) (hmem : row ∈ rows)
    {read otherRead : ρ → Option β}
    (hsame : ∀ other, key other ≠ key row → otherRead other = read other) :
    rows.filterMap otherRead =
      (rows.takeWhile fun other ↦ key other ≠ key row).filterMap read ++
        (otherRead row).toList ++
        (rows.dropWhile fun other ↦ key other ≠ key row).tail.filterMap read := by
  obtain ⟨heq, hbefore, hafter⟩ := eq_around hnodup hmem
  have hread : ∀ part : List ρ, (∀ other ∈ part, key other ≠ key row) →
      part.filterMap otherRead = part.filterMap read :=
    fun part hpart ↦ List.filterMap_congr fun other hother ↦ hsame other (hpart other hother)
  conv_lhs => rw [heq]
  rw [List.filterMap_append, List.filterMap_cons, hread _ hbefore, hread _ hafter]
  cases otherRead row with
  | none => simp
  | some value => simp

end Around

end DocStore.Foundation
