import Mathlib.Data.List.Nodup
import Mathlib.Data.List.Perm.Basic

/-!
# An index that mirrors the rows

An index lists addresses, each with an identity of its own. It mirrors some rows when it lists the
address of every row once and no other. Entering the address of a new row under a fresh identity and
filtering both sides keep it so; a row that changes its address behind the back of the index does
not.
-/

set_option autoImplicit false
set_option relaxedAutoImplicit false

namespace DocStore.Foundation

variable {κ ι : Type*} {identity : κ → ι} {index keys next : List κ}

/-- The index lists the addresses of the rows, and no identity twice. -/
structure Mirrors (identity : κ → ι) (index keys : List κ) : Prop where
  exact : index.Perm keys
  distinct : (index.map identity).Nodup

theorem Mirrors.nil : Mirrors identity [] [] :=
  ⟨List.Perm.nil, List.nodup_nil⟩

/-- The order of the rows does not matter. -/
theorem Mirrors.congr (hmirrors : Mirrors identity index keys) (hperm : next.Perm keys) :
    Mirrors identity index next :=
  ⟨hmirrors.exact.trans hperm.symm, hmirrors.distinct⟩

/-- A row is entered under a fresh identity. -/
theorem Mirrors.insert (hmirrors : Mirrors identity index keys) {key : κ}
    (hfresh : identity key ∉ index.map identity) (hnext : next.Perm (keys ++ [key])) :
    Mirrors identity (index ++ [key]) next where
  exact := (hmirrors.exact.append_right _).trans hnext.symm
  distinct := by
    rw [List.map_append, List.nodup_append]
    refine ⟨hmirrors.distinct, List.nodup_singleton _, ?_⟩
    rintro other hother _ hkey rfl
    exact hfresh (List.mem_singleton.mp hkey ▸ hother)

/-- Rows and their entries are removed. -/
theorem Mirrors.filter (hmirrors : Mirrors identity index keys) (kept : κ → Bool) :
    Mirrors identity (index.filter kept) (keys.filter kept) where
  exact := hmirrors.exact.filter kept
  distinct := hmirrors.distinct.sublist (List.filter_sublist.map identity)

/-- The rows have distinct addresses. -/
theorem Mirrors.nodup (hmirrors : Mirrors identity index keys) : keys.Nodup :=
  hmirrors.exact.nodup_iff.mp (List.Nodup.of_map identity hmirrors.distinct)

theorem Mirrors.mem_iff (hmirrors : Mirrors identity index keys) {key : κ} :
    key ∈ index ↔ key ∈ keys :=
  hmirrors.exact.mem_iff

variable [DecidableEq κ]

/-- A row gets another address, and the index does not hear of it. -/
theorem Mirrors.not_of_rename (hmirrors : Mirrors identity index keys) {old : κ} (new : κ)
    (hold : old ∈ keys) (hne : new ≠ old) :
    ¬Mirrors identity index (keys.map fun key ↦ if key = old then new else key) := by
  intro hrenamed
  have hmem := hrenamed.mem_iff.mp (hmirrors.mem_iff.mpr hold)
  obtain ⟨key, -, hkey⟩ := List.mem_map.mp hmem
  split at hkey
  · exact hne hkey
  next hother => exact hother hkey

end DocStore.Foundation
