import Mathlib.Data.List.Chain
import Mathlib.Data.List.Pairwise

/-!
# Rows that succeed one another

A row of a log may name the row that it succeeds. The live rows are those that no row succeeds. A
row at the end of a log removes at most the rows it succeeds from the live ones and joins them, so
a relation between any two live rows is kept by an append that respects it
(`pairwise_live_append_singleton`). Of rows that succeed one another in a row, only the last one is
live (`Succession.liveRows_eq`).
-/

set_option autoImplicit false
set_option relaxedAutoImplicit false

namespace DocStore.Foundation

variable {ρ κ : Type*} [DecidableEq κ] (key : ρ → κ) (succeeds : ρ → Option κ)

/-- Whether some row succeeds the row with a key. -/
def isSucceeded (rows : List ρ) (wanted : κ) : Bool := rows.any fun row ↦ succeeds row = some wanted

/-- The rows that no row succeeds. -/
def liveRows (rows : List ρ) : List ρ := rows.filter fun row ↦ !isSucceeded succeeds rows (key row)

variable {key succeeds}

theorem isSucceeded_append {first second : List ρ} {wanted : κ} :
    isSucceeded succeeds (first ++ second) wanted =
      (isSucceeded succeeds first wanted || isSucceeded succeeds second wanted) := by
  simp [isSucceeded]

theorem mem_liveRows {rows : List ρ} {row : ρ} :
    row ∈ liveRows key succeeds rows ↔
      row ∈ rows ∧ ∀ later ∈ rows, succeeds later ≠ some (key row) := by
  simp [liveRows, isSucceeded]

/-- Once a row is succeeded it stays so. -/
theorem isSucceeded_mono {rows final : List ρ} (hleads : rows <+: final) {wanted : κ}
    (hsucceeded : isSucceeded succeeds rows wanted = true) :
    isSucceeded succeeds final wanted = true := by
  obtain ⟨added, rfl⟩ := hleads
  rw [isSucceeded_append, hsucceeded, Bool.true_or]

/-- The live rows after an append: the old ones that the new row does not succeed, and the new row
unless it is already succeeded. -/
theorem liveRows_append_singleton (rows : List ρ) (row : ρ) :
    liveRows key succeeds (rows ++ [row]) =
      (liveRows key succeeds rows).filter (fun old ↦ succeeds row ≠ some (key old)) ++
        [row].filter fun new ↦ !isSucceeded succeeds (rows ++ [row]) (key new) := by
  rw [liveRows, List.filter_append, liveRows, List.filter_filter]
  congr 1
  refine List.filter_congr fun old _ ↦ ?_
  by_cases hnew : succeeds row = some (key old) <;> simp [isSucceeded, hnew]

/-- A relation that holds between any two live rows, and between the live rows that a new row does
not succeed and the new row, holds between any two live rows after the append. -/
theorem pairwise_live_append_singleton {relation : ρ → ρ → Prop} {rows : List ρ} {row : ρ}
    (hrows : (liveRows key succeeds rows).Pairwise relation)
    (hrow : ∀ old ∈ liveRows key succeeds rows, succeeds row ≠ some (key old) → relation old row) :
    (liveRows key succeeds (rows ++ [row])).Pairwise relation := by
  rw [liveRows_append_singleton, List.pairwise_append]
  refine ⟨hrows.filter _, (List.pairwise_singleton relation row).filter _, ?_⟩
  intro old hold new hnew
  have hmem := List.mem_filter.mp hold
  rw [List.mem_singleton.mp (List.mem_filter.mp hnew).1]
  exact hrow old hmem.1 (by simpa using hmem.2)

/-! ### Rows that succeed one another in a row -/

variable (key succeeds) in
/-- Each row succeeds the one in front of it, and no row succeeds itself or one behind it. -/
structure Succession (rows : List ρ) : Prop where
  chained : rows.IsChain fun earlier later ↦ succeeds later = some (key earlier)
  forward : rows.Pairwise fun earlier later ↦ succeeds earlier ≠ some (key later)
  apart : ∀ row ∈ rows, succeeds row ≠ some (key row)

omit [DecidableEq κ] in
theorem Succession.nil : Succession key succeeds [] :=
  ⟨List.isChain_nil, List.Pairwise.nil, List.forall_mem_nil _⟩

omit [DecidableEq κ] in
/-- A succession goes on with a row that succeeds the last one under a new key. -/
theorem Succession.append {rows : List ρ} {row : ρ} (hrows : Succession key succeeds rows)
    (hlast : ∀ last ∈ rows.getLast?, succeeds row = some (key last))
    (hfresh : ∀ old ∈ rows, succeeds old ≠ some (key row))
    (hself : succeeds row ≠ some (key row)) : Succession key succeeds (rows ++ [row]) where
  chained := hrows.chained.append (List.isChain_singleton row) fun last hmem first hfirst ↦ by
    rw [List.head?_cons, Option.mem_def, Option.some_inj] at hfirst
    exact hfirst ▸ hlast last hmem
  forward := List.pairwise_append.mpr ⟨hrows.forward, List.pairwise_singleton _ row,
    fun old hold new hnew ↦ List.mem_singleton.mp hnew ▸ hfresh old hold⟩
  apart := List.forall_mem_append.mpr ⟨hrows.apart, List.forall_mem_singleton.mpr hself⟩

/-- **Only the last row of a succession is live.** -/
theorem Succession.liveRows_eq {rows : List ρ} (hrows : Succession key succeeds rows) :
    liveRows key succeeds rows = rows.getLast?.toList := by
  induction rows using List.reverseRecOn with
  | nil => rfl
  | append_singleton rows row ih =>
    have hfront : Succession key succeeds rows :=
      ⟨hrows.chained.left_of_append, (List.pairwise_append.mp hrows.forward).1,
        (List.forall_mem_append.mp hrows.apart).1⟩
    have hlast : ∀ last ∈ rows.getLast?, succeeds row = some (key last) := by
      intro last hmem
      exact (List.isChain_append.mp hrows.chained).2.2 last hmem row rfl
    have hfree : isSucceeded succeeds (rows ++ [row]) (key row) = false := by
      refine List.any_eq_false.mpr fun later hmem ↦ ?_
      rw [decide_eq_true_eq]
      rcases List.mem_append.mp hmem with hearlier | hself
      · exact (List.pairwise_append.mp hrows.forward).2.2 later hearlier row
          (List.mem_singleton_self row)
      · rw [List.mem_singleton.mp hself]
        exact hrows.apart row (List.mem_append_right _ (List.mem_singleton_self row))
    have hgone : (rows.getLast?.toList).filter (fun old ↦ succeeds row ≠ some (key old)) = [] :=
      List.filter_eq_nil_iff.mpr fun old hold ↦ by simp [hlast old (Option.mem_toList.mp hold)]
    rw [liveRows_append_singleton, ih hfront, hgone, List.nil_append, List.getLast?_concat,
      List.filter_singleton, hfree]
    rfl

end DocStore.Foundation
