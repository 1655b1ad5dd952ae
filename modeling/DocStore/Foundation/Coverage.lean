import Mathlib.Data.List.Pairwise

/-!
# Rows that cover points

Each row of a list covers some points. Where no two rows cover a common point, at most one row
stands at a point (`rowAt_eq_some`). When a row is replaced by rows that cover no more than it did,
what stands elsewhere stays as it was (`rowAt_replace_of_not_covers`), and what stands where it
stood is found among the new rows (`rowAt_replace_of_covers`).
-/

set_option autoImplicit false
set_option relaxedAutoImplicit false

namespace DocStore.Foundation

variable {ρ σ τ : Type*} (covers : ρ → τ → Bool)

/-- Two rows that cover no common point. -/
def Separate (first second : ρ) : Prop :=
  ∀ point, ¬(covers first point = true ∧ covers second point = true)

/-- No two rows cover a common point. -/
def Apart (rows : List ρ) : Prop := rows.Pairwise (Separate covers)

/-- The row that stands at a point. -/
def rowAt (rows : List ρ) (point : τ) : Option ρ := rows.find? fun row ↦ covers row point

/-- Rows that divide the points of a whole among them: each covers some, no two cover a common
one, and together they cover them all. -/
structure Divides (whole : τ → Bool) (parts : List ρ) : Prop where
  inhabited : ∀ part ∈ parts, ∃ point, covers part point = true
  apart : Apart covers parts
  covered : ∀ point, whole point = true ↔ ∃ part ∈ parts, covers part point = true

variable {covers}

theorem Separate.symm {first second : ρ} (hseparate : Separate covers first second) :
    Separate covers second first :=
  fun point hboth ↦ hseparate point ⟨hboth.2, hboth.1⟩

theorem Apart.separate {rows : List ρ} (hapart : Apart covers rows) {first second : ρ}
    (hfirst : first ∈ rows) (hsecond : second ∈ rows) (hne : first ≠ second) :
    Separate covers first second :=
  haveI : Std.Symm (Separate covers) := ⟨fun _ _ hseparate ↦ hseparate.symm⟩
  List.Pairwise.forall hapart hfirst hsecond hne

/-- Of rows that are apart, one that covers a point is the only one. -/
theorem Apart.unique {rows : List ρ} (hapart : Apart covers rows) {first second : ρ}
    (hfirst : first ∈ rows) (hsecond : second ∈ rows) {point : τ}
    (hcovers : covers first point = true) (hcovers' : covers second point = true) :
    first = second := by
  by_contra hne
  exact hapart.separate hfirst hsecond hne point ⟨hcovers, hcovers'⟩

theorem Divides.ne_nil {whole : τ → Bool} {parts : List ρ} (hdivides : Divides covers whole parts)
    {point : τ} (hpoint : whole point = true) : parts ≠ [] := by
  obtain ⟨part, hmem, -⟩ := (hdivides.covered point).mp hpoint
  exact List.ne_nil_of_mem hmem

/-! ### The row at a point -/

theorem rowAt_eq_none {rows : List ρ} {point : τ} :
    rowAt covers rows point = none ↔ ∀ row ∈ rows, covers row point ≠ true :=
  List.find?_eq_none

theorem of_rowAt_eq_some {rows : List ρ} {point : τ} {row : ρ}
    (hrow : rowAt covers rows point = some row) : row ∈ rows ∧ covers row point = true :=
  ⟨List.mem_of_find?_eq_some hrow, List.find?_some (p := fun row ↦ covers row point) hrow⟩

/-- The row at a point is the one that covers it. -/
theorem rowAt_eq_some {rows : List ρ} (hapart : Apart covers rows) {point : τ} {row : ρ} :
    rowAt covers rows point = some row ↔ row ∈ rows ∧ covers row point = true := by
  refine ⟨of_rowAt_eq_some, fun ⟨hmem, hcovers⟩ ↦ ?_⟩
  cases hfound : rowAt covers rows point with
  | none => exact absurd hcovers (rowAt_eq_none.mp hfound row hmem)
  | some other =>
    obtain ⟨hother, hcovers'⟩ := of_rowAt_eq_some hfound
    rw [hapart.unique hother hmem hcovers' hcovers]

/-- The rows that cover a point are the row at it, if any. -/
theorem filter_covers {rows : List ρ} (hapart : Apart covers rows) (point : τ) :
    rows.filter (fun row ↦ covers row point) = (rowAt covers rows point).toList := by
  induction rows with
  | nil => rfl
  | cons row rows ih =>
    obtain ⟨hrow, hrows⟩ := List.pairwise_cons.mp hapart
    rw [rowAt, List.filter_cons, List.find?_cons]
    cases hcovers : covers row point with
    | false => exact ih hrows
    | true =>
      have hnone : rows.filter (fun other ↦ covers other point) = [] :=
        List.filter_eq_nil_iff.mpr fun other hmem hcovers' ↦ hrow other hmem point
          ⟨hcovers, hcovers'⟩
      simp [hnone]

theorem rowAt_append (first second : List ρ) (point : τ) :
    rowAt covers (first ++ second) point =
      (rowAt covers first point).or (rowAt covers second point) :=
  List.find?_append

theorem rowAt_filter {rows : List ρ} {keep : ρ → Bool} {point : τ}
    (hdropped : ∀ row ∈ rows, keep row = false → covers row point ≠ true) :
    rowAt covers (rows.filter keep) point = rowAt covers rows point := by
  rw [rowAt, List.find?_filter, rowAt, ← List.head?_filter, ← List.head?_filter]
  congr 1
  refine List.filter_congr fun row hmem ↦ ?_
  have hkept := hdropped row hmem
  cases hkeep : keep row <;> simp_all

/-! ### Replacing a row -/

section Replace

variable {rows added : List ρ} {keep : ρ → Bool} {point : τ}

/-- Where no row is given up or added, the row stays. -/
theorem rowAt_replace_of_not_covers
    (hdropped : ∀ row ∈ rows, keep row = false → covers row point ≠ true)
    (hadded : ∀ row ∈ added, covers row point ≠ true) :
    rowAt covers (rows.filter keep ++ added) point = rowAt covers rows point := by
  rw [rowAt_append, rowAt_filter hdropped, rowAt_eq_none.mpr hadded, Option.or_none]

/-- Where a row is given up, the row is found among the added ones. -/
theorem rowAt_replace_of_covers (hapart : Apart covers rows) {row : ρ} (hmem : row ∈ rows)
    (hdropped : keep row = false) (hcovers : covers row point = true) :
    rowAt covers (rows.filter keep ++ added) point = rowAt covers added point := by
  have hnone : rowAt covers (rows.filter keep) point = none := by
    refine rowAt_eq_none.mpr fun other hother hcovers' ↦ ?_
    obtain ⟨hother, hkept⟩ := List.mem_filter.mp hother
    rw [hapart.unique hother hmem hcovers' hcovers, hdropped] at hkept
    cases hkept
  rw [rowAt_append, hnone, Option.none_or]

/-- Rows that divide what a row covered may take its place. -/
theorem Apart.replace (hapart : Apart covers rows) (hadded : Apart covers added)
    (hwithin : ∀ new ∈ added, ∀ point, covers new point = true →
      ∃ row ∈ rows, keep row = false ∧ covers row point = true) :
    Apart covers (rows.filter keep ++ added) := by
  refine List.pairwise_append.mpr ⟨hapart.filter _, hadded, fun old hold new hnew point hboth ↦ ?_⟩
  obtain ⟨hold, hkept⟩ := List.mem_filter.mp hold
  obtain ⟨row, hrow, hdropped, hcovers⟩ := hwithin new hnew point hboth.2
  rw [hapart.unique hold hrow hboth.1 hcovers, hdropped] at hkept
  cases hkept

end Replace

/-- Rows that are apart stay apart when they are seen through a map that keeps what they cover. -/
theorem apart_map {covers' : σ → τ → Bool} {view : ρ → σ} {rows : List ρ}
    (hview : ∀ row point, covers' (view row) point = covers row point) :
    Apart covers' (rows.map view) ↔ Apart covers rows := by
  rw [Apart, List.pairwise_map, Apart]
  refine List.Pairwise.iff fun first second ↦ ?_
  simp only [Separate, hview]

theorem divides_map {covers' : σ → τ → Bool} {view : ρ → σ} {whole : τ → Bool} {rows : List ρ}
    (hview : ∀ row point, covers' (view row) point = covers row point) :
    Divides covers' whole (rows.map view) ↔ Divides covers whole rows := by
  constructor
  · intro hdivides
    refine ⟨fun part hmem ↦ ?_, (apart_map hview).mp hdivides.apart, fun point ↦ ?_⟩
    · obtain ⟨point, hcovers⟩ := hdivides.inhabited _ (List.mem_map_of_mem hmem)
      exact ⟨point, hview part point ▸ hcovers⟩
    · rw [hdivides.covered]
      simp only [List.mem_map, exists_exists_and_eq_and, hview]
  · intro hdivides
    refine ⟨List.forall_mem_map.mpr fun part hmem ↦ ?_, (apart_map hview).mpr hdivides.apart,
      fun point ↦ ?_⟩
    · obtain ⟨point, hcovers⟩ := hdivides.inhabited part hmem
      exact ⟨point, (hview part point).trans hcovers⟩
    · rw [hdivides.covered]
      simp only [List.mem_map, exists_exists_and_eq_and, hview]

end DocStore.Foundation
