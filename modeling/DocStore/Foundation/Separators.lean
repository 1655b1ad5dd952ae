import Mathlib.Data.List.DropRight

/-!
# Separators

A sequence in which a separator stands between pieces can be read from its end: what stands behind
the last separator is the last piece, whatever comes in front of it. A search that goes through the
pieces from the last one therefore needs to know no more of the sequence than what is behind the
place it has come to (`findSome_splitOn_append`).

Two parts that are joined with a separator can be told apart again when the first one has no
separator, or when it is known how many it has (`append_cons_inj_of_count`).
-/

set_option autoImplicit false
set_option relaxedAutoImplicit false

namespace DocStore.Foundation

variable {α β : Type*} [DecidableEq α] {separator : α} {items before behind : List α}

/-- What stands behind the last separator, or everything. -/
def behindLast (separator : α) (items : List α) : List α :=
  items.rtakeWhile fun item ↦ item ≠ separator

/-- What stands in front of the last separator. -/
def beforeLast (separator : α) (items : List α) : List α :=
  (items.rdropWhile fun item ↦ item ≠ separator).dropLast

theorem notMem_behindLast (separator : α) (items : List α) :
    separator ∉ behindLast separator items := by
  intro hmem
  have hother := List.mem_rtakeWhile_imp hmem
  exact of_decide_eq_true hother rfl

/-- A sequence with a separator is what is in front of the last one, the separator, and what is
behind it. -/
theorem beforeLast_append (hmem : separator ∈ items) :
    beforeLast separator items ++ separator :: behindLast separator items = items := by
  have hne : (items.rdropWhile fun item ↦ item ≠ separator) ≠ [] := by
    rw [ne_eq, List.rdropWhile_eq_nil_iff]
    exact fun hothers ↦ of_decide_eq_true (hothers separator hmem) rfl
  have hlast : (items.rdropWhile fun item ↦ item ≠ separator).getLast hne = separator := by
    have hstays := List.rdropWhile_last_not (fun item ↦ decide (item ≠ separator)) items hne
    simpa using hstays
  have hparts := List.dropLast_append_getLast hne
  rw [hlast] at hparts
  calc beforeLast separator items ++ separator :: behindLast separator items
      = (beforeLast separator items ++ [separator]) ++ behindLast separator items := by
        rw [List.append_assoc, List.singleton_append]
    _ = (items.rdropWhile fun item ↦ item ≠ separator) ++ behindLast separator items := by
        rw [beforeLast, hparts]
    _ = items := List.rdropWhile_append_rtakeWhile ..

theorem length_beforeLast_lt (hmem : separator ∈ items) :
    (beforeLast separator items).length < items.length := by
  have hlength := congrArg List.length (beforeLast_append hmem)
  rw [List.length_append, List.length_cons] at hlength
  omega

/-- The last piece is found from the end. -/
theorem reverse_splitOn_append (hmem : separator ∈ items) (earlier : List α) :
    ((earlier ++ items).splitOn separator).reverse =
      behindLast separator items ::
        ((earlier ++ beforeLast separator items).splitOn separator).reverse := by
  rw [← congrArg (earlier ++ ·) (beforeLast_append hmem), ← List.append_assoc,
    List.splitOn_append_cons_self, List.splitOn_eq_singleton (notMem_behindLast separator items),
    List.reverse_append]
  rfl

/-- A search from the last piece looks at it first. -/
theorem findSome_splitOn_append (search : List α → Option β) (hmem : separator ∈ items)
    (earlier : List α) :
    ((earlier ++ items).splitOn separator).reverse.findSome? search =
      (search (behindLast separator items)).or
        (((earlier ++ beforeLast separator items).splitOn separator).reverse.findSome? search) := by
  rw [reverse_splitOn_append hmem, List.findSome?_cons]
  cases search (behindLast separator items) with
  | none => rfl
  | some answer => rfl

/-- Joined sequences are the same in both parts when their first parts have equally many
separators. -/
theorem append_cons_inj_of_count {first second firstRest secondRest : List α}
    (hcount : first.count separator = second.count separator) :
    first ++ separator :: firstRest = second ++ separator :: secondRest ↔
      first = second ∧ firstRest = secondRest := by
  constructor
  · intro hjoined
    induction first generalizing second with
    | nil =>
      cases second with
      | nil => exact ⟨rfl, (List.cons.inj hjoined).2⟩
      | cons item second =>
        obtain rfl : separator = item := (List.cons.inj hjoined).1
        rw [List.count_nil, List.count_cons_self] at hcount
        cases hcount
    | cons item first ih =>
      cases second with
      | nil =>
        obtain rfl : item = separator := (List.cons.inj hjoined).1
        rw [List.count_nil, List.count_cons_self] at hcount
        cases hcount
      | cons other second =>
        obtain ⟨rfl, hrest⟩ := List.cons.inj hjoined
        have hcounts : first.count separator = second.count separator := by
          simpa [List.count_cons] using hcount
        obtain ⟨rfl, hrests⟩ := ih hcounts hrest
        exact ⟨rfl, hrests⟩
  · rintro ⟨rfl, rfl⟩
    rfl

end DocStore.Foundation
