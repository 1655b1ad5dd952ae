import Mathlib.Data.List.Sort
import Mathlib.Data.List.Basic

/-!
# Ranked rows and the windows cut from them

`ranked` is `ORDER BY` over a key, `window` is `LIMIT` and `OFFSET`. Where the keys are distinct, the
row at a position is the one that has as many smaller keys ahead of it (`getElem?_ranked`), so two
windows are compared without sorting anything: `window_ranked_eq_iff` asks of every position of the
window that the same row stands there in both rankings.
-/

set_option autoImplicit false
set_option relaxedAutoImplicit false

namespace DocStore.Foundation

variable {α β κ κ' : Type*} [LinearOrder κ] [LinearOrder κ']

/-- The rows by ascending keys. -/
def ranked (key : α → κ) (rows : List α) : List α :=
  rows.insertionSort fun first second ↦ key first ≤ key second

/-- How many rows have a smaller key. -/
def ahead (key : α → κ) (rows : List α) (row : α) : ℕ := rows.countP fun other ↦ key other < key row

/-- A row stands at the position that the rows ahead of it leave. -/
def StandsAt (key : α → κ) (rows : List α) (position : ℕ) (row : α) : Prop :=
  row ∈ rows ∧ ahead key rows row = position

/-- `LIMIT limit OFFSET offset`. -/
def window (offset : ℕ) (limit : Option ℕ) (rows : List α) : List α :=
  match limit with
  | none => rows.drop offset
  | some limit => (rows.drop offset).take limit

/-- The positions of a window. -/
def InWindow (offset : ℕ) (limit : Option ℕ) (position : ℕ) : Prop :=
  offset ≤ position ∧ ∀ length ∈ limit, position < offset + length

instance (offset : ℕ) (limit : Option ℕ) (position : ℕ) :
    Decidable (InWindow offset limit position) :=
  inferInstanceAs (Decidable (_ ∧ _))

variable {key : α → κ} {key' : α → κ'} {rows rows' : List α}

theorem perm_ranked (key : α → κ) (rows : List α) : (ranked key rows).Perm rows :=
  List.perm_insertionSort _ rows

@[simp] theorem mem_ranked {row : α} : row ∈ ranked key rows ↔ row ∈ rows :=
  (perm_ranked key rows).mem_iff

theorem pairwise_ranked (key : α → κ) (rows : List α) :
    (ranked key rows).Pairwise fun first second ↦ key first ≤ key second := by
  have : Std.Total fun first second : α ↦ key first ≤ key second :=
    ⟨fun first second ↦ le_total (key first) (key second)⟩
  have : IsTrans α fun first second ↦ key first ≤ key second :=
    ⟨fun _ _ _ hfirst hsecond ↦ hfirst.trans hsecond⟩
  exact List.pairwise_insertionSort _ rows

/-- Distinct keys are ranked strictly. -/
theorem pairwise_lt_ranked (hkeys : (rows.map key).Nodup) :
    (ranked key rows).Pairwise fun first second ↦ key first < key second := by
  have hnodup : (ranked key rows).Pairwise fun first second ↦ key first ≠ key second :=
    List.pairwise_map.mp (((perm_ranked key rows).map key).nodup_iff.mpr hkeys)
  exact ((pairwise_ranked key rows).and hnodup).imp fun ⟨hle, hne⟩ ↦ lt_of_le_of_ne hle hne

/-- Rows with distinct keys have one ranking. -/
theorem ranked_eq_of_perm (hkeys : (rows.map key).Nodup) (hperm : rows.Perm rows') :
    ranked key rows = ranked key rows' := by
  have hkeys' : (rows'.map key).Nodup := (hperm.map key).nodup_iff.mp hkeys
  have hranked : (ranked key rows).Perm (ranked key rows') :=
    (perm_ranked key rows).trans (hperm.trans (perm_ranked key rows').symm)
  exact hranked.eq_of_pairwise (fun _ _ _ _ hlt hgt ↦ absurd hlt (not_lt.mpr hgt.le))
    (pairwise_lt_ranked hkeys) (pairwise_lt_ranked hkeys')

/-- `max` by a key: of the rows with the largest key the first. -/
def maxBy (key : α → κ) (row : α) (rest : List α) : α :=
  rest.foldl (fun best other ↦ if key best < key other then other else best) row

@[simp] theorem maxBy_nil (row : α) : maxBy key row [] = row := rfl

theorem maxBy_mem (row : α) (rest : List α) : maxBy key row rest ∈ row :: rest := by
  induction rest generalizing row with
  | nil => exact List.mem_cons_self
  | cons other rest ih =>
    change maxBy key (if key row < key other then other else row) rest ∈ _
    split
    · exact List.mem_cons_of_mem _ (ih other)
    · rcases List.mem_cons.mp (ih row) with heq | hmem
      · exact List.mem_cons.mpr (.inl heq)
      · exact List.mem_cons_of_mem _ (List.mem_cons_of_mem _ hmem)

theorem le_maxBy {row other : α} {rest : List α} (hother : other ∈ row :: rest) :
    key other ≤ key (maxBy key row rest) := by
  induction rest generalizing row other with
  | nil => exact (List.mem_singleton.mp hother) ▸ le_rfl
  | cons first rest ih =>
    change _ ≤ key (maxBy key (if key row < key first then first else row) rest)
    split
    next hlt =>
      rcases List.mem_cons.mp hother with rfl | hother
      · exact hlt.le.trans (ih List.mem_cons_self)
      · exact ih hother
    next hnot =>
      rcases List.mem_cons.mp hother with rfl | hother
      · exact ih List.mem_cons_self
      · rcases List.mem_cons.mp hother with rfl | hother
        · exact (not_lt.mp hnot).trans (ih List.mem_cons_self)
        · exact ih (List.mem_cons_of_mem _ hother)

/-- Where the keys are distinct, the order of the rows does not matter. -/
theorem maxBy_eq_of_perm {row row' : α} {rest rest' : List α}
    (hkeys : ((row :: rest).map key).Nodup) (hperm : (row :: rest).Perm (row' :: rest')) :
    maxBy key row rest = maxBy key row' rest' :=
  List.inj_on_of_nodup_map hkeys (maxBy_mem row rest) (hperm.mem_iff.mpr (maxBy_mem row' rest'))
    (le_antisymm (le_maxBy (hperm.mem_iff.mp (maxBy_mem row rest)))
      (le_maxBy (hperm.mem_iff.mpr (maxBy_mem row' rest'))))

/-- A row that no other one comes before: of the rows with the smallest key it is the first. -/
def IsFirst (key : α → κ) (rows : List α) (row : α) : Prop :=
  ∃ before after, rows = before ++ row :: after ∧ (∀ other ∈ before, key row < key other) ∧
    ∀ other ∈ after, key row ≤ key other

theorem isFirst_cons_iff {first row : α} {rest : List α} : IsFirst key (first :: rest) row ↔
    (row = first ∧ ∀ other ∈ rest, key first ≤ key other) ∨
      (key row < key first ∧ IsFirst key rest row) := by
  constructor
  · rintro ⟨before, after, hrows, hbefore, hafter⟩
    cases before with
    | nil =>
      obtain ⟨rfl, rfl⟩ := List.cons.inj hrows
      exact .inl ⟨rfl, hafter⟩
    | cons other before =>
      obtain ⟨rfl, rfl⟩ := List.cons.inj hrows
      obtain ⟨hfirst, hbefore⟩ := List.forall_mem_cons.mp hbefore
      exact .inr ⟨hfirst, before, after, rfl, hbefore, hafter⟩
  · rintro (⟨rfl, hrest⟩ | ⟨hfirst, before, after, rfl, hbefore, hafter⟩)
    · exact ⟨[], rest, rfl, by simp, hrest⟩
    · exact ⟨first :: before, after, rfl, List.forall_mem_cons.mpr ⟨hfirst, hbefore⟩, hafter⟩

theorem IsFirst.le {row : α} (hfirst : IsFirst key rows row) {other : α} (hother : other ∈ rows) :
    key row ≤ key other := by
  obtain ⟨before, after, rfl, hbefore, hafter⟩ := hfirst
  rcases List.mem_append.mp hother with hother | hother
  · exact (hbefore other hother).le
  · rcases List.mem_cons.mp hother with rfl | hother
    · exact le_rfl
    · exact hafter other hother

/-- A ranking starts with the first row. -/
theorem head?_ranked_eq_some_iff {row : α} :
    (ranked key rows).head? = some row ↔ IsFirst key rows row := by
  induction rows generalizing row with
  | nil =>
    refine iff_of_false (by simp [ranked]) ?_
    rintro ⟨before, after, hrows, -⟩
    simp at hrows
  | cons first rest ih =>
    rw [isFirst_cons_iff, ← ih, ranked, List.insertionSort_cons]
    change ((ranked key rest).orderedInsert _ first).head? = some row ↔ _
    cases hranked : ranked key rest with
    | nil =>
      have hnone : rest = [] := by
        have hperm := perm_ranked key rest
        rw [hranked] at hperm
        exact hperm.nil_eq.symm
      simp [hnone, eq_comm]
    | cons best others =>
      have hbest : IsFirst key rest best := ih.mp (by rw [hranked, List.head?_cons])
      rw [List.orderedInsert_cons, List.head?_cons, Option.some_inj]
      by_cases hle : key first ≤ key best
      · rw [if_pos hle, List.head?_cons, Option.some_inj]
        constructor
        · rintro rfl
          exact .inl ⟨rfl, fun other hother ↦ hle.trans (hbest.le hother)⟩
        · rintro (⟨rfl, -⟩ | ⟨hlt, rfl⟩)
          · rfl
          · exact absurd hle (not_le.mpr hlt)
      · rw [if_neg hle, List.head?_cons, Option.some_inj]
        constructor
        · rintro rfl
          exact .inr ⟨not_le.mp hle, rfl⟩
        · rintro (⟨rfl, hall⟩ | ⟨-, rfl⟩)
          · exact absurd (hall best (mem_ranked.mp (hranked ▸ List.mem_cons_self))) hle
          · rfl

theorem ahead_ranked (row : α) : ahead key (ranked key rows) row = ahead key rows row :=
  (perm_ranked key rows).countP_eq _

/-- Nothing is ahead of the first of strictly ascending rows. -/
theorem ahead_cons_self {first : α} {rest : List α}
    (hrows : (first :: rest).Pairwise fun row other ↦ key row < key other) :
    ahead key (first :: rest) first = 0 := by
  refine List.countP_eq_zero.mpr fun other hother ↦ ?_
  rcases List.mem_cons.mp hother with rfl | hother
  · simp
  · simpa using (List.rel_of_pairwise_cons hrows hother).le

/-- The first of strictly ascending rows is ahead of all others. -/
theorem ahead_cons_of_mem {first row : α} {rest : List α}
    (hrows : (first :: rest).Pairwise fun row other ↦ key row < key other) (hrow : row ∈ rest) :
    ahead key (first :: rest) row = ahead key rest row + 1 := by
  have hlt : decide (key first < key row) = true :=
    decide_eq_true (List.rel_of_pairwise_cons hrows hrow)
  rw [ahead, List.countP_cons, if_pos hlt, ← ahead]

/-- In strictly ascending rows a row has as many ahead of it as its position says. -/
theorem getElem?_eq_some_iff_standsAt
    (hrows : rows.Pairwise fun first second ↦ key first < key second) {position : ℕ} {row : α} :
    rows[position]? = some row ↔ StandsAt key rows position row := by
  induction rows generalizing position with
  | nil => simp [StandsAt]
  | cons first rest ih =>
    have hfirst : first ∉ rest := fun hmem ↦ lt_irrefl _ (List.rel_of_pairwise_cons hrows hmem)
    cases position with
    | zero =>
      rw [List.getElem?_cons_zero, Option.some.injEq]
      constructor
      · rintro rfl
        exact ⟨List.mem_cons_self, ahead_cons_self hrows⟩
      · rintro ⟨hmem, hzero⟩
        rcases List.mem_cons.mp hmem with rfl | hmem
        · rfl
        · rw [ahead_cons_of_mem hrows hmem] at hzero
          cases hzero
    | succ position =>
      rw [List.getElem?_cons_succ, ih hrows.of_cons]
      constructor
      · rintro ⟨hmem, hahead⟩
        exact ⟨List.mem_cons_of_mem _ hmem, by rw [ahead_cons_of_mem hrows hmem, hahead]⟩
      · rintro ⟨hmem, hahead⟩
        rcases List.mem_cons.mp hmem with rfl | hmem
        · rw [ahead_cons_self hrows] at hahead
          cases hahead
        · rw [ahead_cons_of_mem hrows hmem] at hahead
          exact ⟨hmem, Nat.succ.inj hahead⟩

/-- The row at a position of a ranking. -/
theorem getElem?_ranked (hkeys : (rows.map key).Nodup) {position : ℕ} {row : α} :
    (ranked key rows)[position]? = some row ↔ StandsAt key rows position row := by
  rw [getElem?_eq_some_iff_standsAt (pairwise_lt_ranked hkeys), StandsAt, StandsAt, mem_ranked,
    ahead_ranked]

/-! ### Windows -/

theorem getElem?_window (offset : ℕ) (limit : Option ℕ) (index : ℕ) :
    (window offset limit rows)[index]? =
      if InWindow offset limit (offset + index) then rows[offset + index]? else none := by
  cases limit with
  | none => simp [window, InWindow, List.getElem?_drop]
  | some length => simp [window, InWindow, List.getElem?_take, List.getElem?_drop]

/-- Two windows are the same when the same entries stand at their positions. -/
theorem window_eq_iff {offset : ℕ} {limit : Option ℕ} :
    window offset limit rows = window offset limit rows' ↔
      ∀ position, InWindow offset limit position → rows[position]? = rows'[position]? := by
  constructor
  · intro heq position hposition
    obtain ⟨index, rfl⟩ := Nat.exists_eq_add_of_le hposition.1
    have hindex := congrArg (·[index]?) heq
    simpa only [getElem?_window, if_pos hposition] using hindex
  · intro hall
    refine List.ext_getElem? fun index ↦ ?_
    rw [getElem?_window, getElem?_window]
    split
    · exact hall _ ‹_›
    · rfl

/-- The windows of two rankings are the same when the same rows stand at their positions. -/
theorem window_ranked_eq_iff (hkeys : (rows.map key).Nodup) (hkeys' : (rows'.map key').Nodup)
    {offset : ℕ} {limit : Option ℕ} :
    window offset limit (ranked key rows) = window offset limit (ranked key' rows') ↔
      ∀ position, InWindow offset limit position →
        ∀ row, StandsAt key rows position row ↔ StandsAt key' rows' position row := by
  rw [window_eq_iff]
  refine forall_congr' fun position ↦ imp_congr_right fun _ ↦ ?_
  simp only [← getElem?_ranked hkeys, ← getElem?_ranked hkeys']
  exact ⟨fun heq row ↦ by rw [heq], fun hall ↦ Option.ext hall⟩

/-- What a window of a ranking holds. -/
theorem mem_window_ranked (hkeys : (rows.map key).Nodup) {offset : ℕ} {limit : Option ℕ} {row : α} :
    row ∈ window offset limit (ranked key rows) ↔
      ∃ position, InWindow offset limit position ∧ StandsAt key rows position row := by
  rw [List.mem_iff_getElem?]
  constructor
  · rintro ⟨index, hindex⟩
    rw [getElem?_window] at hindex
    split at hindex
    · exact ⟨_, ‹_›, (getElem?_ranked hkeys).mp hindex⟩
    · cases hindex
  · rintro ⟨position, hposition, hstands⟩
    obtain ⟨index, rfl⟩ := Nat.exists_eq_add_of_le hposition.1
    exact ⟨index, by rw [getElem?_window, if_pos hposition, (getElem?_ranked hkeys).mpr hstands]⟩

theorem mem_of_mem_window {offset : ℕ} {limit : Option ℕ} {row : α}
    (hrow : row ∈ window offset limit rows) : row ∈ rows := by
  cases limit with
  | none => exact List.mem_of_mem_drop hrow
  | some length => exact List.mem_of_mem_drop (List.mem_of_mem_take hrow)

theorem map_window (entry : α → β) (offset : ℕ) (limit : Option ℕ) :
    (window offset limit rows).map entry = window offset limit (rows.map entry) := by
  cases limit <;> simp [window, List.map_drop, List.map_take]

/-! ### Two orders -/

/-- Lists with the same images are the same, where an image tells the rows apart. -/
theorem eq_of_map_eq {β : Type*} {read : α → β} {first second : List α}
    (hinj : ∀ row ∈ first, ∀ other ∈ second, read row = read other → row = other)
    (hmap : first.map read = second.map read) : first = second := by
  induction first generalizing second with
  | nil => exact (List.map_eq_nil_iff.mp hmap.symm).symm
  | cons row rest ih =>
    cases second with
    | nil => cases hmap
    | cons other others =>
      obtain ⟨hhead, htail⟩ := List.cons.inj hmap
      rw [hinj row List.mem_cons_self other List.mem_cons_self hhead,
        ih (fun row hrow other hother ↦ hinj row (List.mem_cons_of_mem _ hrow) other
          (List.mem_cons_of_mem _ hother)) htail]

section Orders

variable {r s : α → α → Prop} [DecidableRel r] [DecidableRel s]

theorem orderedInsert_congr {row : α} {rows : List α}
    (hagree : ∀ other ∈ rows, (r row other ↔ s row other)) :
    rows.orderedInsert r row = rows.orderedInsert s row := by
  induction rows with
  | nil => rfl
  | cons first rest ih =>
    obtain ⟨hfirst, hrest⟩ := List.forall_mem_cons.mp hagree
    rw [List.orderedInsert_cons, List.orderedInsert_cons, ih hrest]
    exact if_congr hfirst rfl rfl

/-- Rows are sorted alike by two relations exactly when these agree on each pair of rows, in the order
in which the rows stand. -/
theorem insertionSort_eq_insertionSort_iff (r s : α → α → Prop) [DecidableRel r] [DecidableRel s]
    [Std.Total r] [IsTrans α r] [Std.Total s] [IsTrans α s] {rows : List α} : rows.insertionSort r = rows.insertionSort s ↔
      rows.Pairwise fun first second ↦ (r first second ↔ s first second) := by
  constructor
  · intro hsame
    refine List.pairwise_iff_forall_sublist.mpr fun {first second} hpair ↦
      ⟨fun hrel ↦ ?_, fun hrel ↦ ?_⟩
    · have hsorted := List.pair_sublist_insertionSort hrel hpair
      rw [hsame] at hsorted
      exact List.pairwise_iff_forall_sublist.mp (List.pairwise_insertionSort s rows) hsorted
    · have hsorted := List.pair_sublist_insertionSort hrel hpair
      rw [← hsame] at hsorted
      exact List.pairwise_iff_forall_sublist.mp (List.pairwise_insertionSort r rows) hsorted
  · intro hagree
    induction rows with
    | nil => rfl
    | cons row rest ih =>
      obtain ⟨hrow, hrest⟩ := List.pairwise_cons.mp hagree
      rw [List.insertionSort_cons, List.insertionSort_cons, ih hrest]
      exact orderedInsert_congr fun other hother ↦ hrow other ((List.mem_insertionSort s).mp hother)

end Orders

end DocStore.Foundation
