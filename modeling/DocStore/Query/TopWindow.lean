import DocStore.Foundation.TopWindow
import DocStore.Query.Refinement

/-!
# The window of a refinement

The window is cut after every merge, and yet nothing is cut that belongs into it: after any sequence
of offers it holds the best of what was offered, by score, level and id, one item for every key
(`isTop_runWindow`). So neither the order of the offers nor the way in which they came together in
calls matters, and a key that was cut does not return with a score that it had. The loop over the
primary candidates is such a sequence (`isTop_execute`).
-/

set_option autoImplicit false
set_option relaxedAutoImplicit false

namespace DocStore

open Foundation

variable {ν : Type}

/-! ### The place of a candidate -/

theorem VectorEntity.levelRank_injective : Function.Injective VectorEntity.levelRank := by
  intro first second hrank
  cases first <;> cases second <;> first | rfl | cases hrank

/-- Two candidates at one place have the same key and the same score. -/
theorem primaryKey_eq_iff {first second : Candidate} : primaryKey first = primaryKey second ↔
    first.key = second.key ∧ first.score = second.score := by
  rw [primaryKey, primaryKey, Candidate.key, Candidate.key, toLex_inj, Prod.mk.injEq, toLex_inj,
    Prod.mk.injEq, Prod.mk.injEq, OrderDual.toDual_inj, VectorEntity.levelRank_injective.eq_iff,
    BitVec.toNat_inj]
  exact and_comm

/-- Of two candidates under one key the one with the higher score is in front. -/
theorem primaryKey_le_of_score_le {first second : Candidate} (hkey : first.key = second.key)
    (hscore : second.score ≤ first.score) : primaryKey first ≤ primaryKey second := by
  obtain ⟨hlevel, hid⟩ := Prod.mk.inj hkey
  rcases hscore.eq_or_lt with heq | hlt
  · exact (primaryKey_eq_iff.mpr ⟨hkey, heq.symm⟩).le
  · exact (Prod.Lex.toLex_lt_toLex.mpr (.inl hlt)).le

theorem score_lt_of_primaryKey_lt {first second : Candidate} (hkey : first.key = second.key)
    (hlt : primaryKey first < primaryKey second) : second.score < first.score :=
  not_le.mp fun hle ↦ absurd hlt (not_lt.mpr (primaryKey_le_of_score_le hkey.symm hle))

/-! ### One merge -/

/-- A dict that holds, for every key that was seen, an item with the best score that was seen under
it. -/
structure BestOf (seen : List Candidate) (byKey : List ((VectorEntity × Uuid) × Candidate)) :
    Prop where
  nodup : (byKey.map Prod.fst).Nodup
  best : ∀ key item, getKey byKey key = some item → item.key = key ∧ item ∈ seen ∧
    ∀ other ∈ seen, other.key = key → other.score ≤ item.score
  present : ∀ item ∈ seen, ∃ kept, getKey byKey item.key = some kept

section Merging

variable {seen window additions : List Candidate}
  {byKey : List ((VectorEntity × Uuid) × Candidate)} {limit : ℕ}

/-- What an entry of the dict says. -/
theorem BestOf.of_mem (hbest : BestOf seen byKey) {entry : (VectorEntity × Uuid) × Candidate}
    (hmem : entry ∈ byKey) : entry.2.key = entry.1 ∧ entry.2 ∈ seen ∧
      ∀ other ∈ seen, other.key = entry.1 → other.score ≤ entry.2.score :=
  hbest.best entry.1 entry.2 ((getKey_eq_some hbest.nodup).mpr hmem)

/-- An item replaces one that is not better. -/
theorem BestOf.setKey (hbest : BestOf seen byKey) {item : Candidate}
    (hbeats : ∀ existing, getKey byKey item.key = some existing → existing.score ≤ item.score) :
    BestOf (seen ++ [item]) (setKey byKey item.key item) := by
  refine ⟨nodup_setKey hbest.nodup _ _, fun key kept hkept ↦ ?_, fun other hother ↦ ?_⟩
  · by_cases hkey : key = item.key
    · rw [hkey, getKey_setKey_self] at hkept
      obtain rfl := Option.some.inj hkept
      refine ⟨hkey.symm, List.mem_append_right _ List.mem_cons_self, fun other hother hsame ↦ ?_⟩
      rcases List.mem_append.mp hother with hother | hother
      · obtain ⟨existing, hexisting⟩ := hbest.present other hother
        rw [hsame, hkey] at hexisting
        exact ((hbest.best _ existing hexisting).2.2 other hother (hsame.trans hkey)).trans
          (hbeats existing hexisting)
      · rw [List.mem_singleton.mp hother]
    · rw [getKey_setKey_of_ne _ _ hkey] at hkept
      obtain ⟨hown, hseen, hscores⟩ := hbest.best key kept hkept
      refine ⟨hown, List.mem_append_left _ hseen, fun other hother hsame ↦ ?_⟩
      rcases List.mem_append.mp hother with hother | hother
      · exact hscores other hother hsame
      · rw [List.mem_singleton.mp hother] at hsame
        exact absurd hsame.symm hkey
  · by_cases hkey : other.key = item.key
    · exact ⟨item, hkey ▸ getKey_setKey_self _ _ _⟩
    · rw [getKey_setKey_of_ne _ _ hkey]
      rcases List.mem_append.mp hother with hother | hother
      · exact hbest.present other hother
      · exact absurd (congrArg Candidate.key (List.mem_singleton.mp hother)) hkey

theorem BestOf.offer (hbest : BestOf seen byKey) (item : Candidate) :
    BestOf (seen ++ [item]) (offer byKey item) := by
  rw [DocStore.offer]
  split
  next hnone => exact hbest.setKey fun existing hexisting ↦ by simp [hnone] at hexisting
  next kept hkept =>
    split
    next hlower =>
      refine hbest.setKey fun existing hexisting ↦ ?_
      rw [← Option.some.inj (hkept.symm.trans hexisting)]
      exact hlower.le
    next hnot =>
      obtain ⟨hown, hseen, hscores⟩ := hbest.best _ kept hkept
      refine ⟨hbest.nodup, fun key other hother ↦ ?_, fun other hother ↦ ?_⟩
      · obtain ⟨hkey, hmem, hall⟩ := hbest.best key other hother
        refine ⟨hkey, List.mem_append_left _ hmem, fun later hlater hsame ↦ ?_⟩
        rcases List.mem_append.mp hlater with hlater | hlater
        · exact hall later hlater hsame
        · rw [List.mem_singleton.mp hlater] at hsame ⊢
          rw [← hsame] at hother
          rw [← Option.some.inj (hkept.symm.trans hother)]
          exact not_lt.mp hnot
      · rcases List.mem_append.mp hother with hother | hother
        · exact hbest.present other hother
        · rw [List.mem_singleton.mp hother]
          exact ⟨kept, hkept⟩

theorem BestOf.foldl_offer (hbest : BestOf seen byKey) (additions : List Candidate) :
    BestOf (seen ++ additions) (additions.foldl DocStore.offer byKey) := by
  induction additions generalizing seen byKey with
  | nil => rwa [List.append_nil]
  | cons item rest ih =>
    have hrest := ih (hbest.offer item)
    rwa [List.append_assoc] at hrest

/-- A window whose keys are distinct is the dict of its items. -/
theorem BestOf.foldl_setKey (hbest : BestOf seen byKey)
    (hnodup : ((seen ++ window).map Candidate.key).Nodup) :
    BestOf (seen ++ window) (window.foldl (fun items item ↦ Foundation.setKey items item.key item)
      byKey) := by
  induction window generalizing seen byKey with
  | nil => rwa [List.append_nil]
  | cons item rest ih =>
    have hsplit : seen ++ item :: rest = seen ++ [item] ++ rest := by simp
    rw [hsplit] at hnodup ⊢
    refine ih (hbest.setKey fun existing hexisting ↦ ?_) hnodup
    obtain ⟨hkey, hseen, -⟩ := hbest.best _ existing hexisting
    rw [List.map_append, List.map_append, List.append_assoc] at hnodup
    exact absurd hkey ((List.nodup_append.mp hnodup).2.2 _ (List.mem_map_of_mem hseen) _
      List.mem_cons_self)

/-- **A merge keeps the best** of a window and what is offered to it. -/
theorem isTop_mergeWindow (hnodup : (window.map Candidate.key).Nodup) :
    IsTop Candidate.key primaryKey limit (window ++ additions)
      (mergeWindow window additions limit) := by
  have hempty : BestOf [] [] := ⟨List.nodup_nil, by simp [getKey], by simp⟩
  have hbest : BestOf (window ++ additions) (additions.foldl offer
      (window.foldl (fun items item ↦ setKey items item.key item) [])) :=
    (hempty.foldl_setKey hnodup).foldl_offer additions
  refine isTop_take_ranked (fun _ _ hplace ↦ (primaryKey_eq_iff.mp hplace).1) ?_
    (fun item hitem ↦ ?_) (fun item hitem other hother hkey ↦ ?_) (fun item hitem ↦ ?_)
  · rw [List.map_map]
    exact (List.map_congr_left fun entry hmem ↦ (hbest.of_mem hmem).1) ▸ hbest.nodup
  · obtain ⟨entry, hmem, rfl⟩ := List.mem_map.mp hitem
    exact (hbest.of_mem hmem).2.1
  · obtain ⟨entry, hmem, rfl⟩ := List.mem_map.mp hitem
    obtain ⟨hown, -, hscores⟩ := hbest.of_mem hmem
    exact primaryKey_le_of_score_le hkey.symm (hscores other hother (hkey.trans hown))
  · obtain ⟨kept, hkept⟩ := hbest.present item hitem
    exact ⟨kept, List.mem_map.mpr ⟨_, mem_of_getKey_eq_some hkept, rfl⟩,
      (hbest.best _ kept hkept).1⟩

end Merging

/-! ### Any sequence of offers -/

/-- The window after a sequence of calls. -/
def runWindow (limit : ℕ) (calls : List (List Candidate)) : List Candidate :=
  calls.foldl (fun window additions ↦ mergeWindow window additions limit) []

/-- What the rank of a candidate depends on. -/
def Candidate.rank (candidate : Candidate) : (VectorEntity × Uuid) × Similarity :=
  (candidate.key, candidate.score)

/-- The loop keeps the best of what was offered so far. -/
theorem isTop_foldl_mergeWindow {limit : ℕ} {offers window : List Candidate}
    (htop : IsTop Candidate.key primaryKey limit offers window) (calls : List (List Candidate)) :
    IsTop Candidate.key primaryKey limit (offers ++ calls.flatten)
      (calls.foldl (fun window additions ↦ mergeWindow window additions limit) window) := by
  induction calls generalizing offers window with
  | nil => rwa [List.flatten_nil, List.append_nil]
  | cons additions calls ih =>
    have hmerge : IsTop Candidate.key primaryKey limit (window ++ additions) _ :=
      isTop_mergeWindow htop.nodup
    have hrest := ih (htop.merge hmerge)
    rwa [List.append_assoc] at hrest

/-- After any calls the window holds the best of what was offered in them. -/
theorem isTop_flatten_runWindow (limit : ℕ) (calls : List (List Candidate)) :
    IsTop Candidate.key primaryKey limit calls.flatten (runWindow limit calls) := by
  have hempty : IsTop Candidate.key primaryKey limit [] [] :=
    ⟨Nat.zero_le _, .nil, by simp, by simp, by simp⟩
  exact isTop_foldl_mergeWindow hempty calls

/-- Two sequences of calls that offer the same items leave the same keys with the same scores, in
the same order. -/
theorem map_rank_runWindow {limit : ℕ} {calls others : List (List Candidate)}
    (hsame : ∀ item, item ∈ calls.flatten ↔ item ∈ others.flatten) :
    (runWindow limit calls).map Candidate.rank = (runWindow limit others).map Candidate.rank := by
  have hplaces := (isTop_flatten_runWindow limit calls).map_place_eq
    (isTop_flatten_runWindow limit others) hsame
  have hranks : (runWindow limit calls).Forall₂ (fun first second ↦ first.rank = second.rank)
      (runWindow limit others) := by
    rw [← List.forall₂_eq_eq_eq, List.forall₂_map_left_iff, List.forall₂_map_right_iff] at hplaces
    refine hplaces.imp fun first second hplace ↦ ?_
    exact Prod.ext_iff.mpr (primaryKey_eq_iff.mp hplace)
  rw [← List.forall₂_eq_eq_eq, List.forall₂_map_left_iff, List.forall₂_map_right_iff]
  exact hranks

/-- **The window is a true top list.** For every limit and every sequence of calls: the window holds
the best items that were offered, each the best one under its key, and as many as the limit allows;
every sequence of calls that offers the same items, in whatever order and however they are put
together, leaves the same keys with the same scores in the same order, and the same items when these
are told apart by key and score; and a key that was cut comes back only with a score that is higher
than every one it was offered with until then. -/
theorem isTop_runWindow (limit : ℕ) (calls : List (List Candidate)) :
    IsTop Candidate.key primaryKey limit calls.flatten (runWindow limit calls) ∧
      (∀ others : List (List Candidate), others.flatten.Perm calls.flatten →
        (runWindow limit others).map Candidate.rank = (runWindow limit calls).map Candidate.rank ∧
          ((∀ first ∈ calls.flatten, ∀ second ∈ calls.flatten, first.rank = second.rank →
            first = second) → runWindow limit others = runWindow limit calls)) ∧
      ∀ before later : List (List Candidate), calls = before ++ later →
        ∀ item ∈ before.flatten, item.key ∉ (runWindow limit before).map Candidate.key →
          ∀ kept ∈ runWindow limit calls, kept.key = item.key → item.score < kept.score := by
  have htop := isTop_flatten_runWindow limit calls
  refine ⟨htop, fun others hperm ↦ ?_, fun before later hcalls item hitem hcut kept hkept hkey ↦ ?_⟩
  · have hranks : (runWindow limit others).map Candidate.rank = _ :=
      map_rank_runWindow fun item ↦ hperm.mem_iff
    refine ⟨hranks, fun hapart ↦ eq_of_map_eq (fun first hfirst second hsecond ↦ ?_) hranks⟩
    have hothers := isTop_flatten_runWindow limit others
    exact hapart first (hperm.mem_iff.mp (hothers.offered first hfirst)) second
      (htop.offered second hsecond)
  · have hmore : ∀ item ∈ before.flatten, item ∈ calls.flatten := by
      rw [hcalls, List.flatten_append]
      exact fun item hitem ↦ List.mem_append_left _ hitem
    exact score_lt_of_primaryKey_lt hkey ((isTop_flatten_runWindow limit before).lt_of_evicted htop
      hmore hitem hcut hkept hkey)

namespace Refinement

variable (search : Refinement ν)

/-- The window of the loop is that of what the primary candidates offer, call by call. -/
theorem window_foldl_turn (candidates : List Candidate) (state : RefinementState) :
    (candidates.foldl search.turn state).window =
      (candidates.map fun candidate ↦ (search.refine candidate).1).foldl
        (fun window additions ↦ mergeWindow window additions search.options.resultLimit)
        state.window := by
  induction candidates generalizing state with
  | nil => rfl
  | cons candidate candidates ih => exact ih _

/-- **A refined search returns the best of what its primary candidates offer.** -/
theorem isTop_execute : IsTop Candidate.key primaryKey search.options.resultLimit
    (search.primary.flatMap fun candidate ↦ (search.refine candidate).1)
    search.execute.results := by
  have hwindow : search.execute.results = runWindow search.options.resultLimit
      (search.primary.map fun candidate ↦ (search.refine candidate).1) := by
    have htop := isTop_flatten_runWindow search.options.resultLimit
      (search.primary.map fun candidate ↦ (search.refine candidate).1)
    have hloop : (search.primary.foldl search.turn {}).window = runWindow search.options.resultLimit
        (search.primary.map fun candidate ↦ (search.refine candidate).1) :=
      search.window_foldl_turn search.primary {}
    rw [execute, hloop, List.take_of_length_le htop.length]
  rw [hwindow, List.flatMap_def]
  exact isTop_flatten_runWindow _ _

end Refinement

end DocStore
