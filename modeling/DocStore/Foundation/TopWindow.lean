import DocStore.Foundation.Ranking
import Mathlib.Data.List.Perm.Subperm

/-!
# The best of what was offered

Items are offered under keys, and every item has a place: a smaller one is better. `IsTop` says of a
window that it holds the best items of different keys, as many as the limit allows, each the best
one that was offered under its key. Such a window is determined by the items that were offered, in
whatever order (`IsTop.map_place_eq`); it can be computed from an earlier window in place of the
offers that this one was cut from (`IsTop.merge`); and a key that was cut does not come back with
what it was cut with (`IsTop.lt_of_evicted`).
-/

set_option autoImplicit false
set_option relaxedAutoImplicit false

namespace DocStore.Foundation

variable {α κ ρ : Type*} [LinearOrder ρ]

/-- A window on what was offered.
- `length`: it holds at most `limit` items;
- `sorted`: the better ones are in front;
- `offered` and `best`: each was offered, and nothing better under its key;
- `full`: a key that is missing was offered with nothing better than what a full window holds. -/
structure IsTop (key : α → κ) (place : α → ρ) (limit : ℕ) (offers window : List α) : Prop where
  length : window.length ≤ limit
  sorted : window.Pairwise fun first second ↦ place first < place second
  offered : ∀ item ∈ window, item ∈ offers
  best : ∀ item ∈ window, ∀ other ∈ offers, key other = key item → place item ≤ place other
  full : ∀ item ∈ offers, (∃ kept ∈ window, key kept = key item) ∨
    window.length = limit ∧ ∀ kept ∈ window, place kept < place item

namespace IsTop

variable {key : α → κ} {place : α → ρ} {limit : ℕ} {offers others additions window merged : List α}

/-- A window has no key twice. -/
theorem nodup (htop : IsTop key place limit offers window) : (window.map key).Nodup := by
  refine List.pairwise_map.mpr (htop.sorted.imp_of_mem fun {first second} hfirst hsecond hlt ↦ ?_)
  intro hkey
  exact absurd (htop.best second hsecond first (htop.offered first hfirst) hkey) (not_le.mpr hlt)

/-- The items of a window that have the same place are the same. -/
theorem eq_of_place_eq (htop : IsTop key place limit offers window) {first second : α}
    (hfirst : first ∈ window) (hsecond : second ∈ window) (hplace : place first = place second) :
    first = second := by
  have hne : (window.map place).Nodup := List.pairwise_map.mpr (htop.sorted.imp ne_of_lt)
  exact List.inj_on_of_nodup_map hne hfirst hsecond hplace

/-- No item can be kept with a new key, when a full window of other keys is kept as well. -/
theorem false_of_kept (hwindow : (window.map key).Nodup) (hlimit : window.length = limit)
    (hmerged : IsTop key place limit others merged)
    (hkept : ∀ kept ∈ window, key kept ∈ merged.map key) {item : α} (hitem : item ∈ merged)
    (hnew : key item ∉ window.map key) : False := by
  have hnodup : (key item :: window.map key).Nodup := List.nodup_cons.mpr ⟨hnew, hwindow⟩
  have hsubset : key item :: window.map key ⊆ merged.map key := by
    intro other hother
    rcases List.mem_cons.mp hother with rfl | hother
    · exact List.mem_map_of_mem hitem
    · obtain ⟨kept, hmem, rfl⟩ := List.mem_map.mp hother
      exact hkept kept hmem
  have hlength := (List.subperm_of_subset hnodup hsubset).length_le
  rw [List.length_cons, List.length_map, List.length_map, hlimit] at hlength
  exact absurd (hlength.trans hmerged.length) (Nat.not_succ_le_self limit)

/-- When what a full window holds is offered on, an item behind all of it under a key of its own is
not kept. -/
theorem not_behind (hwindow : (window.map key).Nodup) (hlimit : window.length = limit)
    (hmerged : IsTop key place limit others merged)
    (hoffered : ∀ kept ∈ window, kept ∈ others) {item : α} (hitem : item ∈ merged)
    (hnew : key item ∉ window.map key) (hbehind : ∀ kept ∈ window, place kept < place item) :
    False := by
  refine false_of_kept hwindow hlimit hmerged (fun kept hkept ↦ ?_) hitem hnew
  rcases hmerged.full kept (hoffered kept hkept) with ⟨again, hagain, hkey⟩ | ⟨-, hfull⟩
  · exact List.mem_map.mpr ⟨again, hagain, hkey⟩
  · exact absurd (hbehind kept hkept) (not_lt.mpr (hfull item hitem).le)

/-- The items of one of two windows on the same offers are matched in the other. -/
theorem exists_place_eq (htop : IsTop key place limit offers window)
    (hother : IsTop key place limit others merged) (hsame : ∀ item, item ∈ offers ↔ item ∈ others)
    {item : α} (hitem : item ∈ merged) : ∃ kept ∈ window, place kept = place item := by
  have hoffered := (hsame item).mpr (hother.offered item hitem)
  rcases htop.full item hoffered with ⟨kept, hkept, hkey⟩ | ⟨hlimit, hbehind⟩
  · refine ⟨kept, hkept, le_antisymm (htop.best kept hkept item hoffered hkey.symm) ?_⟩
    exact hother.best item hitem kept ((hsame kept).mp (htop.offered kept hkept)) hkey
  · by_cases hkey : key item ∈ window.map key
    · obtain ⟨kept, hkept, hkey⟩ := List.mem_map.mp hkey
      have hle := hother.best item hitem kept ((hsame kept).mp (htop.offered kept hkept)) hkey
      exact absurd (hbehind kept hkept) (not_lt.mpr hle)
    · exact (not_behind htop.nodup hlimit hother
        (fun kept hkept ↦ (hsame kept).mp (htop.offered kept hkept)) hitem hkey hbehind).elim

/-- **A window is determined by what was offered**, up to items of the same place. -/
theorem map_place_eq (htop : IsTop key place limit offers window)
    (hother : IsTop key place limit others merged)
    (hsame : ∀ item, item ∈ offers ↔ item ∈ others) : window.map place = merged.map place := by
  have hfirst : (window.map place).Pairwise (· < ·) := List.pairwise_map.mpr htop.sorted
  have hsecond : (merged.map place).Pairwise (· < ·) := List.pairwise_map.mpr hother.sorted
  have hmem : ∀ value, value ∈ window.map place ↔ value ∈ merged.map place := by
    intro value
    rw [List.mem_map, List.mem_map]
    constructor
    · rintro ⟨item, hitem, rfl⟩
      exact exists_place_eq hother htop (fun other ↦ (hsame other).symm) hitem
    · rintro ⟨item, hitem, rfl⟩
      exact exists_place_eq htop hother hsame hitem
  have hperm : (window.map place).Perm (merged.map place) :=
    (List.perm_ext_iff_of_nodup (hfirst.imp ne_of_lt) (hsecond.imp ne_of_lt)).mpr hmem
  exact hperm.eq_of_pairwise (fun _ _ _ _ hlt hgt ↦ absurd hlt (not_lt.mpr hgt.le)) hfirst hsecond

/-- **A window stands for the offers it was cut from**: a window on it and on further offers is one
on all of them. -/
theorem merge (htop : IsTop key place limit offers window)
    (hmerged : IsTop key place limit (window ++ additions) merged) :
    IsTop key place limit (offers ++ additions) merged := by
  have hagain : ∀ kept ∈ window, kept ∈ window ++ additions :=
    fun kept hkept ↦ List.mem_append_left _ hkept
  refine ⟨hmerged.length, hmerged.sorted, fun item hitem ↦ ?_,
    fun item hitem other hother hkey ↦ ?_, fun item hitem ↦ ?_⟩
  · rcases List.mem_append.mp (hmerged.offered item hitem) with hkept | hadded
    · exact List.mem_append_left _ (htop.offered item hkept)
    · exact List.mem_append_right _ hadded
  · rcases List.mem_append.mp hother with hother | hadded
    · rcases htop.full other hother with ⟨kept, hkept, hsame⟩ | ⟨hlimit, hbehind⟩
      · exact (hmerged.best item hitem kept (hagain kept hkept) (hsame.trans hkey)).trans
          (htop.best kept hkept other hother hsame.symm)
      · by_cases hpresent : key item ∈ window.map key
        · obtain ⟨kept, hkept, hsame⟩ := List.mem_map.mp hpresent
          exact (hmerged.best item hitem kept (hagain kept hkept) hsame).trans
            (hbehind kept hkept).le
        · refine not_lt.mp fun hlt ↦ not_behind htop.nodup hlimit hmerged hagain hitem hpresent ?_
          exact fun kept hkept ↦ (hbehind kept hkept).trans hlt
    · exact hmerged.best item hitem other (List.mem_append_right _ hadded) hkey
  · rcases List.mem_append.mp hitem with hold | hadded
    · rcases htop.full item hold with ⟨kept, hkept, hkey⟩ | ⟨hlimit, hbehind⟩
      · rcases hmerged.full kept (hagain kept hkept) with ⟨again, hmem, hsame⟩ | ⟨hfull, hlt⟩
        · exact .inl ⟨again, hmem, hsame.trans hkey⟩
        · exact .inr ⟨hfull, fun again hmem ↦
            (hlt again hmem).trans_le (htop.best kept hkept item hold hkey.symm)⟩
      · by_cases hall : ∀ kept ∈ window, key kept ∈ merged.map key
        · right
          have hsubset : window.map key ⊆ merged.map key := by
            intro other hother
            obtain ⟨kept, hkept, rfl⟩ := List.mem_map.mp hother
            exact hall kept hkept
          have hcount := (List.subperm_of_subset htop.nodup hsubset).length_le
          rw [List.length_map, List.length_map, hlimit] at hcount
          refine ⟨le_antisymm hmerged.length hcount, fun again hmem ↦ ?_⟩
          have hpresent : key again ∈ window.map key :=
            by_contra fun hnew ↦ false_of_kept htop.nodup hlimit hmerged hall hmem hnew
          obtain ⟨kept, hkept, hkey⟩ := List.mem_map.mp hpresent
          exact (hmerged.best again hmem kept (hagain kept hkept) hkey).trans_lt
            (hbehind kept hkept)
        · push Not at hall
          obtain ⟨kept, hkept, hmissing⟩ := hall
          rcases hmerged.full kept (hagain kept hkept) with ⟨again, hmem, hsame⟩ | ⟨hfull, hlt⟩
          · exact absurd (List.mem_map.mpr ⟨again, hmem, hsame⟩) hmissing
          · exact .inr ⟨hfull, fun again hmem ↦ (hlt again hmem).trans (hbehind kept hkept)⟩
    · exact hmerged.full item (List.mem_append_right _ hadded)

/-- **A key that was cut comes back only with something better** than what it was cut with. -/
theorem lt_of_evicted (htop : IsTop key place limit offers window)
    (hlater : IsTop key place limit others merged) (hmore : ∀ item ∈ offers, item ∈ others)
    {item kept : α} (hitem : item ∈ offers) (hcut : key item ∉ window.map key)
    (hkept : kept ∈ merged) (hkey : key kept = key item) : place kept < place item := by
  rcases htop.full item hitem with ⟨again, hagain, hsame⟩ | ⟨hlimit, hbehind⟩
  · exact absurd (List.mem_map.mpr ⟨again, hagain, hsame⟩) hcut
  · refine not_le.mp fun hle ↦ ?_
    exact not_behind htop.nodup hlimit hlater
      (fun other hother ↦ hmore other (htop.offered other hother)) hkept (hkey ▸ hcut)
      fun other hother ↦ (hbehind other hother).trans_le hle

end IsTop

/-- The ranking of the best items, one for every key, is cut to a window. -/
theorem isTop_take_ranked {key : α → κ} {place : α → ρ} {limit : ℕ} {offers values : List α}
    (hplace : ∀ first second, place first = place second → key first = key second)
    (hnodup : (values.map key).Nodup) (hoffered : ∀ item ∈ values, item ∈ offers)
    (hbest : ∀ item ∈ values, ∀ other ∈ offers, key other = key item → place item ≤ place other)
    (hpresent : ∀ item ∈ offers, ∃ value ∈ values, key value = key item) :
    IsTop key place limit offers ((ranked place values).take limit) := by
  have hplaces : (values.map place).Nodup :=
    List.pairwise_map.mpr ((List.pairwise_map.mp hnodup).imp fun hne heq ↦ hne (hplace _ _ heq))
  have hsorted := pairwise_lt_ranked hplaces
  refine ⟨List.length_take_le _ _, hsorted.sublist (List.take_sublist _ _), fun item hitem ↦ ?_,
    fun item hitem ↦ ?_, fun item hitem ↦ ?_⟩
  · exact hoffered item (mem_ranked.mp (List.mem_of_mem_take hitem))
  · exact hbest item (mem_ranked.mp (List.mem_of_mem_take hitem))
  · obtain ⟨value, hvalue, hkey⟩ := hpresent item hitem
    have hsplit := List.take_append_drop limit (ranked place values)
    rw [← @mem_ranked _ _ _ place, ← hsplit, List.mem_append] at hvalue
    rcases hvalue with hkept | hcut
    · exact .inl ⟨value, hkept, hkey⟩
    · rw [← hsplit] at hsorted
      have hvalues := mem_ranked.mp (List.mem_of_mem_drop hcut)
      have hlong : limit ≤ (ranked place values).length := by
        have hpositive := List.length_pos_of_mem hcut
        rw [List.length_drop] at hpositive
        omega
      refine .inr ⟨List.length_take_of_le hlong, fun kept hkept ↦ ?_⟩
      exact ((List.pairwise_append.mp hsorted).2.2 kept hkept value hcut).trans_le
        (hbest value hvalues item hitem hkey.symm)

end DocStore.Foundation
