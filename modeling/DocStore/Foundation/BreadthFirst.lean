import DocStore.Foundation.Loop
import Mathlib.Data.Finset.Card
import Mathlib.Data.Finset.Dedup
import Mathlib.Data.List.Nodup
import Mathlib.Logic.Relation

/-!
# Breadth-first search with labels

A search goes from the roots through the children of what it has found, one level after the other.
What it finds are labelled keys, and it looks at a key once, with the label under which it comes to
it first: the children of a labelled key depend on its label. When every key comes with one label
only, the search ends with exactly the keys that can be reached from a root, without the roots
themselves and without repetitions (`exists_search`).
-/

set_option autoImplicit false
set_option relaxedAutoImplicit false

namespace DocStore.Foundation

open Relation

variable {ι κ : Type*} [DecidableEq ι]

/-- Where a search stands: the keys it has seen, those it has found beyond its roots, and the level
at which it looks next. -/
structure Search (ι κ : Type*) where
  seen : List (ι × κ)
  found : List ι
  frontier : List (ι × κ)

/-- Looks at a child, for the next level. -/
def Search.visit (search : Search ι κ) (child : ι × κ) : Search ι κ :=
  if child.1 ∈ search.seen.map Prod.fst then search
  else
    { seen := search.seen ++ [child]
      found := search.found ++ [child.1]
      frontier := search.frontier ++ [child] }

/-- A level of the search. -/
def searchTurn (children : ι × κ → List (ι × κ)) (search : Search ι κ) :
    Turn (Search ι κ) (List ι) :=
  if search.frontier.isEmpty then .stop search.found
  else .next (search.frontier.foldl
    (fun next parent ↦ (children parent).foldl Search.visit next) { search with frontier := [] })

/-- What visits add: some of the children, each key once and no key that has been seen, so that all
children are seen then. -/
structure Visited (search : Search ι κ) (children added : List (ι × κ)) (result : Search ι κ) :
    Prop where
  seen : result.seen = search.seen ++ added
  found : result.found = search.found ++ added.map Prod.fst
  frontier : result.frontier = search.frontier ++ added
  sound : ∀ child ∈ added, child ∈ children
  complete : ∀ child ∈ children, child.1 ∈ result.seen.map Prod.fst
  nodup : (search.seen.map Prod.fst).Nodup → (result.seen.map Prod.fst).Nodup

theorem exists_visited (search : Search ι κ) (children : List (ι × κ)) :
    ∃ added, Visited search children added (children.foldl Search.visit search) := by
  induction children generalizing search with
  | nil =>
    exact ⟨[], (List.append_nil _).symm, (List.append_nil _).symm, (List.append_nil _).symm,
      by simp, by simp, fun hnodup ↦ hnodup⟩
  | cons child children ih =>
    rw [List.foldl_cons, Search.visit]
    by_cases hseen : child.1 ∈ search.seen.map Prod.fst
    · rw [if_pos hseen]
      obtain ⟨added, hvisited⟩ := ih search
      refine ⟨added, hvisited.seen, hvisited.found, hvisited.frontier,
        fun other hother ↦ List.mem_cons_of_mem _ (hvisited.sound other hother),
        List.forall_mem_cons.mpr ⟨?_, hvisited.complete⟩, hvisited.nodup⟩
      rw [hvisited.seen, List.map_append]
      exact List.mem_append_left _ hseen
    · rw [if_neg hseen]
      obtain ⟨added, hvisited⟩ := ih
        { seen := search.seen ++ [child]
          found := search.found ++ [child.1]
          frontier := search.frontier ++ [child] }
      refine ⟨child :: added, ?_, ?_, ?_,
        List.forall_mem_cons.mpr ⟨List.mem_cons_self, fun other hother ↦
          List.mem_cons_of_mem _ (hvisited.sound other hother)⟩,
        List.forall_mem_cons.mpr ⟨?_, hvisited.complete⟩, fun hnodup ↦ hvisited.nodup ?_⟩
      · rw [hvisited.seen, List.append_assoc]
        rfl
      · rw [hvisited.found, List.append_assoc]
        rfl
      · rw [hvisited.frontier, List.append_assoc]
        rfl
      · rw [hvisited.seen]
        simp
      · rw [List.map_append, List.nodup_append]
        refine ⟨hnodup, List.nodup_singleton _, ?_⟩
        rintro key hkey _ hchild rfl
        exact hseen (List.mem_singleton.mp hchild ▸ hkey)

section Turns

variable {children : ι × κ → List (ι × κ)} {roots : List (ι × κ)} {known : ι × κ → Prop}

/-- What a level of the search comes to. -/
theorem searchTurn_cases (children : ι × κ → List (ι × κ)) (search : Search ι κ) :
    (search.frontier = [] ∧ searchTurn children search = .stop search.found) ∨
      search.frontier ≠ [] ∧ ∃ added result, searchTurn children search = .next result ∧
        Visited { search with frontier := [] } (search.frontier.flatMap children) added result := by
  by_cases hfrontier : search.frontier = []
  · exact .inl ⟨hfrontier, if_pos (by rw [hfrontier]; rfl)⟩
  · refine .inr ⟨hfrontier, ?_⟩
    obtain ⟨added, hvisited⟩ :=
      exists_visited { search with frontier := [] } (search.frontier.flatMap children)
    refine ⟨added, _, ?_, hvisited⟩
    rw [searchTurn, if_neg (by simpa using hfrontier), List.foldl_flatMap]

/-- What holds between the levels: everything seen can be reached, and what is not at the next level
has its children among it. -/
structure Searched (children : ι × κ → List (ι × κ)) (roots : List (ι × κ)) (search : Search ι κ) :
    Prop where
  seen : search.seen.map Prod.fst = roots.map Prod.fst ++ search.found
  nodup : (search.seen.map Prod.fst).Nodup
  begun : ∀ root ∈ roots, root ∈ search.seen
  frontier : ∀ entry ∈ search.frontier, entry ∈ search.seen
  reached : ∀ entry ∈ search.seen, ∃ root ∈ roots,
    ReflTransGen (fun parent child ↦ child ∈ children parent) root entry
  closed : ∀ entry ∈ search.seen, entry ∈ search.frontier ∨
    ∀ child ∈ children entry, child.1 ∈ search.seen.map Prod.fst

omit [DecidableEq ι] in
/-- A search begins at its roots. -/
theorem searched_start (hroots : (roots.map Prod.fst).Nodup) :
    Searched children roots { seen := roots, found := [], frontier := roots } where
  seen := (List.append_nil _).symm
  nodup := hroots
  begun := fun _ hroot ↦ hroot
  frontier := fun _ hentry ↦ hentry
  reached := fun entry hentry ↦ ⟨entry, hentry, .refl⟩
  closed := fun _ hentry ↦ .inl hentry

omit [DecidableEq ι] in
theorem Searched.turn {search result : Search ι κ} {added : List (ι × κ)}
    (hsearched : Searched children roots search)
    (hvisited : Visited { search with frontier := [] } (search.frontier.flatMap children) added
      result) : Searched children roots result := by
  have hseen : result.seen = search.seen ++ added := hvisited.seen
  have hfrontier : result.frontier = added := hvisited.frontier
  refine ⟨?_, hvisited.nodup hsearched.nodup, ?_, ?_, ?_, ?_⟩
  · rw [hseen, hvisited.found, List.map_append, hsearched.seen, List.append_assoc]
  · exact fun root hroot ↦ hseen ▸ List.mem_append_left _ (hsearched.begun root hroot)
  · rw [hfrontier, hseen]
    exact fun entry hentry ↦ List.mem_append_right _ hentry
  · rw [hseen]
    intro entry hentry
    rcases List.mem_append.mp hentry with hold | hnew
    · exact hsearched.reached entry hold
    · obtain ⟨parent, hparent, hchild⟩ := List.mem_flatMap.mp (hvisited.sound entry hnew)
      obtain ⟨root, hroot, hreached⟩ := hsearched.reached parent (hsearched.frontier parent hparent)
      exact ⟨root, hroot, hreached.tail hchild⟩
  · intro entry hentry
    rw [hseen] at hentry
    rcases List.mem_append.mp hentry with hold | hnew
    · refine .inr fun child hchild ↦ ?_
      rcases hsearched.closed entry hold with hlevel | hdone
      · exact hvisited.complete child (List.mem_flatMap.mpr ⟨entry, hlevel, hchild⟩)
      · rw [hseen, List.map_append]
        exact List.mem_append_left _ (hdone child hchild)
    · exact .inl (hfrontier ▸ hnew)

/-- Every level but the last sees something new, so the search ends. -/
theorem ends_search {candidates : List ι} (hroots : (roots.map Prod.fst).Nodup)
    (hcandidates : ∀ parent, ∀ child ∈ children parent, child.1 ∈ candidates) :
    Ends (searchTurn children) { seen := roots, found := [], frontier := roots } := by
  refine ends_of_measure (Searched children roots)
    (fun search ↦ (candidates.toFinset \ (search.seen.map Prod.fst).toFinset).card +
      search.frontier.length) (fun search next hsearched hturn ↦ ?_) (searched_start hroots)
  rcases searchTurn_cases children search with ⟨-, hstop⟩ |
    ⟨hfrontier, added, result, hnext, hvisited⟩
  · rw [hstop] at hturn
    cases hturn
  rw [hnext, Turn.next.injEq] at hturn
  subst hturn
  refine ⟨hsearched.turn hvisited, ?_⟩
  have hseen : result.seen.map Prod.fst = search.seen.map Prod.fst ++ added.map Prod.fst := by
    rw [hvisited.seen, List.map_append]
  have hnodup := hvisited.nodup hsearched.nodup
  rw [hseen, List.nodup_append] at hnodup
  obtain ⟨-, hadded, hapart⟩ := hnodup
  have hnew : (added.map Prod.fst).toFinset ⊆
      candidates.toFinset \ (search.seen.map Prod.fst).toFinset := by
    intro key hkey
    rw [List.mem_toFinset] at hkey
    obtain ⟨child, hchild, rfl⟩ := List.mem_map.mp hkey
    obtain ⟨parent, -, hmem⟩ := List.mem_flatMap.mp (hvisited.sound child hchild)
    rw [Finset.mem_sdiff, List.mem_toFinset, List.mem_toFinset]
    exact ⟨hcandidates parent child hmem, fun hold ↦ hapart _ hold _ hkey rfl⟩
  have hcard := Finset.card_sdiff_add_card_eq_card hnew
  rw [List.toFinset_card_of_nodup hadded, List.length_map, sdiff_sdiff_left,
    Finset.sup_eq_union] at hcard
  have hlevel : result.frontier.length = added.length := by
    rw [hvisited.frontier]
    rfl
  rw [hlevel, hseen, List.toFinset_append, hcard]
  exact Nat.lt_add_of_pos_right (List.length_pos_iff.mpr hfrontier)

/-- **A search finds what can be reached.** When the known labelled keys have one label each, and
children of known ones are known, the search ends, and what it has found are the keys that can be
reached from a root, without those of the roots. -/
theorem exists_search {candidates : List ι} (hroots : (roots.map Prod.fst).Nodup)
    (hcandidates : ∀ parent, ∀ child ∈ children parent, child.1 ∈ candidates)
    (hknown : ∀ root ∈ roots, known root)
    (hchildren : ∀ parent, known parent → ∀ child ∈ children parent, known child)
    (hlabel : ∀ first second, known first → known second → first.1 = second.1 → first = second) :
    ∃ found, EndsWith (searchTurn children) { seen := roots, found := [], frontier := roots } found ∧
      found.Nodup ∧ ∀ key, key ∈ found ↔ key ∉ roots.map Prod.fst ∧ ∃ label, ∃ root ∈ roots,
        ReflTransGen (fun parent child ↦ child ∈ children parent) root (key, label) := by
  obtain ⟨found, hends⟩ := ends_search hroots hcandidates
  refine ⟨found, hends, ?_⟩
  have hpost : ∃ search, Searched children roots search ∧ search.frontier = [] ∧
      search.found = found := by
    refine hends.post (Searched children roots)
      (fun found ↦ ∃ search, Searched children roots search ∧ search.frontier = [] ∧
        search.found = found) (searched_start hroots) (fun search next hsearched hturn ↦ ?_)
      fun search result hsearched hturn ↦ ?_
    · rcases searchTurn_cases children search with ⟨-, hstop⟩ |
        ⟨-, added, result, hnext, hvisited⟩
      · rw [hstop] at hturn
        cases hturn
      · rw [hnext, Turn.next.injEq] at hturn
        exact hturn ▸ hsearched.turn hvisited
    · rcases searchTurn_cases children search with ⟨hfrontier, hstop⟩ |
        ⟨-, added, next, hnext, -⟩
      · rw [hstop, Turn.stop.injEq] at hturn
        exact ⟨search, hsearched, hfrontier, hturn⟩
      · rw [hnext] at hturn
        cases hturn
  obtain ⟨search, hsearched, hfrontier, rfl⟩ := hpost
  have hkeys := hsearched.nodup
  rw [hsearched.seen, List.nodup_append] at hkeys
  obtain ⟨-, hnodup, hapart⟩ := hkeys
  have hreachedKnown : ∀ {root entry : ι × κ}, known root →
      ReflTransGen (fun parent child ↦ child ∈ children parent) root entry → known entry := by
    intro root entry hroot hreached
    induction hreached with
    | refl => exact hroot
    | tail _ hchild ih => exact hchildren _ ih _ hchild
  have hseenKnown : ∀ entry ∈ search.seen, known entry := by
    intro entry hentry
    obtain ⟨root, hroot, hreached⟩ := hsearched.reached entry hentry
    exact hreachedKnown (hknown root hroot) hreached
  -- The label under which a child is seen is the label of the child.
  have hclosed : ∀ entry ∈ search.seen, ∀ child ∈ children entry, child ∈ search.seen := by
    intro entry hentry child hchild
    rcases hsearched.closed entry hentry with hlevel | hdone
    · rw [hfrontier] at hlevel
      cases hlevel
    · obtain ⟨other, hother, hkey⟩ := List.mem_map.mp (hdone child hchild)
      have hsame := hlabel other child (hseenKnown other hother)
        (hchildren entry (hseenKnown entry hentry) child hchild) hkey
      exact hsame ▸ hother
  refine ⟨hnodup, fun key ↦ ⟨fun hmem ↦ ⟨fun hroot ↦ hapart key hroot key hmem rfl, ?_⟩, ?_⟩⟩
  · have hseen : key ∈ search.seen.map Prod.fst :=
      hsearched.seen ▸ List.mem_append_right _ hmem
    obtain ⟨entry, hentry, rfl⟩ := List.mem_map.mp hseen
    exact ⟨entry.2, hsearched.reached entry hentry⟩
  · rintro ⟨hnew, label, root, hroot, hreached⟩
    have hseen : (key, label) ∈ search.seen := by
      clear hnew
      generalize (key, label) = entry at hreached
      induction hreached with
      | refl => exact hsearched.begun root hroot
      | tail _ hchild ih => exact hclosed _ ih _ hchild
    have hkey : key ∈ search.seen.map Prod.fst := List.mem_map.mpr ⟨_, hseen, rfl⟩
    rw [hsearched.seen] at hkey
    exact (List.mem_append.mp hkey).resolve_left hnew

end Turns

end DocStore.Foundation
