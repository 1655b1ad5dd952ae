import Mathlib.Data.List.Basic

/-!
# Owners that are there

An ownership is a list of entities, each with the entity that owns it. It is well owned when every
registered entity and every owner is one of its entities. Entities may be added under owners that
are there and handed over to such owners; entities may be removed that own nothing which stays.
-/

set_option autoImplicit false
set_option relaxedAutoImplicit false

namespace DocStore.Foundation

variable {κ : Type*}

/-- Every registered entity and every owner is an entity. -/
structure WellOwned (registry : List κ) (ownership : List (κ × Option κ)) : Prop where
  present : ∀ id ∈ registry, ∃ above, (id, above) ∈ ownership
  owner : ∀ id owner, (id, some owner) ∈ ownership → ∃ above, (owner, above) ∈ ownership

variable {registry later : List κ} {ownership next : List (κ × Option κ)}

/-- All entities stay, none is new, and an owner that changes is there. -/
theorem WellOwned.rebind (howned : WellOwned registry ownership)
    (hkept : ∀ id above, (id, above) ∈ ownership → ∃ other, (id, other) ∈ next)
    (howner : ∀ id owner, (id, some owner) ∈ next →
      (id, some owner) ∈ ownership ∨ ∃ above, (owner, above) ∈ ownership) :
    WellOwned registry next where
  present := by
    intro id hregistered
    obtain ⟨above, hmem⟩ := howned.present id hregistered
    exact hkept id above hmem
  owner := by
    intro id owner hmem
    obtain ⟨above, hthere⟩ : ∃ above, (owner, above) ∈ ownership := by
      rcases howner id owner hmem with hold | hthere
      · exact howned.owner id owner hold
      · exact hthere
    exact hkept owner above hthere

/-- An entity is registered and added under an owner that is there. -/
theorem WellOwned.insert (howned : WellOwned registry ownership) (id : κ) (above : Option κ)
    (hregistry : ∀ other ∈ later, other ∈ registry ∨ other = id)
    (hnext : ∀ entry, entry ∈ next ↔ entry ∈ ownership ∨ entry = (id, above))
    (habove : ∀ owner, above = some owner → ∃ higher, (owner, higher) ∈ ownership) :
    WellOwned later next where
  present := by
    intro other hother
    rcases hregistry other hother with hold | rfl
    · obtain ⟨higher, hmem⟩ := howned.present other hold
      exact ⟨higher, (hnext _).mpr (Or.inl hmem)⟩
    · exact ⟨above, (hnext _).mpr (Or.inr rfl)⟩
  owner := by
    intro other owner hmem
    obtain ⟨higher, hthere⟩ : ∃ higher, (owner, higher) ∈ ownership := by
      rcases (hnext _).mp hmem with hold | hnew
      · exact howned.owner other owner hold
      · exact habove owner (congrArg Prod.snd hnew).symm
    exact ⟨higher, (hnext _).mpr (Or.inl hthere)⟩

/-- Entities are removed that own nothing which stays; what is still registered stays. -/
theorem WellOwned.remove (howned : WellOwned registry ownership) (gone : List (κ × Option κ))
    (hpresent : ∀ id ∈ later, ∃ above, (id, above) ∈ next)
    (hsplit : ∀ entry ∈ ownership, entry ∈ next ∨ entry ∈ gone)
    (hsubset : ∀ entry ∈ next, entry ∈ ownership)
    (hfree : ∀ id owner, (id, some owner) ∈ next → ∀ above, (owner, above) ∉ gone) :
    WellOwned later next where
  present := hpresent
  owner := by
    intro id owner hmem
    obtain ⟨above, hthere⟩ := howned.owner id owner (hsubset _ hmem)
    exact ⟨above, (hsplit _ hthere).resolve_right (hfree id owner hmem above)⟩

end DocStore.Foundation
