import DocStore.Foundation.Batches
import DocStore.Temporal.SoftDeletion

/-!
# What a restoration brings back

Restoring a deletion shows the object over the whole interval of the deletion, with a copy of the
payload of the assertion that the deletion supersedes. Whether that is what was deleted depends on
how the deletion came about, so the history is followed here with the payload rows of its assertions
and with what each instant showed when it was last not deleted (`Ledger`). `restoresExactly_of_steps`
says under which condition on the writes every accepted deletion of every history can be undone: a
deletion has to take the place of an assertion that is none, within its interval.
-/

set_option autoImplicit false
set_option relaxedAutoImplicit false

namespace DocStore

open Foundation

/-! ### Histories with payloads -/

/-- A history with the payload rows of its assertions. `shown` is kept for the statements only: what
a family showed at an instant when that was last not deleted, nothing or an assertion with its
payload row, if any. -/
structure Ledger (P : Type) where
  history : History
  payloads : Uuid → Option P
  shown : Uuid → Text → Instant → Option (Option P)

/-- A write with its payload callbacks: whether it is given a `payload_copier`, and what a
`payload_writer` or the caller stores for an assertion under its UUID. -/
structure LedgerWrite (P : Type) where
  write : Write
  copies : Bool
  written : Uuid → Option P

section Ledgers

variable {P : Type}

/-- The payload row that a copier stores for a copy of an assertion. -/
def LedgerWrite.copied (write : LedgerWrite P) (payloads : Uuid → Option P) (source : Option Uuid) :
    Option P :=
  if write.copies then source.bind payloads else none

/-- The assertion whose payload a restoration copies: the one that the deletion supersedes, else the
deletion itself. -/
def restoredSource (history : History) (deletionAssertionId : Uuid) : Uuid :=
  ((lookup Assertion.assertionId deletionAssertionId history).bind
    Assertion.supersedesAssertionId).getD deletionAssertionId

/-- The payload row that a write stores for an assertion it has appended. A successor is a copy of
what it supersedes, but for the corrected segment of a replacement, which the caller writes, and that
of a deletion, which has none. -/
def LedgerWrite.payload (write : LedgerWrite P) (history : History) (payloads : Uuid → Option P)
    (row : Assertion) : Option P :=
  match write.write.writer with
  | .service (.create _ _ _ _ _ _) => write.written row.assertionId
  | .service (.supersede _ _ _ _ _) => write.copied payloads row.supersedesAssertionId
  | .service (.close _ _ _) => write.copied payloads row.supersedesAssertionId
  | .service (.replace _ effectiveFrom effectiveUntil _) =>
    if row.effective.overlaps { start := effectiveFrom, stop := effectiveUntil } then
      write.written row.assertionId
    else write.copied payloads row.supersedesAssertionId
  | .service (.softDelete _ _ _ _ _ _) =>
    if row.assertionKind = .deletion then none
    else write.copied payloads row.supersedesAssertionId
  | .service (.restore deletionAssertionId _) =>
    write.copied payloads (some (restoredSource history deletionAssertionId))
  | .ingestion _ _ => write.written row.assertionId

/-- Whether an accepted deletion is effective at an instant. -/
def isDeleted (objectId : Uuid) (payloadFamily : Text) (rows : History) (instant : Instant) :
    Bool :=
  (familyAccepted objectId payloadFamily rows).any fun row ↦
    row.assertionKind = .deletion && effectiveAt row instant

/-- Commits a write with its payload rows. -/
def Ledger.commit (ledger : Ledger P) (write : LedgerWrite P) : Option (Ledger P) :=
  (DocStore.commit ledger.history write.write).map fun history ↦
    let payloads := fun assertionId ↦
      match lookup Assertion.assertionId assertionId (history.drop ledger.history.length) with
      | some row => write.payload ledger.history ledger.payloads row
      | none => ledger.payloads assertionId
    { history, payloads
      shown := fun objectId payloadFamily instant ↦
        if isDeleted objectId payloadFamily history instant then
          ledger.shown objectId payloadFamily instant
        else (inForce objectId payloadFamily history instant).map fun row ↦
          payloads row.assertionId }

/-- A ledger without assertions. -/
def emptyLedger : Ledger P where
  history := []
  payloads _ := none
  shown _ _ _ := none

/-- What restoring has to do in a ledger: whatever accepted deletion it undoes with a copier, once
everything is known, the reader of the family finds an assertion at an instant of the deletion
exactly when the family showed one there before it was deleted, and with the payload row it had. -/
def RestoresExactly (ledger : Ledger P) : Prop :=
  ∀ deletion ∈ acceptedRows ledger.history, deletion.assertionKind = .deletion →
    ∀ (write : LedgerWrite P) (acceptance : Acceptance),
      write.write.writer = .service (.restore deletion.assertionId acceptance) →
      write.copies = true → (write.write.objects.kind deletion.objectId).isSome = true →
      write.write.context.Fresh 1 ledger.history →
        ∃ next, ledger.commit write = some next ∧
          ∀ pair : ResolvedTimePair, RecordedBy pair.knownAt next.history →
            containsInstant deletion.effective pair.actDate = true → ∃ answer,
              selectVisibleAssertion
                  (familyRows deletion.objectId deletion.payloadFamily next.history) pair =
                .ok answer ∧
              Option.Rel (fun payload row ↦ next.payloads row.assertionId = payload)
                (ledger.shown deletion.objectId deletion.payloadFamily pair.actDate) answer

/-! ### The condition on the writes -/

/-- The roots of a deletion and, on request, their descendants. -/
def deletionTargets (objects : Objects) (objectIds : List Uuid) (includeDescendants : Bool) :
    List Uuid :=
  objectIds.eraseDups ++
    if includeDescendants then
      (objects.descendants objectIds.eraseDups).eraseDups.filter fun objectId ↦
        !objectIds.eraseDups.contains objectId
    else []

/-- A write that appends a deletion only in the place of an assertion that is none, within its
interval. It creates no deletion, it turns nothing into a deletion that is one already or beyond its
interval, it replaces no deletion in part, it deletes no object without an accepted assertion of the
family, and an append of the ingestion finds the earlier states ended. -/
def DeletesInPlace (ledger : Ledger P) (write : LedgerWrite P) : Prop :=
  match write.write.writer with
  | .service (.create _ _ _ _ assertionKind _) => assertionKind ≠ .deletion
  | .service (.supersede assertionId effectiveFrom effectiveUntil assertionKind _) =>
    assertionKind = .deletion → ∀ prior ∈ ledger.history, prior.assertionId = assertionId →
      prior.assertionKind ≠ .deletion ∧
        containsInterval prior.effective (windowOver prior effectiveFrom effectiveUntil) = true
  | .service (.close _ _ _) => True
  | .service (.replace assertionId effectiveFrom effectiveUntil _) =>
    ∀ prior ∈ ledger.history, prior.assertionId = assertionId → prior.assertionKind = .deletion →
      containsInterval { start := effectiveFrom, stop := effectiveUntil } prior.effective = true
  | .service (.softDelete objectIds includeDescendants _ _ payloadFamily _) =>
    ∀ objectId ∈ deletionTargets write.write.objects objectIds includeDescendants,
      ∀ kind ∈ write.write.objects.kind objectId,
        acceptedPayloadRowsInFamily objectId (namedFamily payloadFamily kind) ledger.history ≠ []
  | .service (.restore _ _) => True
  | .ingestion documentId _ =>
    EarlierStatesEnded documentId write.write.context.now ledger.history

instance : ∀ (ledger : Ledger P) (write : LedgerWrite P), Decidable (DeletesInPlace ledger write)
  | _, { write := { writer := .service (.create _ _ _ _ assertionKind _), .. }, .. } =>
    inferInstanceAs (Decidable (assertionKind ≠ .deletion))
  | ledger, { write := { writer := .service (.supersede _ _ _ _ _), .. }, .. } =>
    inferInstanceAs (Decidable (_ → ∀ prior ∈ ledger.history, _))
  | _, { write := { writer := .service (.close _ _ _), .. }, .. } =>
    inferInstanceAs (Decidable True)
  | ledger, { write := { writer := .service (.replace _ _ _ _), .. }, .. } =>
    inferInstanceAs (Decidable (∀ prior ∈ ledger.history, _))
  | _, { write := { objects, writer := .service (.softDelete objectIds descendants _ _ _ _), .. },
         .. } =>
    List.decidableBAll
      (p := fun objectId ↦ ∀ kind ∈ objects.kind objectId, acceptedPayloadRowsInFamily _ _ _ ≠ [])
      (deletionTargets objects objectIds descendants)
  | _, { write := { writer := .service (.restore _ _), .. }, .. } =>
    inferInstanceAs (Decidable True)
  | ledger, { write := { context, writer := .ingestion documentId _, .. }, .. } =>
    inferInstanceAs (Decidable (EarlierStatesEnded documentId context.now ledger.history))

end Ledgers

/-! ### Deletions in the place of an assertion -/

/-- An assertion in the place of another of its object and family: it supersedes it and lies within
its interval. -/
structure TakesPlaceOf (row old : Assertion) : Prop where
  object : row.objectId = old.objectId
  family : row.payloadFamily = old.payloadFamily
  supersedes : row.supersedesAssertionId = some old.assertionId
  within : ∀ instant, effectiveAt row instant = true → effectiveAt old instant = true

/-- Every deletion among some rows takes the place of an accepted assertion that is none. -/
def Removes (history added : History) : Prop :=
  ∀ row ∈ added, row.assertionKind = .deletion → ∃ old ∈ acceptedRows history,
    old.assertionKind ≠ .deletion ∧ TakesPlaceOf row old

section Removing

variable {objects : Objects} {context : TxContext} {history final added : History}
  {acceptance : Acceptance}

/-- A correction finds an accepted assertion. -/
theorem acceptedRows_of_acceptablePrior {assertionId : Uuid} {prior : Assertion}
    (hrun : (acceptablePrior assertionId).run history = .ok (prior, final)) :
    final = history ∧ prior ∈ acceptedRows history ∧ prior.assertionId = assertionId := by
  unfold acceptablePrior at hrun
  rw [Program.run_select_bind] at hrun
  split at hrun
  next => cases hrun
  next found hfound =>
    have hid : found.assertionId = assertionId := by simpa using List.find?_some hfound
    rw [checkSuccessor, Program.run_select_bind] at hrun
    split at hrun
    next => cases hrun
    next hfree =>
      cases hrun
      refine ⟨rfl, mem_acceptedRows.mpr ⟨List.mem_of_find?_eq_some hfound, fun later hlater ↦ ?_⟩,
        hid⟩
      simpa [hid] using List.find?_eq_none.mp hfree later hlater

/-- The rows of one append. -/
theorem removes_of_append {objectId : Uuid} {payloadFamily : Text} {assertionKind : AssertionKind}
    {interval : Interval} {supersedes : Option Uuid} {ignore : List Uuid} {row : Assertion}
    (hplace : assertionKind = .deletion → ∃ old ∈ acceptedRows history,
      old.assertionKind ≠ .deletion ∧ objectId = old.objectId ∧ payloadFamily = old.payloadFamily ∧
        supersedes = some old.assertionId ∧ containsInterval old.effective interval = true)
    (hrun : (append context objectId payloadFamily assertionKind interval supersedes acceptance
      ignore).run history = .ok (row, final)) :
    ∃ added, final = history ++ added ∧ Removes history added := by
  obtain ⟨-, hrow, rfl⟩ := append_eq_ok.mp hrun
  obtain ⟨-, hobject, hfamily, heffective, hsupersedes, -⟩ := newAssertion_eq_ok hrow
  refine ⟨[row], rfl, List.forall_mem_singleton.mpr fun hdeletion ↦ ?_⟩
  obtain ⟨old, hold, hkind, hobject', hfamily', hsupersedes', hwithin⟩ :=
    hplace ((kind_of_newAssertion hrow).1.symm.trans hdeletion)
  exact ⟨old, hold, hkind, hobject.trans hobject', hfamily.trans hfamily',
    hsupersedes.trans hsupersedes', fun instant hinstant ↦
      containsInstant_of_containsInterval hwithin (heffective ▸ hinstant)⟩

/-- The rows of a split: copies of an assertion that is no deletion are none, and the window of a
replacement leaves no copy of a deletion. -/
theorem removes_of_split {prior : Assertion} {window : Interval} {correctedKind : AssertionKind}
    {result : Unit} (hprior : prior ∈ acceptedRows history)
    (hcorrected : correctedKind = .deletion → prior.assertionKind ≠ .deletion)
    (hcopies : prior.assertionKind = .deletion → containsInterval window prior.effective = true)
    (hrun : (split context prior window correctedKind acceptance).run history =
      .ok (result, final)) :
    ∃ added, final = history ++ added ∧ Removes history added := by
  obtain ⟨corrected, added, hclipped, rfl, hsegments, hsuccessors, -⟩ :=
    split_eq_ok (mem_acceptedRows.mp hprior).1 hrun
  have hdivides := divides_of_segments hclipped hsegments
  refine ⟨added, rfl, fun row hrow hdeletion ↦ ?_⟩
  have hplace : TakesPlaceOf row prior := ⟨(hsuccessors.owned row hrow).1,
    (hsuccessors.owned row hrow).2, hsuccessors.supersedes row hrow, fun instant hinstant ↦
      (hdivides.covered instant).mpr ⟨row, hrow, hinstant⟩⟩
  refine ⟨prior, hprior, fun hkind ↦ ?_, hplace⟩
  rcases inside_or_outside hclipped hsegments hrow with ⟨hrowKind, -⟩ | ⟨-, hside⟩
  · exact hcorrected (hrowKind.symm.trans hdeletion) hkind
  · obtain ⟨instant, hinstant⟩ := hdivides.inhabited row hrow
    have hwindow := containsInstant_of_containsInterval (hcopies hkind)
      (hplace.within instant hinstant)
    rw [hside instant hinstant] at hwindow
    cases hwindow

/-- The rows of a deletion of one object belong to it, and its deletion takes the place of an
accepted assertion when there is one. -/
theorem removes_of_deleteOne {objectId : Uuid} {kind : Text} {effectiveFrom : Option Instant}
    {effectiveUntil : Option (Option Instant)} {named : Option Text} {result : Unit}
    (haccepted : acceptedPayloadRowsInFamily objectId (namedFamily named kind) history ≠ [])
    (hrun : (deleteOne context objectId kind effectiveFrom effectiveUntil named acceptance).run
      history = .ok (result, final)) :
    ∃ added, final = history ++ added ∧ Removes history added ∧
      ∃ prior, Successors history objectId (namedFamily named kind) (some prior) added := by
  obtain ⟨family, _, hfamily, hrest⟩ := Program.run_bind_eq_ok.mp hrun
  obtain ⟨rfl, rfl⟩ := payloadFamilyOf_eq_ok hfamily
  obtain ⟨prior, _, hprior, hthen⟩ := Program.run_bind_eq_ok.mp hrest
  obtain ⟨rfl, -⟩ := deletionPrior_eq_ok hprior
  have hselects := selects_of_deletionPrior hprior
  cases prior with
  | none =>
    cases hselects with
    | nothing _ _ hempty => exact absurd hempty haccepted
  | some prior =>
    obtain ⟨window, _, hwindow, hlast⟩ := Program.run_bind_eq_ok.mp hthen
    obtain ⟨rfl, -, rfl⟩ := mkInterval_eq_ok.mp hwindow
    obtain ⟨hstanding, hkind⟩ := mem_acceptedPayloadRows.mp hselects.mem
    obtain ⟨hlive, hobject, hnamed⟩ := mem_familyAccepted.mp hstanding
    obtain ⟨added, rfl, hremoves⟩ := removes_of_split hlive (fun _ ↦ hkind)
      (fun hdeletion ↦ absurd hdeletion hkind) hlast
    obtain ⟨_, others, -, heq, -, hsuccessors, -⟩ :=
      split_eq_ok (mem_acceptedRows.mp hlive).1 hlast
    obtain rfl := List.append_cancel_left heq
    exact ⟨added, rfl, hremoves, prior, hobject ▸ hnamed ▸ hsuccessors⟩

/-- The row of a supersession. -/
theorem removes_of_supersede {assertionId : Uuid} {effectiveFrom : Option Instant}
    {effectiveUntil : Option (Option Instant)} {assertionKind : AssertionKind} {result : Unit}
    (hplace : assertionKind = .deletion → ∀ prior ∈ history, prior.assertionId = assertionId →
      prior.assertionKind ≠ .deletion ∧
        containsInterval prior.effective (windowOver prior effectiveFrom effectiveUntil) = true)
    (hrun : (supersedeAssertion objects context assertionId effectiveFrom effectiveUntil
      assertionKind acceptance).run history = .ok (result, final)) :
    ∃ added, final = history ++ added ∧ Removes history added := by
  obtain ⟨prior, _, hprior, hrest⟩ := Program.run_bind_eq_ok.mp hrun
  obtain ⟨rfl, hlive, hid⟩ := acceptedRows_of_acceptablePrior hprior
  obtain ⟨_, _, hlocked, hthen⟩ := Program.run_bind_eq_ok.mp hrest
  obtain rfl := (silent_lockedObject _ _).run_eq hlocked
  obtain ⟨interval, _, hinterval, hlast⟩ := Program.run_bind_eq_ok.mp hthen
  obtain ⟨rfl, -, rfl⟩ := mkInterval_eq_ok.mp hinterval
  obtain ⟨row, _, hrow, hdone⟩ := Program.run_bind_eq_ok.mp hlast
  cases hdone
  refine removes_of_append (fun hdeletion ↦ ?_) hrow
  obtain ⟨hkind, hwithin⟩ := hplace hdeletion prior (mem_acceptedRows.mp hlive).1 hid
  exact ⟨prior, hlive, hkind, rfl, rfl, congrArg some hid.symm, hwithin⟩

/-- The rows of the deletions of several objects. -/
theorem removes_of_deleteAll {effectiveFrom : Option Instant}
    {effectiveUntil : Option (Option Instant)} {named : Option Text} {targets : List (Uuid × Text)}
    {result : Unit} (hlinked : Linked history) (hnodup : (targets.map Prod.fst).Nodup)
    (haccepted : ∀ target ∈ targets,
      acceptedPayloadRowsInFamily target.1 (namedFamily named target.2) history ≠ [])
    (hrun : (deleteAll context effectiveFrom effectiveUntil named acceptance targets).run history =
      .ok (result, final)) :
    ∃ added, final = history ++ added ∧ Removes history added ∧
      ∀ row ∈ added, row.objectId ∈ targets.map Prod.fst := by
  induction targets generalizing history with
  | nil =>
    cases hrun
    exact ⟨[], by simp, List.forall_mem_nil _, List.forall_mem_nil _⟩
  | cons target targets ih =>
    obtain ⟨hfirst, hothers⟩ := List.nodup_cons.mp hnodup
    obtain ⟨_, middle, hdeleted, hrest⟩ := Program.run_bind_eq_ok.mp hrun
    have hlinked' := hlinked.guarded (guarded_deleteOne hdeleted)
    obtain ⟨first, rfl, hremoves, prior, hsuccessors⟩ :=
      removes_of_deleteOne (haccepted target List.mem_cons_self) hdeleted
    have hsame : ∀ other ∈ targets,
        acceptedPayloadRowsInFamily other.1 (namedFamily named other.2) (history ++ first) =
          acceptedPayloadRowsInFamily other.1 (namedFamily named other.2) history := by
      intro other hother
      by_cases hempty : first = []
      · rw [hempty, List.append_nil]
      · have hne : other.1 ≠ target.1 := fun heq ↦ hfirst (heq ▸ List.mem_map_of_mem hother)
        rw [acceptedPayloadRows_eq, acceptedPayloadRows_eq,
          hsuccessors.familyAccepted_of_ne hlinked hempty hne]
    obtain ⟨rest, rfl, hremoves', howned⟩ := ih hlinked' hothers (fun other hother ↦
      hsame other hother ▸ haccepted other (List.mem_cons_of_mem _ hother)) hrest
    refine ⟨first ++ rest, List.append_assoc .., ?_, ?_⟩
    · refine List.forall_mem_append.mpr ⟨hremoves, fun row hrow hdeletion ↦ ?_⟩
      obtain ⟨old, hold, hkind, hplace⟩ := hremoves' row hrow hdeletion
      rcases acceptedRows_of_append hold with hbefore | hnew
      · exact ⟨old, hbefore, hkind, hplace⟩
      · have hobject := hplace.object.trans (hsuccessors.owned old hnew).1
        exact absurd (hobject ▸ howned row hrow) hfirst
    · refine List.forall_mem_append.mpr ⟨fun row hrow ↦ ?_, fun row hrow ↦ ?_⟩
      · exact (hsuccessors.owned row hrow).1 ▸ List.mem_cons_self
      · exact List.mem_cons_of_mem _ (howned row hrow)

/-- What the locks return: each object with its kind, in order. -/
theorem lockedObjects_eq_ok {objectIds : List Uuid} {targets : List (Uuid × Text)}
    (hrun : (lockedObjects objects objectIds).run history = .ok (targets, final)) :
    targets.map Prod.fst = objectIds ∧ final = history ∧
      ∀ target ∈ targets, objects.kind target.1 = some target.2 := by
  induction objectIds generalizing targets with
  | nil =>
    cases hrun
    exact ⟨rfl, rfl, List.forall_mem_nil _⟩
  | cons objectId objectIds ih =>
    obtain ⟨kind, _, hkind, hrest⟩ := Program.run_bind_eq_ok.mp hrun
    obtain ⟨rest, _, hlocked, hdone⟩ := Program.run_bind_eq_ok.mp hrest
    obtain rfl := (silent_lockedObject _ _).run_eq hkind
    cases hdone
    obtain ⟨hids, rfl, hkinds⟩ := ih hlocked
    refine ⟨by rw [List.map_cons, hids], rfl, List.forall_mem_cons.mpr ⟨?_, hkinds⟩⟩
    unfold lockedObject at hkind
    split at hkind
    next => cases hkind
    next found hfound =>
      cases hkind
      exact hfound

theorem nodup_deletionTargets (objects : Objects) (objectIds : List Uuid)
    (includeDescendants : Bool) :
    (deletionTargets objects objectIds includeDescendants).Nodup := by
  refine List.nodup_append.mpr ⟨nodup_eraseDups _, ?_, ?_⟩
  · split
    · exact (nodup_eraseDups _).filter _
    · exact List.nodup_nil
  · rintro root hroot _ hdescendant rfl
    split at hdescendant
    · have hnot := (List.mem_filter.mp hdescendant).2
      rw [List.contains_eq_mem, decide_eq_true hroot] at hnot
      cases hnot
    · cases hdescendant

/-- **The deletions that a write appends in place.** -/
theorem removes_of_commit {P : Type} {ledger : Ledger P} {write : LedgerWrite P}
    (hlinked : Linked ledger.history) (hinPlace : DeletesInPlace ledger write)
    (hcommit : commit ledger.history write.write = some final) :
    ∃ added, final = ledger.history ++ added ∧ Removes ledger.history added := by
  obtain ⟨⟨objects, context, writer⟩, copies, written⟩ := write
  obtain ⟨⟨value, rows⟩, hresult, rfl⟩ := Option.map_eq_some_iff.mp hcommit
  have hrun := toOption_eq_some.mp hresult
  cases writer with
  | ingestion documentId acceptance =>
    obtain ⟨row, middle, happend, hdone⟩ := Program.run_bind_eq_ok.mp hrun
    cases hdone
    obtain ⟨hrow, rfl⟩ := appendSourceState_eq_ok happend
    refine ⟨[row], rfl, List.forall_mem_singleton.mpr fun hdeletion ↦ ?_⟩
    have hkind := (kind_of_newAssertion hrow).1.symm.trans hdeletion
    split at hkind <;> cases hkind
  | service call =>
    cases call with
    | create objectId effectiveFrom effectiveUntil payloadFamily assertionKind acceptance =>
      obtain ⟨interval, _, hinterval, hrest⟩ := Program.run_bind_eq_ok.mp hrun
      obtain rfl := (silent_mkInterval _ _).run_eq hinterval
      obtain ⟨kind, _, hkind, hthen⟩ := Program.run_bind_eq_ok.mp hrest
      obtain rfl := (silent_lockedObject _ _).run_eq hkind
      obtain ⟨family, _, hfamily, hlast⟩ := Program.run_bind_eq_ok.mp hthen
      obtain rfl := (silent_payloadFamilyOf _ _).run_eq hfamily
      obtain ⟨row, _, hrow, hdone⟩ := Program.run_bind_eq_ok.mp hlast
      cases hdone
      exact removes_of_append (fun hdeletion ↦ absurd hdeletion hinPlace) hrow
    | supersede assertionId effectiveFrom effectiveUntil assertionKind acceptance =>
      exact removes_of_supersede hinPlace hrun
    | close assertionId effectiveUntil acceptance =>
      exact removes_of_supersede (fun hkind ↦ by cases hkind) hrun
    | replace assertionId effectiveFrom effectiveUntil acceptance =>
      obtain ⟨window, _, hwindow, hrest⟩ := Program.run_bind_eq_ok.mp hrun
      obtain ⟨rfl, -, rfl⟩ := mkInterval_eq_ok.mp hwindow
      obtain ⟨prior, _, hprior, hthen⟩ := Program.run_bind_eq_ok.mp hrest
      obtain ⟨rfl, hlive, hid⟩ := acceptedRows_of_acceptablePrior hprior
      obtain ⟨_, _, hlocked, hlast⟩ := Program.run_bind_eq_ok.mp hthen
      obtain rfl := (silent_lockedObject _ _).run_eq hlocked
      exact removes_of_split hlive (fun hkind ↦ by cases hkind)
        (hinPlace prior (mem_acceptedRows.mp hlive).1 hid) hlast
    | softDelete objectIds includeDescendants effectiveFrom effectiveUntil payloadFamily
        acceptance =>
      obtain ⟨targets, _, htargets, hrest⟩ := Program.run_bind_eq_ok.mp hrun
      obtain ⟨hids, rfl, hkinds⟩ := lockedObjects_eq_ok htargets
      have hsorted := List.perm_insertionSort
        (fun first second : Uuid × Text ↦ first.1.toNat ≤ second.1.toNat) targets
      have hlocked : targets.map Prod.fst = deletionTargets objects objectIds includeDescendants :=
        hids
      have hnodup : (targets.map Prod.fst).Nodup :=
        hlocked ▸ nodup_deletionTargets objects objectIds includeDescendants
      have hnamed : ∀ target ∈ targets,
          target.1 ∈ deletionTargets objects objectIds includeDescendants := fun target htarget ↦
        hlocked ▸ List.mem_map_of_mem htarget
      obtain ⟨added, hadded, hremoves, -⟩ := removes_of_deleteAll hlinked
        ((hsorted.map Prod.fst).nodup_iff.mpr hnodup) (fun target htarget ↦
          hinPlace target.1 (hnamed target (hsorted.mem_iff.mp htarget)) target.2
            (hkinds target (hsorted.mem_iff.mp htarget))) hrest
      exact ⟨added, hadded, hremoves⟩
    | restore deletionAssertionId acceptance =>
      obtain ⟨deletion, _, hdeletion, hrest⟩ := Program.run_bind_eq_ok.mp hrun
      obtain ⟨rfl, -, -⟩ := acceptedRows_of_acceptablePrior hdeletion
      split at hrest
      · cases hrest
      · obtain ⟨_, _, hlocked, hthen⟩ := Program.run_bind_eq_ok.mp hrest
        obtain rfl := (silent_lockedObject _ _).run_eq hlocked
        obtain ⟨row, _, hrow, hdone⟩ := Program.run_bind_eq_ok.mp hthen
        cases hdone
        exact removes_of_append (fun hkind ↦ by cases hkind) hrow

end Removing

/-! ### What runs keep -/

section Runs

variable {P : Type} {ledger next : Ledger P} {write : LedgerWrite P}

/-- What writes that delete in place keep: an instant that is not deleted shows what is in force, and
a deletion stands for an assertion that is none, whose payload row every deleted instant showed. -/
structure Recoverable (ledger : Ledger P) : Prop where
  stored : Stored ledger.history
  unambiguous : Unambiguous ledger.history
  shown : ∀ objectId payloadFamily instant,
    isDeleted objectId payloadFamily ledger.history instant = false →
      ledger.shown objectId payloadFamily instant =
        (inForce objectId payloadFamily ledger.history instant).map fun row ↦
          ledger.payloads row.assertionId
  removed : ∀ deletion ∈ acceptedRows ledger.history, deletion.assertionKind = .deletion →
    ∃ old ∈ ledger.history, deletion.supersedesAssertionId = some old.assertionId ∧
      ∀ instant, effectiveAt deletion instant = true →
        ledger.shown deletion.objectId deletion.payloadFamily instant =
          some (ledger.payloads old.assertionId)

theorem isDeleted_eq_true {objectId : Uuid} {payloadFamily : Text} {rows : History}
    {instant : Instant} : isDeleted objectId payloadFamily rows instant = true ↔
      ∃ row ∈ familyAccepted objectId payloadFamily rows,
        row.assertionKind = .deletion ∧ effectiveAt row instant = true := by
  simp [isDeleted]

/-- In an unambiguous history the accepted assertions of every family are apart. -/
theorem Unambiguous.familyApart {history : History} (hunambiguous : Unambiguous history)
    (objectId : Uuid) (payloadFamily : Text) : FamilyApart objectId payloadFamily history := by
  refine (hunambiguous.filter _).imp_of_mem fun {first second} hfirst hsecond hcompatible ↦ ?_
  obtain ⟨-, hobject, hfamily⟩ := mem_familyRows.mp hfirst
  obtain ⟨-, hobject', hfamily'⟩ := mem_familyRows.mp hsecond
  exact hcompatible (hobject.trans hobject'.symm) (hfamily.trans hfamily'.symm)

/-- The parts of a committed write. -/
theorem of_ledgerCommit (hcommit : ledger.commit write = some next) :
    commit ledger.history write.write = some next.history ∧
      (∀ assertionId, next.payloads assertionId =
        match lookup Assertion.assertionId assertionId
          (next.history.drop ledger.history.length) with
        | some row => write.payload ledger.history ledger.payloads row
        | none => ledger.payloads assertionId) ∧
      ∀ objectId payloadFamily instant, next.shown objectId payloadFamily instant =
        if isDeleted objectId payloadFamily next.history instant then
          ledger.shown objectId payloadFamily instant
        else (inForce objectId payloadFamily next.history instant).map fun row ↦
          next.payloads row.assertionId := by
  obtain ⟨history, hhistory, rfl⟩ := Option.map_eq_some_iff.mp hcommit
  exact ⟨hhistory, fun _ ↦ rfl, fun _ _ _ ↦ rfl⟩

/-- The payload row of an assertion stays. -/
theorem payloads_of_commit (hcommit : ledger.commit write = some next)
    (hstored : Stored next.history) {added : History}
    (hadded : next.history = ledger.history ++ added) {old : Assertion}
    (hold : old ∈ ledger.history) :
    next.payloads old.assertionId = ledger.payloads old.assertionId := by
  have hdrop : next.history.drop ledger.history.length = added := by
    rw [hadded, List.drop_left]
  have hnone : lookup Assertion.assertionId old.assertionId added = none := by
    refine lookup_eq_none.mpr fun row hrow hid ↦ ?_
    have hnodup := hstored.nodup
    rw [hadded, List.map_append] at hnodup
    exact (List.nodup_append.mp hnodup).2.2 _ (List.mem_map_of_mem hold) _
      (List.mem_map_of_mem hrow) hid.symm
  rw [(of_ledgerCommit hcommit).2.1, hdrop, hnone]

/-- **What one write keeps.** -/
theorem Recoverable.commit (hledger : Recoverable ledger) (hinPlace : DeletesInPlace ledger write)
    (hcommit : ledger.commit write = some next) : Recoverable next := by
  obtain ⟨hhistory, -, hshown⟩ := of_ledgerCommit hcommit
  have hstored : Stored next.history := hledger.stored.commit hhistory
  obtain ⟨added, hadded, hremoves⟩ :=
    removes_of_commit hledger.stored.toLinked hinPlace hhistory
  have hclear : WriteClear ledger.history write.write := by
    obtain ⟨⟨objects, context, writer⟩, copies, written⟩ := write
    cases writer with
    | service call => trivial
    | ingestion documentId acceptance => exact hinPlace
  refine ⟨hstored, hledger.unambiguous.commit hclear hhistory, fun objectId family instant hnot ↦ ?_,
    fun deletion hlive hkind ↦ ?_⟩
  · rw [hshown, hnot]
    rfl
  · have hcovered : ∀ instant, effectiveAt deletion instant = true →
        next.shown deletion.objectId deletion.payloadFamily instant =
          ledger.shown deletion.objectId deletion.payloadFamily instant := by
      intro instant hinstant
      rw [hshown, if_pos (isDeleted_eq_true.mpr ⟨deletion,
        mem_familyAccepted.mpr ⟨hlive, rfl, rfl⟩, hkind, hinstant⟩)]
    rcases acceptedRows_of_append (hadded ▸ hlive) with hbefore | hnew
    · obtain ⟨old, hold, hsupersedes, hpayload⟩ := hledger.removed deletion hbefore hkind
      refine ⟨old, hadded ▸ List.mem_append_left _ hold, hsupersedes, fun instant hinstant ↦ ?_⟩
      rw [hcovered instant hinstant, hpayload instant hinstant,
        payloads_of_commit hcommit hstored hadded hold]
    · obtain ⟨old, hold, holdKind, hplace⟩ := hremoves deletion hnew hkind
      have hmem := (mem_acceptedRows.mp hold).1
      refine ⟨old, hadded ▸ List.mem_append_left _ hmem, hplace.supersedes,
        fun instant hinstant ↦ ?_⟩
      have hstanding := mem_familyAccepted.mpr ⟨hold, hplace.object.symm, hplace.family.symm⟩
      have hapart := hledger.unambiguous.familyApart deletion.objectId deletion.payloadFamily
      have hcovers := hplace.within instant hinstant
      have hnot : isDeleted deletion.objectId deletion.payloadFamily ledger.history instant =
          false := by
        refine Bool.eq_false_iff.mpr fun hdeleted ↦ ?_
        obtain ⟨other, hother, hotherKind, hinstant'⟩ := isDeleted_eq_true.mp hdeleted
        exact holdKind (hapart.unique hother hstanding hinstant' hcovers ▸ hotherKind)
      rw [hcovered instant hinstant, hledger.shown _ _ _ hnot, inForce,
        (rowAt_eq_some hapart).mpr ⟨hstanding, hcovers⟩, Option.map_some,
        payloads_of_commit hcommit hstored hadded hmem]

/-- Writes that delete in place lead to recoverable ledgers. -/
theorem recoverable_of_steps
    (hrun : Steps Ledger.commit DeletesInPlace emptyLedger ledger) : Recoverable ledger := by
  refine hrun.invariant ⟨⟨⟨List.nodup_nil, by simp [emptyLedger]⟩, by simp [emptyLedger]⟩,
    List.Pairwise.nil, fun _ _ _ _ ↦ rfl, ?_⟩ fun _ _ _ hledger hinPlace hcommit ↦
      hledger.commit hinPlace hcommit
  intro deletion hdeletion
  cases hdeletion

/-- A restoration of an accepted deletion is appended over its interval, where no other accepted
assertion of the family stands. -/
theorem exists_restore {objects : Objects} {context : TxContext} {history : History}
    {deletion : Assertion} {acceptance : Acceptance} (hstored : Stored history)
    (hapart : FamilyApart deletion.objectId deletion.payloadFamily history)
    (hlive : deletion ∈ acceptedRows history) (hkind : deletion.assertionKind = .deletion)
    (hregistered : (objects.kind deletion.objectId).isSome = true)
    (hfresh : context.Fresh 1 history) :
    ∃ row, (restore objects context deletion.assertionId acceptance).run history =
        .ok ((), history ++ [row]) ∧
      row.assertionKind = .restoration ∧ row.effective = deletion.effective ∧
      Successors history deletion.objectId deletion.payloadFamily (some deletion) [row] := by
  obtain ⟨kind, hobject⟩ := Option.isSome_iff_exists.mp hregistered
  have hmem := (mem_acceptedRows.mp hlive).1
  have hproper := hstored.proper deletion hmem
  obtain ⟨row, hrow⟩ := exists_newAssertion deletion.objectId deletion.payloadFamily .restoration
    (some deletion.assertionId) acceptance hfresh.1 hproper
  have hclashes : clashes deletion.objectId deletion.payloadFamily deletion.effective
      [deletion.assertionId] history = [] := by
    refine clashes_eq_nil.mpr fun old hold hignored ↦ Interval.not_overlaps_of_disjoint
      (hstored.proper old (mem_acceptedRows.mp (mem_familyAccepted.mp hold).1).1) hproper ?_
    exact hapart.separate hold (mem_familyAccepted.mpr ⟨hlive, rfl, rfl⟩)
      fun heq ↦ hignored (heq ▸ List.mem_singleton_self _)
  have happend := append_eq_ok.mpr ⟨hclashes, hrow, rfl⟩
  obtain ⟨hnew, hrowObject, hrowFamily, heffective, hsupersedes, -⟩ := newAssertion_eq_ok hrow
  refine ⟨row, ?_, (kind_of_newAssertion hrow).1, heffective,
    List.forall_mem_singleton.mpr hnew, List.forall_mem_singleton.mpr ⟨hrowObject, hrowFamily⟩,
    List.forall_mem_singleton.mpr hsupersedes, fun old hold ↦
      Option.some.inj hold ▸ ⟨hmem, rfl, rfl⟩⟩
  rw [restore, Program.run_bind_of_ok (acceptablePrior_run hstored.toLinked hlive),
    if_neg (not_not.mpr hkind), Program.run_bind_of_ok (lockedObject_run hobject),
    Program.run_bind_of_ok happend]
  rfl

/-- **A recoverable ledger restores what was deleted.** -/
theorem Recoverable.restoresExactly (hledger : Recoverable ledger) : RestoresExactly ledger := by
  intro deletion hlive hkind write acceptance hwriter hcopies hregistered hfresh
  have hstored := hledger.stored
  have hapart := hledger.unambiguous.familyApart deletion.objectId deletion.payloadFamily
  have hmem := (mem_acceptedRows.mp hlive).1
  obtain ⟨row, hrun, hrowKind, heffective, hsuccessors⟩ :=
    @exists_restore _ _ _ _ acceptance hstored hapart hlive hkind hregistered hfresh
  have hhistory : DocStore.commit ledger.history write.write = some (ledger.history ++ [row]) := by
    rw [DocStore.commit, hwriter, Writer.program, Call.program, hrun]
    rfl
  obtain ⟨next, hcommit⟩ : ∃ next, ledger.commit write = some next :=
    ⟨_, Option.map_eq_some_iff.mpr ⟨_, hhistory, rfl⟩⟩
  obtain ⟨hnext, hpayloads, -⟩ := of_ledgerCommit hcommit
  obtain hfinal := Option.some.inj (hhistory.symm.trans hnext)
  have hstored' : Stored next.history := hstored.commit hnext
  obtain ⟨hapart', hinForce⟩ := hsuccessors.inForce hstored hapart
    (mem_familyAccepted.mpr ⟨hlive, rfl, rfl⟩) (List.cons_ne_nil _ _) (List.pairwise_singleton _ _)
    (List.forall_mem_singleton.mpr fun instant hinstant ↦ heffective ▸ hinstant)
  obtain ⟨old, -, hsupersedes, hshown⟩ := hledger.removed deletion hlive hkind
  have hsource : restoredSource ledger.history deletion.assertionId = old.assertionId := by
    rw [restoredSource, (lookup_eq_some hstored.nodup).mpr ⟨hmem, rfl⟩, Option.bind_some,
      hsupersedes, Option.getD_some]
  have hpayload : next.payloads row.assertionId = ledger.payloads old.assertionId := by
    have hfound : lookup Assertion.assertionId row.assertionId
        (next.history.drop ledger.history.length) = some row := by
      rw [← hfinal, List.drop_left]
      simp [lookup]
    rw [hpayloads, hfound]
    simp only [LedgerWrite.payload, hwriter, LedgerWrite.copied, hcopies, if_true, hsource,
      Option.bind_some]
  refine ⟨next, hcommit, fun pair hknown hinstant ↦ ⟨some row, ?_, ?_⟩⟩
  · rw [selectVisibleAssertion_familyRows hstored'.toLinked (hfinal ▸ hapart') hknown, inSight,
      ← hfinal, hinForce, if_pos hinstant]
    have hcovers : effectiveAt row pair.actDate = true := by
      rw [effectiveAt, heffective, hinstant]
    simp [rowAt, hcovers, Option.filter_some, hrowKind]
  · rw [hshown pair.actDate hinstant]
    exact .some hpayload

/-- **When every deletion can be undone.** In every history that is built by writes which append
deletions in the place of assertions that are none, restoring whichever accepted deletion shows at
its instants what was shown there before it, with the payload it had. -/
theorem restoresExactly_of_steps
    (hrun : Steps Ledger.commit DeletesInPlace emptyLedger ledger) : RestoresExactly ledger :=
  (recoverable_of_steps hrun).restoresExactly

end Runs

/-- A call with a copier, where the caller stores a payload row for the assertion 1. -/
def copyingCall (now : Instant) (call : Call) : LedgerWrite Text where
  write := numberedCall now call
  copies := true
  written assertionId := if assertionId = 1 then some (lit "payload") else none

/-- The ledger that calls leave. -/
def ledgerOf (allowed : Ledger Text → LedgerWrite Text → Prop)
    [∀ ledger write, Decidable (allowed ledger write)] (calls : List (LedgerWrite Text)) :
    Ledger Text :=
  (replay (guarded Ledger.commit allowed) emptyLedger calls).getD emptyLedger

/-- A document is deleted from 20 to 30 within the assertion that holds from 10 on. -/
def deletedPart : List (LedgerWrite Text) :=
  [copyingCall 40 (.create 7 10 none none .payload {}),
    copyingCall 41 (.softDelete [7] false (some 20) (some (some 30)) none {})]

theorem restoresExactly_deletedPart : RestoresExactly (ledgerOf DeletesInPlace deletedPart) :=
  restoresExactly_of_steps (steps_of_replay (by decide +kernel))

/-- A document without an assertion is deleted. -/
def deletedNothing : List (LedgerWrite Text) :=
  [copyingCall 40 (.softDelete [7] false (some 20) none none {})]

/-- The deletion that this appends. -/
def freeDeletion : Assertion where
  assertionId := 1
  objectId := 7
  payloadFamily := lit "document"
  assertionKind := .deletion
  revisionNo := 1
  supersedesAssertionId := none
  effective := { start := 20, stop := none }
  recordedAt := 40
  acceptance := {}

/-- Restoring the deletion of a document without an assertion shows the document, where nothing was
shown before. -/
theorem exists_inexact_restoration :
    ∃ ledger : Ledger Text, Steps Ledger.commit (fun _ _ ↦ True) emptyLedger ledger ∧
      ¬RestoresExactly ledger := by
  refine ⟨ledgerOf (fun _ _ ↦ True) deletedNothing, steps_of_replay (by decide +kernel),
    fun hexact ↦ ?_⟩
  obtain ⟨next, hcommit, hanswers⟩ := hexact freeDeletion (by decide +kernel) rfl
    (copyingCall 50 (.restore 1 {})) {} rfl rfl rfl ⟨by decide +kernel, fun _ _ ↦ trivial⟩
  have hknown : ∀ row ∈ next.history, row.recordedAt ≤ 50 := by
    have hcomputed : ((ledgerOf (fun _ _ ↦ True) deletedNothing).commit
        (copyingCall 50 (.restore 1 {}))).all fun restored ↦
          restored.history.all fun row ↦ row.recordedAt ≤ 50 := by decide +kernel
    rw [hcommit] at hcomputed
    simpa using hcomputed
  have hshown : (ledgerOf (fun _ _ ↦ True) deletedNothing).shown 7 (lit "document") 25 = none := by
    decide +kernel
  have hrestored : ((ledgerOf (fun _ _ ↦ True) deletedNothing).commit
      (copyingCall 50 (.restore 1 {}))).any fun restored ↦
        (toOption (selectVisibleAssertion (familyRows 7 (lit "document") restored.history)
          { actDate := 25, knownAt := 50 })).any Option.isSome := by decide +kernel
  obtain ⟨answer, hanswer, hrel⟩ := hanswers { actDate := 25, knownAt := 50 } hknown (by decide)
  have hshown' : (ledgerOf (fun _ _ ↦ True) deletedNothing).shown freeDeletion.objectId
      freeDeletion.payloadFamily 25 = none := hshown
  have hselected : selectVisibleAssertion (familyRows 7 (lit "document") next.history)
      { actDate := 25, knownAt := 50 } = .ok answer := hanswer
  rw [hcommit, Option.any_some, hselected] at hrestored
  rw [hshown'] at hrel
  cases hrel
  cases hrestored

end DocStore
