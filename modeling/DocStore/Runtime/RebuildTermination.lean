import DocStore.Runtime.Vectorization

/-!
# When a rebuild ends

Each mode of `rebuild` relies on something that becomes less: the document that is still to be
processed, the documents behind the cursor, the documents that are flagged, or what remains of the
limit. Two combinations rely on nothing. A call for a document that is not there selects no
documents, turn after turn, and a dry run over flagged documents without a limit selects the same
ones. `rebuild_terminates_iff` says that these are all.
-/

set_option autoImplicit false
set_option relaxedAutoImplicit false

namespace DocStore

open Foundation

variable {ν : Type}

/-- A call ends after finitely many turns of its loop. -/
def RebuildTerminates (service : VectorizationService ν) (call : RebuildCall)
    (store : VectorizationDb ν) : Prop :=
  ∃ fuel, (rebuild service call store fuel).isSome = true

/-- A call for a document that is not there, or is deleted, by which the embedding client is not
needed or can be called; or a dry run over flagged documents without a limit, with a document to
be found. -/
def RebuildStalls (config : EmbeddingConfig) (call : RebuildCall) (store : VectorizationDb ν) :
    Prop :=
  0 < call.documentBatchSize ∧
    match call.documentId with
    | some documentId => (∀ row ∈ store.documents, row.deletedAt = none → row.id ≠ documentId) ∧
        (call.dryRun = true ∨ 0 < config.batchSize)
    | none => call.allDocuments = false ∧ call.documentLimit = none ∧ call.dryRun = true ∧
        ∃ row ∈ store.documents, row.deletedAt = none ∧ store.needsRevectorize row = true

variable {service : VectorizationService ν} {call : RebuildCall} {state next : RebuildState ν}
  {store : VectorizationDb ν}

/-! ### The documents of a turn -/

theorem mem_documentsInOrder {documentId after : Option Uuid} {allDocuments : Bool} {id : Uuid} :
    id ∈ documentsInOrder documentId allDocuments after store ↔
      ∃ row ∈ store.documents, documentSelected documentId allDocuments after store row = true ∧
        row.id = id := by
  unfold documentsInOrder
  dsimp only
  split <;> simp only [List.mem_insertionSort, List.mem_map, List.mem_filter, and_assoc]

/-- A selection with a positive limit does not fail. -/
theorem selectDocuments_eq {documentId after : Option Uuid} {allDocuments : Bool} {limit : ℤ}
    (hlimit : 0 < limit) : selectDocuments documentId allDocuments limit after store =
      .ok ((documentsInOrder documentId allDocuments after store).take limit.toNat) := by
  rw [selectDocuments, raiseIf, decide_eq_false (not_le.mpr hlimit)]
  rfl

/-- The turns of a call for one document. -/
theorem nextDocuments_of_document (state : RebuildState ν) {documentId : Uuid}
    (hcall : call.documentId = some documentId) :
    nextDocuments call state = if state.processedDocs ≠ [] then .ok none else
      .ok (some ((documentsInOrder (some documentId) false none state.store).take 1,
        state.allDocumentsAfter)) := by
  rw [nextDocuments, hcall]
  dsimp only
  split
  · rfl
  · rw [selectDocuments_eq Int.one_pos]
    rfl

/-- The cursor of a call: only a call for all documents has one. -/
def RebuildCall.cursor (call : RebuildCall) (state : RebuildState ν) : Option Uuid :=
  if call.allDocuments then state.allDocumentsAfter else none

/-- The documents that a call without a document still finds. -/
def documentsLeft (call : RebuildCall) (state : RebuildState ν) : List Uuid :=
  documentsInOrder none call.allDocuments (call.cursor state) state.store

/-- The documents of a batch: as many as remain, at most. -/
def RebuildCall.batchLimit (call : RebuildCall) (state : RebuildState ν) : ℤ :=
  ((call.documentLimit.map fun limit : ℤ ↦ limit - state.processedDocs.length).map
    (min call.documentBatchSize)).getD call.documentBatchSize

/-- Whether the limit of a call is reached. -/
def RebuildCall.reached (call : RebuildCall) (state : RebuildState ν) : Bool :=
  call.documentLimit.any fun limit : ℤ ↦ limit ≤ state.processedDocs.length

theorem batchLimit_pos (hsize : 0 < call.documentBatchSize)
    (hreached : call.reached state = false) : 0 < call.batchLimit state := by
  rw [RebuildCall.reached] at hreached
  rw [RebuildCall.batchLimit]
  cases hlimit : call.documentLimit with
  | none => exact hsize
  | some limit =>
    rw [hlimit, Option.any_some, decide_eq_false_iff_not, not_le] at hreached
    exact lt_min hsize (Int.sub_pos.mpr hreached)

/-- The turns of a call without a document. -/
theorem nextDocuments_of_none (state : RebuildState ν) (hsize : 0 < call.documentBatchSize)
    (hcall : call.documentId = none) : nextDocuments call state =
      if call.reached state = true ∨ documentsLeft call state = [] then .ok none else
      .ok (some ((documentsLeft call state).take (call.batchLimit state).toNat,
        if call.allDocuments then
          ((documentsLeft call state).take (call.batchLimit state).toNat).getLast?
        else state.allDocumentsAfter)) := by
  have hreached : (call.documentLimit.map fun limit : ℤ ↦
      limit - state.processedDocs.length).any (fun left ↦ left ≤ 0) = call.reached state := by
    rw [RebuildCall.reached]
    cases call.documentLimit with
    | none => rfl
    | some limit => simp
  rw [nextDocuments, hcall]
  dsimp only
  rw [hreached, ← RebuildCall.batchLimit]
  cases hlimit : call.reached state with
  | true => simp [pure, Except.pure]
  | false =>
    have hpositive := batchLimit_pos hsize hlimit
    have hempty : ((documentsLeft call state).take (call.batchLimit state).toNat).isEmpty = true ↔
        documentsLeft call state = [] := by
      rw [List.isEmpty_iff, List.take_eq_nil_iff]
      exact or_iff_right (by omega)
    cases hall : call.allDocuments with
    | true =>
      rw [documentsLeft, RebuildCall.cursor, hall] at hempty ⊢
      simp only [if_true, selectDocuments_eq hpositive, bind, Except.bind, pure, Except.pure,
        Bool.false_eq_true, false_or, if_false] at hempty ⊢
      simp only [hempty]
      split <;> rfl
    | false =>
      rw [documentsLeft, RebuildCall.cursor, hall] at hempty ⊢
      simp only [Bool.false_eq_true, if_false, selectDocuments_eq hpositive, bind, Except.bind,
        pure, Except.pure, false_or] at hempty ⊢
      simp only [hempty]
      split <;> rfl

/-! ### What becomes less -/

/-- A filter with a stronger condition that leaves out an entry leaves fewer entries. -/
theorem length_filter_lt_of_imp {α : Type} {stronger weaker : α → Bool} {entries : List α}
    (himp : ∀ entry ∈ entries, stronger entry = true → weaker entry = true) {entry : α}
    (hmem : entry ∈ entries) (hweaker : weaker entry = true) (hnot : stronger entry = false) :
    (entries.filter stronger).length < (entries.filter weaker).length := by
  have hfilter : entries.filter stronger = (entries.filter weaker).filter stronger := by
    rw [List.filter_filter]
    refine List.filter_congr fun other hother ↦ ?_
    cases hother' : stronger other with
    | true => rw [himp other hother hother', Bool.and_true]
    | false => rfl
  rw [hfilter]
  exact List.length_filter_lt_length_iff_exists.mpr
    ⟨entry, List.mem_filter.mpr ⟨hmem, hweaker⟩, by simp [hnot]⟩

/-- The rows that a call without a document still finds. -/
def rowsLeft (call : RebuildCall) (state : RebuildState ν) : List DocumentRow :=
  state.store.documents.filter
    (documentSelected none call.allDocuments (call.cursor state) state.store)

/-- What a turn of a call without a document has found. -/
theorem documents_of_turn {docs : List Uuid} {after : Option Uuid}
    (hsize : 0 < call.documentBatchSize) (hcall : call.documentId = none)
    (heffect : TurnEffect service call state next docs after) :
    call.reached state = false ∧ docs ≠ [] ∧ (∀ id ∈ docs, id ∈ documentsLeft call state) ∧
      after = if call.allDocuments then docs.getLast? else state.allDocumentsAfter := by
  have hselected := heffect.selected
  rw [nextDocuments_of_none state hsize hcall] at hselected
  split at hselected
  · cases hselected
  next hnot =>
    obtain ⟨hreached, hleft⟩ := not_or.mp hnot
    obtain ⟨rfl, rfl⟩ := Prod.mk.inj (Option.some.inj (Except.ok.inj hselected))
    rw [Bool.not_eq_true] at hreached
    have hlimit := batchLimit_pos hsize hreached
    refine ⟨hreached, ?_, fun id hid ↦ List.mem_of_mem_take hid, rfl⟩
    rw [Ne, List.take_eq_nil_iff, not_or]
    exact ⟨by omega, hleft⟩

/-- A turn of a call for all documents leaves fewer documents behind the cursor. -/
theorem rowsLeft_lt_of_allDocuments {docs : List Uuid} {after : Option Uuid}
    (hsize : 0 < call.documentBatchSize) (hcall : call.documentId = none)
    (hall : call.allDocuments = true)
    (heffect : TurnEffect service call state next docs after) :
    (rowsLeft call next).length < (rowsLeft call state).length := by
  obtain ⟨_, hdocs, hmem, hafter⟩ := documents_of_turn hsize hcall heffect
  rw [hall, if_pos rfl, List.getLast?_eq_some_getLast hdocs] at hafter
  obtain ⟨row, hrow, hselected, hid⟩ := mem_documentsInOrder.mp
    (hmem _ (List.getLast_mem hdocs))
  have hcursor : call.cursor next = some row.id := by
    rw [RebuildCall.cursor, hall, if_pos rfl, heffect.allDocumentsAfter, hafter, hid]
  rw [rowsLeft, rowsLeft, heffect.tables, hcursor]
  refine length_filter_lt_of_imp (fun other _ hother ↦ ?_) hrow hselected ?_
  · simp only [documentSelected, hall, Bool.and_eq_true, Bool.true_or] at hselected hother ⊢
    refine ⟨hother.1, ?_⟩
    cases hstart : call.cursor state with
    | none => rfl
    | some start =>
      rw [hstart] at hselected
      exact decide_eq_true ((of_decide_eq_true hselected.2).trans (of_decide_eq_true hother.2))
  · simp [documentSelected]

/-- A turn of a call for the flagged documents leaves fewer of them, unless nothing is written. -/
theorem rowsLeft_lt_of_flagged {docs : List Uuid} {after : Option Uuid}
    (hsize : 0 < call.documentBatchSize) (hcall : call.documentId = none)
    (hall : call.allDocuments = false) (hwet : call.dryRun = false)
    (heffect : TurnEffect service call state next docs after) :
    (rowsLeft call next).length < (rowsLeft call state).length := by
  obtain ⟨_, hdocs, hmem, _⟩ := documents_of_turn hsize hcall heffect
  obtain ⟨id, hid⟩ := List.exists_mem_of_ne_nil docs hdocs
  obtain ⟨row, hrow, hselected, rfl⟩ := mem_documentsInOrder.mp (hmem id hid)
  have hselects : ∀ state : RebuildState ν, ∀ row, documentSelected none call.allDocuments
      (call.cursor state) state.store row =
        (row.deletedAt.isNone && state.store.needsRevectorize row) := by
    intro state row
    rw [RebuildCall.cursor, hall]
    rfl
  rw [rowsLeft, rowsLeft, heffect.tables]
  refine length_filter_lt_of_imp (fun other _ hother ↦ ?_) hrow hselected ?_
  · rw [hselects, Bool.and_eq_true, heffect.flags hwet] at hother
    rw [hselects, Bool.and_eq_true]
    exact ⟨hother.1, needsRevectorize_of_unflag hother.2⟩
  · rw [hselects, heffect.flags hwet, not_needsRevectorize_of_mem hrow hid, Bool.and_false]

/-- What remains of a limit becomes less. -/
theorem remaining_lt {docs : List Uuid} {after : Option Uuid} {limit : ℤ}
    (hsize : 0 < call.documentBatchSize) (hcall : call.documentId = none)
    (hlimit : call.documentLimit = some limit)
    (heffect : TurnEffect service call state next docs after) :
    (limit - next.processedDocs.length).toNat < (limit - state.processedDocs.length).toNat := by
  obtain ⟨hreached, hdocs, _, _⟩ := documents_of_turn hsize hcall heffect
  rw [RebuildCall.reached, hlimit, Option.any_some, decide_eq_false_iff_not] at hreached
  have hlength := List.length_pos_of_ne_nil hdocs
  rw [heffect.processedDocs, List.length_append]
  omega

/-! ### Turns that change nothing -/

/-- Without documents there are no texts. -/
theorem selectVectorInputs_nil (config : EmbeddingConfig) (store : VectorizationDb ν) :
    selectVectorInputs config [] store = [] := by
  have hlive : liveDocuments store.toDb [] = [] := by simp [liveDocuments]
  have hfiles : fileInputs config.directTextMaxChars store [] = [] := by
    rw [fileInputs, List.filterMap_eq_nil_iff]
    intro row _
    simp [fileGroup, hlive, directText]
  simp [selectVectorInputs, documentInputs, hlive, hfiles]

/-- Without texts the client is not called. -/
theorem embedChunks_nil {config : EmbeddingConfig} (hsize : 0 < config.batchSize)
    (client : EmbedClient) (calls : ℕ) : embedChunks config client calls [] = .ok [] := by
  rw [embedChunks, raiseIf, decide_eq_false (not_le.mpr hsize)]
  rfl

/-- Without documents nothing is averaged. -/
theorem persistVectors_nil (service : VectorizationService ν) (now : Instant)
    (store : VectorizationDb ν) :
    persistVectors service now [] [] store = .ok (unflag now [] store) := by
  have haggregate : aggregateDocumentFileVectors store.toDb [] [] = .ok [] := by
    simp [aggregateDocumentFileVectors, byDocument, vectorsByDocument, grouped, meanRecords, byFile,
      bind, Except.bind, pure, Except.pure]
  rw [persistVectors, haggregate]
  rfl

/-- The next turn after one that finds documents. -/
theorem exists_next_of_dryRun (service : VectorizationService ν) (hdry : call.dryRun = true) {docs : List Uuid}
    {after : Option Uuid} (hselected : nextDocuments call state = .ok (some (docs, after))) :
    ∃ next, rebuildTurn service call state = .next next ∧ next.store = state.store ∧
      next.processedDocs = state.processedDocs ++ docs := by
  rw [rebuildTurn, hselected]
  simp only [processDocuments, hdry, if_true]
  exact ⟨_, rfl, rfl, rfl⟩

/-- A turn without documents leads to the next one. -/
theorem exists_next_of_nil (hsize : call.dryRun = true ∨ 0 < service.config.batchSize)
    {after : Option Uuid} (hselected : nextDocuments call state = .ok (some ([], after))) :
    ∃ next, rebuildTurn service call state = .next next ∧
      next.store.toDb = state.store.toDb ∧ next.processedDocs = state.processedDocs := by
  cases hdry : call.dryRun with
  | true =>
    obtain ⟨next, hnext, hstore, hprocessed⟩ :=
      exists_next_of_dryRun service hdry hselected
    exact ⟨next, hnext, by rw [hstore], by rw [hprocessed, List.append_nil]⟩
  | false =>
    have hpositive := hsize.resolve_left (by rw [hdry]; exact Bool.false_ne_true)
    rw [rebuildTurn, hselected]
    simp only [processDocuments, hdry, Bool.false_eq_true, if_false, selectVectorInputs_nil,
      embedChunks_nil hpositive, persistVectors_nil, List.append_nil]
    exact ⟨_, rfl, rfl, rfl⟩

/-- A call for a document that is not there goes on for ever. -/
theorem not_ends_of_missing {documentId : Uuid} (hcall : call.documentId = some documentId)
    (hmissing : ∀ row ∈ store.documents, row.deletedAt = none → row.id ≠ documentId)
    (hsize : call.dryRun = true ∨ 0 < service.config.batchSize) :
    ¬ Ends (rebuildTurn service call) { store } := by
  refine not_ends_of_invariant (fun state ↦ state.processedDocs = [] ∧
    state.store.toDb = store.toDb) (fun state hstate ↦ ?_) ⟨rfl, rfl⟩
  obtain ⟨hprocessed, htables⟩ := hstate
  have hnone : documentsInOrder (some documentId) false none state.store = [] := by
    refine List.eq_nil_iff_forall_not_mem.mpr fun id hid ↦ ?_
    obtain ⟨row, hrow, hselected, _⟩ := mem_documentsInOrder.mp hid
    rw [htables] at hrow
    simp only [documentSelected, Bool.and_eq_true, Option.isNone_iff_eq_none,
      decide_eq_true_eq] at hselected
    exact hmissing row hrow hselected.1 hselected.2
  have hselected := nextDocuments_of_document state hcall
  rw [hnone, if_neg (not_not.mpr hprocessed), List.take_nil] at hselected
  obtain ⟨next, hnext, hstore, hdocs⟩ := exists_next_of_nil hsize hselected
  exact ⟨next, hnext, hdocs.trans hprocessed, hstore.trans htables⟩

/-- A dry run over flagged documents without a limit goes on for ever. -/
theorem not_ends_of_dryRun (hsize : 0 < call.documentBatchSize) (hcall : call.documentId = none)
    (hall : call.allDocuments = false) (hlimit : call.documentLimit = none)
    (hdry : call.dryRun = true)
    (hflagged : ∃ row ∈ store.documents, row.deletedAt = none ∧
      store.needsRevectorize row = true) :
    ¬ Ends (rebuildTurn service call) { store } := by
  refine not_ends_of_invariant (fun state ↦ state.store = store) (fun state hstate ↦ ?_) rfl
  have hreached : call.reached state = false := by
    rw [RebuildCall.reached, hlimit]
    rfl
  have hleft : documentsLeft call state ≠ [] := by
    obtain ⟨row, hrow, hlive, hneeds⟩ := hflagged
    refine List.ne_nil_of_mem (a := row.id) (mem_documentsInOrder.mpr ⟨row, hstate ▸ hrow, ?_, rfl⟩)
    rw [RebuildCall.cursor, hall, hstate]
    simp [documentSelected, hlive, hneeds]
  have hselected := nextDocuments_of_none state hsize hcall
  rw [if_neg (not_or.mpr ⟨by rw [hreached]; exact Bool.false_ne_true, hleft⟩)] at hselected
  obtain ⟨next, hnext, hstore, _⟩ := exists_next_of_dryRun service hdry hselected
  exact ⟨next, hnext, hstore.trans hstate⟩

/-! ### Termination -/

/-- A call for a document that is there ends. -/
theorem ends_of_document {documentId : Uuid} (hcall : call.documentId = some documentId)
    (hthere : ∃ row ∈ store.documents, row.deletedAt = none ∧ row.id = documentId) :
    Ends (rebuildTurn service call) { store } := by
  refine ends_of_measure (fun state ↦ state.store.toDb = store.toDb)
    (fun state ↦ if state.processedDocs = [] then 1 else 0) (fun state next hstate hturn ↦ ?_) rfl
  obtain ⟨docs, after, heffect⟩ := turnEffect_of_next hturn
  refine ⟨heffect.tables.trans hstate, ?_⟩
  have hselected := heffect.selected
  rw [nextDocuments_of_document state hcall] at hselected
  split at hselected
  · cases hselected
  next hprocessed =>
    obtain ⟨rfl, _⟩ := Prod.mk.inj (Option.some.inj (Except.ok.inj hselected))
    have hfound : documentsInOrder (some documentId) false none state.store ≠ [] := by
      obtain ⟨row, hrow, hlive, hid⟩ := hthere
      refine List.ne_nil_of_mem (a := row.id) (mem_documentsInOrder.mpr ⟨row, ?_, ?_, rfl⟩)
      · rw [hstate]
        exact hrow
      · simp [documentSelected, hlive, hid]
    have hnext : next.processedDocs ≠ [] := by
      rw [heffect.processedDocs]
      exact List.append_ne_nil_of_right_ne_nil _ (by simpa using hfound)
    rw [if_neg hnext, if_pos (not_not.mp hprocessed)]
    exact Nat.one_pos

/-- A call for all documents ends. -/
theorem ends_of_allDocuments (hsize : 0 < call.documentBatchSize)
    (hcall : call.documentId = none) (hall : call.allDocuments = true) :
    Ends (rebuildTurn service call) { store } := by
  refine ends_of_measure (fun _ ↦ True) (fun state ↦ (rowsLeft call state).length)
    (fun state next _ hturn ↦ ?_) trivial
  obtain ⟨docs, after, heffect⟩ := turnEffect_of_next hturn
  exact ⟨trivial, rowsLeft_lt_of_allDocuments hsize hcall hall heffect⟩

/-- A call for the flagged documents that writes ends. -/
theorem ends_of_flagged (hsize : 0 < call.documentBatchSize) (hcall : call.documentId = none)
    (hall : call.allDocuments = false) (hwet : call.dryRun = false) :
    Ends (rebuildTurn service call) { store } := by
  refine ends_of_measure (fun _ ↦ True) (fun state ↦ (rowsLeft call state).length)
    (fun state next _ hturn ↦ ?_) trivial
  obtain ⟨docs, after, heffect⟩ := turnEffect_of_next hturn
  exact ⟨trivial, rowsLeft_lt_of_flagged hsize hcall hall hwet heffect⟩

/-- A call with a limit and without a document ends. -/
theorem ends_of_limit {limit : ℤ} (hsize : 0 < call.documentBatchSize)
    (hcall : call.documentId = none) (hlimit : call.documentLimit = some limit) :
    Ends (rebuildTurn service call) { store } := by
  refine ends_of_measure (fun _ ↦ True)
    (fun state ↦ (limit - state.processedDocs.length).toNat) (fun state next _ hturn ↦ ?_) trivial
  obtain ⟨docs, after, heffect⟩ := turnEffect_of_next hturn
  exact ⟨trivial, remaining_lt hsize hcall hlimit heffect⟩

/-- A call stops at once when no document is flagged. -/
theorem ends_of_none_flagged (hsize : 0 < call.documentBatchSize)
    (hcall : call.documentId = none) (hall : call.allDocuments = false)
    (hnone : ∀ row ∈ store.documents, row.deletedAt = none → store.needsRevectorize row = false) :
    Ends (rebuildTurn service call) { store } := by
  have hleft : documentsLeft call { store } = [] := by
    refine List.eq_nil_iff_forall_not_mem.mpr fun id hid ↦ ?_
    obtain ⟨row, hrow, hselected, _⟩ := mem_documentsInOrder.mp hid
    rw [RebuildCall.cursor, hall] at hselected
    simp only [documentSelected, Bool.and_eq_true, Option.isNone_iff_eq_none, Bool.false_or,
      Bool.false_eq_true, if_false] at hselected
    exact Bool.false_ne_true ((hnone row hrow hselected.1).symm.trans hselected.2)
  have hselected := nextDocuments_of_none { store } hsize hcall
  rw [if_pos (.inr hleft)] at hselected
  exact ⟨_, endsWith_of_stop (by rw [rebuildTurn, hselected])⟩

/-- A call for a document that is not there ends when the client can not be called. -/
theorem ends_of_unusable (hwet : call.dryRun = false) (hsize : service.config.batchSize ≤ 0) :
    Ends (rebuildTurn service call) { store } := by
  refine ends_of_measure (fun _ ↦ True) (fun _ ↦ 0) (fun state next _ hturn ↦ ?_) trivial
  obtain ⟨docs, after, heffect⟩ := turnEffect_of_next hturn
  obtain ⟨vectors, hvectors, _⟩ := heffect.stored hwet
  rw [embedChunks, raiseIf_bind_eq_ok, decide_eq_false_iff_not] at hvectors
  exact absurd hsize hvectors.1

/-- A call with a positive batch size ends when its loop does. -/
theorem rebuildTerminates_iff_ends (hsize : 0 < call.documentBatchSize) :
    RebuildTerminates service call store ↔ Ends (rebuildTurn service call) { store } := by
  simp only [RebuildTerminates, rebuild, if_neg (not_le.mpr hsize), Option.isSome_iff_exists]
  exact exists_comm

/-- A call ends unless it stalls. -/
theorem rebuild_terminates_iff (service : VectorizationService ν) (call : RebuildCall)
    (store : VectorizationDb ν) :
    RebuildTerminates service call store ↔ ¬ RebuildStalls service.config call store := by
  by_cases hsize : 0 < call.documentBatchSize
  · rw [rebuildTerminates_iff_ends hsize]
    constructor
    · rintro hend ⟨_, hstalls⟩
      cases hcall : call.documentId with
      | some documentId =>
        rw [hcall] at hstalls
        exact not_ends_of_missing hcall hstalls.1 hstalls.2 hend
      | none =>
        rw [hcall] at hstalls
        obtain ⟨hall, hlimit, hdry, hflagged⟩ := hstalls
        exact not_ends_of_dryRun hsize hcall hall hlimit hdry hflagged hend
    · intro hgoes
      cases hcall : call.documentId with
      | some documentId =>
        simp only [RebuildStalls, hsize, hcall, true_and, not_and_or, not_forall,
          not_or, not_lt, Bool.not_eq_true] at hgoes
        rcases hgoes with ⟨row, hrow, hlive, hid⟩ | ⟨hwet, hclient⟩
        · exact ends_of_document hcall ⟨row, hrow, hlive, not_not.mp hid⟩
        · exact ends_of_unusable hwet hclient
      | none =>
        cases hall : call.allDocuments with
        | true => exact ends_of_allDocuments hsize hcall hall
        | false =>
          cases hlimit : call.documentLimit with
          | some limit => exact ends_of_limit hsize hcall hlimit
          | none =>
            cases hdry : call.dryRun with
            | false => exact ends_of_flagged hsize hcall hall hdry
            | true =>
              refine ends_of_none_flagged hsize hcall hall fun row hrow hlive ↦ ?_
              by_contra hneeds
              exact hgoes ⟨hsize, by
                rw [hcall]
                exact ⟨hall, hlimit, hdry, row, hrow, hlive, by simpa using hneeds⟩⟩
  · refine iff_of_true ⟨0, ?_⟩ fun hstalls ↦ hsize hstalls.1
    rw [rebuild, if_pos (not_lt.mp hsize)]
    rfl

/-- Tables without a row. -/
def noDocuments : VectorizationDb Vector where
  documentCreatedAt _ := 0
  documentUpdatedAt _ := none

/-- Without any document, a call for one does not end, and a dry run over it neither. -/
theorem rebuild_goes_on :
    ¬ RebuildTerminates sampleVectorizer { documentId := some 7#128 } noDocuments ∧
    ¬ RebuildTerminates sampleVectorizer { documentId := some 7#128, dryRun := true }
      noDocuments := by
  rw [rebuildTerminates_iff_ends (by decide), rebuildTerminates_iff_ends (by decide)]
  have hmissing : ∀ row ∈ noDocuments.documents, row.deletedAt = none → row.id ≠ 7#128 :=
    fun row hrow ↦ absurd hrow (List.not_mem_nil)
  exact ⟨not_ends_of_missing rfl hmissing (.inr (by decide)),
    not_ends_of_missing rfl hmissing (.inl rfl)⟩

end DocStore
