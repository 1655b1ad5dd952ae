import DocStore.Foundation.Displacement
import DocStore.Ingestion.RechunkedText
import DocStore.Ingestion.Replay

/-!
# The order of chapters over many publications

Every publication of a document deletes its chapters, moves them behind the largest order index and
writes a new one at `0`. So the order indices are the places of `Foundation.placesAfter`: they stay
distinct, and the length in use doubles each time. `ordersFit_iff` says that the column holds them
for thirty-two publications, and that the next one fails.
-/

set_option autoImplicit false
set_option relaxedAutoImplicit false

namespace DocStore

open Foundation

/-! ### The chapters of a document -/

/-- The chapters of a document, the live and the superseded ones. -/
def documentChapters (documentId : Uuid) (db : Db) : List ChapterRow :=
  db.chapters.filter fun row ↦ row.documentId = documentId

/-- Their order indices. -/
def chapterOrders (documentId : Uuid) (db : Db) : List ℕ :=
  (documentChapters documentId db).map ChapterRow.orderIndex

/-- The chapters of a document are ordered, the column holds their order indices, and the statement
that moves the superseded ones would not overflow. -/
structure OrdersFit (now : Instant) (documentId : Uuid) (db : Db) : Prop where
  distinct : (chapterOrders documentId db).Nodup
  held : ∀ order ∈ chapterOrders documentId db, order ≤ maxInteger
  moves : ∃ next, markExistingHierarchyDeleted now documentId db = .ok next

/-! ### Publications, counted -/

/-- The tables, with the number of publications of a document that matched. -/
structure CountedDb extends Db where
  publications : ℕ := 0

/-- A publication of any document. One that fails leaves everything as it was. -/
def countedStep (host : Host) (documentId : Uuid) (state : CountedDb) (call : PublishCall) :
    Option CountedDb :=
  match publish host call.ids call.request call.paragraphChunks call.sentenceChunks state.toDb with
  | .error _ => some state
  | .ok publication => some
    { publication.db with
      publications :=
        if call.request.documentId = documentId ∧ publication.integrityOutcome = .matching then
          state.publications + 1
        else state.publications }

/-! ### What a publication does to the chapters -/

section Marking

variable {host : Host} {documentId : Uuid} {db next : Db} {now : Instant}

/-- The chapters of a document lie in the places of a number of publications, and the ones that have
a deletion time are flagged. -/
structure ChaptersPlaced (documentId : Uuid) (count : ℕ) (db : Db) : Prop where
  orders : chapterOrders documentId db = placesAfter count
  flagged : ∀ row ∈ documentChapters documentId db, row.deletedAt.isSome = true →
    row.isDeleted = true

theorem documentChapters_markHierarchy (now : Instant) (documentId : Uuid) (db : Db) :
    documentChapters documentId (markHierarchy now documentId db) =
      updateWhere (fun row ↦ row.documentId = documentId && row.deletedAt.isNone)
        (fun row ↦ { row with toLifecycle := .deletedNow now }) (documentChapters documentId db) :=
  filter_updateWhere (by intro _; rfl) _

/-- Marking touches no order index. -/
theorem chapterOrders_markHierarchy (now : Instant) (documentId : Uuid) (db : Db) :
    chapterOrders documentId (markHierarchy now documentId db) = chapterOrders documentId db := by
  rw [chapterOrders, documentChapters_markHierarchy]
  exact map_updateWhere (by intro _; rfl) _

/-- After marking, all chapters of the document are flagged. -/
theorem ChaptersPlaced.isDeleted_markHierarchy {count : ℕ}
    (hdb : ChaptersPlaced documentId count db) (now : Instant) :
    ∀ row ∈ documentChapters documentId (markHierarchy now documentId db),
      row.isDeleted = true := by
  intro row hmem
  rw [documentChapters_markHierarchy] at hmem
  obtain ⟨old, hold, rfl⟩ := mem_updateWhere.mp hmem
  split
  · rfl
  next hnot =>
    have hdocument : old.documentId = documentId := by simpa using (List.mem_filter.mp hold).2
    refine hdb.flagged old hold ?_
    simpa [hdocument, Option.isSome_iff_ne_none] using hnot

/-- When all chapters of a document are flagged, moving them succeeds exactly when all moved order
indices fit. -/
theorem shiftChapters_eq_ok
    (hflagged : ∀ row ∈ documentChapters documentId db, row.isDeleted = true) :
    shiftChapters documentId db = .ok next ↔
      (∀ order ∈ chapterOrders documentId db,
        order + nextNumber (chapterOrders documentId db) ≤ maxInteger) ∧
      next = { db with
        chapters := updateWhere (fun row ↦ row.documentId = documentId && row.isDeleted)
          (fun row ↦ { row with
            orderIndex := row.orderIndex + nextNumber (chapterOrders documentId db) })
          db.chapters } := by
  have hoffset : nextChapterOrder documentId db = nextNumber (chapterOrders documentId db) := rfl
  simp only [shiftChapters, raiseIf_bind_eq_ok, pure_eq_ok, hoffset]
  refine and_congr ?_ Iff.rfl
  rw [List.any_eq_false]
  constructor
  · intro hfits order horder
    obtain ⟨row, hrow, rfl⟩ := List.mem_map.mp horder
    obtain ⟨hmem, hdocument⟩ := List.mem_filter.mp hrow
    have hrowFits := hfits row hmem
    rw [hdocument, hflagged row hrow] at hrowFits
    simpa using hrowFits
  · intro hfits row hmem hselected
    simp only [Bool.and_eq_true, decide_eq_true_eq] at hselected
    obtain ⟨⟨hdocument, -⟩, hexceeds⟩ := hselected
    have hrow : row ∈ documentChapters documentId db :=
      List.mem_filter.mpr ⟨hmem, decide_eq_true hdocument⟩
    exact absurd (hfits _ (List.mem_map_of_mem hrow)) (Nat.not_le_of_lt hexceeds)

/-- The order indices after the move. -/
theorem chapterOrders_of_shiftChapters
    (hflagged : ∀ row ∈ documentChapters documentId db, row.isDeleted = true)
    (hshift : shiftChapters documentId db = .ok next) :
    chapterOrders documentId next =
      (chapterOrders documentId db).map fun order ↦
        order + nextNumber (chapterOrders documentId db) := by
  obtain ⟨-, rfl⟩ := (shiftChapters_eq_ok hflagged).mp hshift
  rw [chapterOrders, documentChapters, filter_updateWhere (by intro _; rfl), updateWhere,
    List.map_map, chapterOrders, List.map_map]
  refine List.map_congr_left fun row hrow ↦ ?_
  have hdocument := (List.mem_filter.mp hrow).2
  have hisDeleted : row.isDeleted = true := hflagged row hrow
  simp [hisDeleted, of_decide_eq_true hdocument]

/-- Moving succeeds when all moved places fit. -/
theorem ChaptersPlaced.markExisting_iff {count : ℕ} (hdb : ChaptersPlaced documentId count db) :
    (∃ next, markExistingHierarchyDeleted now documentId db = .ok next) ↔
      ∀ place ∈ placesAfter count, place + nextNumber (placesAfter count) ≤ maxInteger := by
  simp only [markExistingHierarchyDeleted, shiftChapters_eq_ok (hdb.isDeleted_markHierarchy now),
    chapterOrders_markHierarchy, hdb.orders, exists_and_left, exists_eq, and_true]

/-- The chapters of other documents stay as they are. -/
theorem documentChapters_of_markExisting {other : Uuid} (hne : other ≠ documentId)
    (hmark : markExistingHierarchyDeleted now documentId db = .ok next) :
    documentChapters other next = documentChapters other db := by
  obtain ⟨-, hnext⟩ := raiseIf_bind_eq_ok.mp hmark
  cases hnext
  have hapart : ∀ row : ChapterRow, row.documentId = documentId →
      decide (row.documentId = other) = false :=
    fun row hrow ↦ decide_eq_false (hrow ▸ hne.symm)
  have hmarked : documentChapters other (markHierarchy now documentId db) =
      documentChapters other db := by
    refine filter_updateWhere_of_not fun row _ hselected ↦ ?_
    have hrow := hapart row (of_decide_eq_true (Bool.and_eq_true_iff.mp hselected).1)
    exact ⟨hrow, hrow⟩
  rw [← hmarked]
  refine filter_updateWhere_of_not fun row _ hselected ↦ ?_
  have hrow := hapart row (of_decide_eq_true (Bool.and_eq_true_iff.mp hselected).1)
  exact ⟨hrow, hrow⟩

end Marking

/-! ### What a publication keeps -/

section Publishing

variable {host : Host} {ids : PublicationIds} {plan : PersistencePlan} {documentId : Uuid}
  {db next : Db}

/-- A hierarchy that is written adds the new chapter behind the moved ones. -/
theorem chapters_of_writeHierarchy (hdb : db.Consistent) {primarySourceId : Uuid}
    {paragraphs : List PlannedParagraph}
    (hwrite : writeHierarchy host ids plan primarySourceId paragraphs db = .ok next) :
    ∃ moved, markExistingHierarchyDeleted ids.now plan.documentId db = .ok moved ∧
      next.chapters = moved.chapters ++ [chapterRow ids plan] := by
  obtain ⟨prepared, hprepare, hparagraphs⟩ := bind_eq_ok.mp hwrite
  have hprepared := prepared_of_prepareHierarchy hdb hprepare
  obtain ⟨moved, hmark, hprepare⟩ := bind_eq_ok.mp hprepare
  obtain ⟨filed, hfile, hprepare⟩ := bind_eq_ok.mp hprepare
  obtain ⟨documented, hdocument, hchapter⟩ := bind_eq_ok.mp hprepare
  obtain ⟨_, _, rfl⟩ := exists_of_writeFile hfile
  obtain ⟨_, _, rfl⟩ := exists_of_writeDocument hdocument
  obtain ⟨-, -, rfl⟩ := Db.insertChapter_eq_ok.mp hchapter
  have hgrown := (grown_of_writeParagraphs hprepared.consistent hprepared.registered hparagraphs).2
  exact ⟨moved, hmark, hgrown.chapters⟩

/-- A publication of the document puts the new chapter in front of the others. -/
theorem ChaptersPlaced.written {count : ℕ} (hplaced : ChaptersPlaced plan.documentId count db)
    (hdb : db.Consistent) {primarySourceId : Uuid} {paragraphs : List PlannedParagraph}
    (hwrite : writeHierarchy host ids plan primarySourceId paragraphs db = .ok next) :
    ChaptersPlaced plan.documentId (count + 1) next := by
  obtain ⟨moved, hmark, hchapters⟩ := chapters_of_writeHierarchy hdb hwrite
  have hflagged := hplaced.isDeleted_markHierarchy ids.now
  have horders := chapterOrders_of_shiftChapters hflagged hmark
  rw [chapterOrders_markHierarchy, hplaced.orders] at horders
  have hdocument : documentChapters plan.documentId next =
      documentChapters plan.documentId moved ++ [chapterRow ids plan] := by
    rw [documentChapters, hchapters, List.filter_append]
    simp [documentChapters, chapterRow]
  constructor
  case orders =>
    rw [chapterOrders, hdocument, List.map_append]
    exact congrArg (· ++ [0]) horders
  case flagged =>
    intro row hmem hdeleted
    rw [hdocument] at hmem
    rcases List.mem_append.mp hmem with hold | hnew
    · obtain ⟨-, rfl⟩ := (shiftChapters_eq_ok hflagged).mp hmark
      rw [documentChapters, filter_updateWhere (by intro _; rfl)] at hold
      obtain ⟨earlier, hearlier, rfl⟩ := mem_updateWhere.mp hold
      have hisDeleted := hflagged earlier hearlier
      split <;> exact hisDeleted
    · rw [List.mem_singleton.mp hnew] at hdeleted
      cases hdeleted

/-- A publication of another document leaves the chapters of the document as they are. -/
theorem ChaptersPlaced.written_of_ne {count : ℕ}
    (hplaced : ChaptersPlaced documentId count db) (hne : documentId ≠ plan.documentId)
    (hdb : db.Consistent) {primarySourceId : Uuid} {paragraphs : List PlannedParagraph}
    (hwrite : writeHierarchy host ids plan primarySourceId paragraphs db = .ok next) :
    ChaptersPlaced documentId count next := by
  obtain ⟨moved, hmark, hchapters⟩ := chapters_of_writeHierarchy hdb hwrite
  have hsame : documentChapters documentId next = documentChapters documentId db := by
    rw [← documentChapters_of_markExisting hne hmark, documentChapters, hchapters,
      List.filter_append]
    simp [documentChapters, chapterRow, hne.symm]
  constructor
  case orders =>
    rw [chapterOrders, hsame]
    exact hplaced.orders
  case flagged =>
    rw [hsame]
    exact hplaced.flagged

end Publishing

/-! ### Runs -/

section Runs

variable {host : Host} {documentId : Uuid}

/-- What a publication keeps. -/
theorem ChaptersPlaced.countedStep {state next : CountedDb} {call : PublishCall}
    (hplaced : ChaptersPlaced documentId state.publications state.toDb) (hdb : state.Consistent)
    (hstep : countedStep host documentId state call = some next) :
    next.Consistent ∧ ChaptersPlaced documentId next.publications next.toDb := by
  unfold DocStore.countedStep at hstep
  split at hstep
  · cases hstep
    exact ⟨hdb, hplaced⟩
  next publication hpublish =>
    cases hstep
    obtain ⟨paragraphs, hierarchy, kept, runs, assertions, -, hwrite, htables, hkept⟩ :=
      tables_of_publish hpublish
    have hchapters : publication.db.chapters = kept.chapters := by rw [htables]
    have hwithin : ∀ count, ChaptersPlaced documentId count kept →
        ChaptersPlaced documentId count publication.db := by
      rintro count ⟨horders, hflagged⟩
      rw [htables]
      exact ⟨horders, hflagged⟩
    rcases hkept with ⟨hmatch, rfl⟩ | ⟨hnot, rfl⟩
    · refine ⟨htables ▸ (hdb.writeHierarchy hwrite).withEvidence runs assertions, hwithin _ ?_⟩
      by_cases hdocument : call.request.documentId = documentId
      · simp only [hdocument, hmatch, and_self, if_true]
        subst hdocument
        exact hplaced.written hdb hwrite
      · simp only [hdocument, false_and, if_false]
        exact hplaced.written_of_ne (fun heq ↦ hdocument heq.symm) hdb hwrite
    · refine ⟨htables ▸ hdb.withEvidence runs assertions, hwithin _ ?_⟩
      simp only [hnot, and_false, if_false]
      exact hplaced

/-- **Chapter ordering lasts for thirty-two publications.** After any publications of documents that
start in tables without a chapter of the document, the order indices of its chapters are distinct
and held by the column, and the statement that moves them does not overflow exactly when the
document has been published fewer than thirty-two times. -/
theorem ordersFit_iff (host : Host) (documentId : Uuid) (now : Instant) {initial final : CountedDb}
    (hconsistent : initial.Consistent) (hcount : initial.publications = 0)
    (hnew : ∀ row ∈ initial.chapters, row.documentId ≠ documentId)
    (hrun : Steps (DocStore.countedStep host documentId) (fun _ _ ↦ True) initial final) :
    OrdersFit now documentId final.toDb ↔ final.publications < 32 := by
  have hinitial : initial.Consistent ∧
      ChaptersPlaced documentId initial.publications initial.toDb := by
    have hnone : documentChapters documentId initial.toDb = [] :=
      List.filter_eq_nil_iff.mpr fun row hmem ↦ by simpa using hnew row hmem
    refine ⟨hconsistent, ?_, ?_⟩
    · rw [chapterOrders, hnone, hcount]
      rfl
    · rw [hnone]
      exact List.forall_mem_nil _
  obtain ⟨-, hplaced⟩ := hrun.invariant
    (motive := fun state ↦ state.Consistent ∧
      ChaptersPlaced documentId state.publications state.toDb)
    hinitial fun _ _ _ hstate _ hstep ↦ hstate.2.countedStep hstate.1 hstep
  have hcapacity : maxInteger + 1 = 2 ^ 31 := rfl
  constructor
  · rintro ⟨-, -, hmoves⟩
    rcases displacement_fits_iff.mp (hplaced.markExisting_iff.mp hmoves) with hzero | hfits
    · exact hzero.trans_lt (by decide)
    · rw [hcapacity] at hfits
      exact Nat.lt_succ_of_le ((Nat.pow_le_pow_iff_right one_lt_two).mp hfits)
  · intro hfew
    refine ⟨hplaced.orders ▸ nodup_placesAfter _, ?_, ?_⟩
    · rw [hplaced.orders]
      cases hpublications : final.publications with
      | zero => exact List.forall_mem_nil _
      | succ count =>
        rw [placesAfter_fit_iff, hcapacity]
        exact Nat.pow_le_pow_right two_pos (by omega)
    · rw [hplaced.markExisting_iff, displacement_fits_iff, hcapacity]
      exact Or.inr (Nat.pow_le_pow_right two_pos (Nat.le_of_lt_succ hfew))

end Runs

/-! ### A letter that is published again and again -/

/-- The numbered publication of a document with one sentence. -/
def letterPublication (number : ℕ) : PublishCall :=
  let paragraphChunks := (toOption (validateRuntimeChunks
    (.items [sampleItem (100 * number + 50) (lit "d") 0 1 0]) (lit "d") (sampleUuid 1))).getD []
  { ids := sampleIds number
    request := { sampleRequest with textValue := lit "d" }
    paragraphChunks
    sentenceChunks := (toOption (sentenceChunksFromParagraphBatch paragraphChunks (sampleUuid 1)
      (.batches [.items [sampleItem (100 * number + 51) (lit "d") 0 1 0]]))).getD [] }

/-- The tables after a number of publications of the letter. -/
def publishedLetters (count : ℕ) : Option CountedDb :=
  replay (guarded (countedStep sampleHost sampleRequest.documentId) fun _ _ ↦ True) {}
    ((List.range count).map fun number ↦ letterPublication (number + 1))

theorem steps_of_publishedLetters {count : ℕ} {final : CountedDb}
    (hfinal : publishedLetters count = some final) :
    Steps (countedStep sampleHost sampleRequest.documentId) (fun _ _ ↦ True) {} final := by
  have hpossible : (publishedLetters count).isSome = true := by rw [hfinal, Option.isSome_some]
  have hrun := steps_of_replay hpossible
  rw [← publishedLetters, hfinal] at hrun
  exact hrun

theorem ordersFit_publishedLetters : ∃ final, publishedLetters 3 = some final ∧
    final.publications = 3 ∧ OrdersFit 7 sampleRequest.documentId final.toDb := by
  have hall : ((publishedLetters 3).any fun final ↦ final.publications = 3) = true := by
    decide +kernel
  obtain ⟨final, hfinal, hcount⟩ := (Option.any_eq_true _ _).mp hall
  have hcount : final.publications = 3 := of_decide_eq_true hcount
  refine ⟨final, hfinal, hcount, (ordersFit_iff sampleHost sampleRequest.documentId 7
    Db.consistent_empty rfl (List.forall_mem_nil _) (steps_of_publishedLetters hfinal)).mpr ?_⟩
  rw [hcount]
  decide

/-- Thirty-two publications of one document that all match, after which it cannot be published
again: the statement that moves the superseded chapters overflows. -/
theorem exists_full_chapterOrder : ∃ final : CountedDb,
    Steps (countedStep sampleHost sampleRequest.documentId) (fun _ _ ↦ True) {} final ∧
      final.publications = 32 ∧
      ¬OrdersFit 33 sampleRequest.documentId final.toDb := by
  have hall : ((publishedLetters 32).any fun final ↦ final.publications = 32 &&
      !succeeds (markExistingHierarchyDeleted 33 sampleRequest.documentId final.toDb)) = true := by
    decide +kernel
  obtain ⟨final, hfinal, hfull⟩ := (Option.any_eq_true _ _).mp hall
  simp only [Bool.and_eq_true, decide_eq_true_eq, Bool.not_eq_true'] at hfull
  refine ⟨final, steps_of_publishedLetters hfinal, hfull.1, fun hfit ↦ ?_⟩
  obtain ⟨next, hnext⟩ := hfit.moves
  rw [hnext] at hfull
  cases hfull.2

end DocStore
