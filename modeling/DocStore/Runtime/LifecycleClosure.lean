import DocStore.Foundation.Additions
import DocStore.Foundation.Batches
import DocStore.Runtime.Registry

/-!
# The loop behind the closure

`_closure` collects addresses in a set. Every pass looks at the addresses collected so far, groups
them by table, asks the database for the rows that hang below each of them, and notes whether it
has added one; the loop ends with the first pass that has not. The order in which Python walks
through its sets is a parameter (`SetOrder`).

The loop ends on every database, with the least set that holds the roots and the children of its
addresses (`closureReturns_isLeast`), and that set is the `closure` on which the deletions are
modelled (`mem_closureReturns_iff`).
-/

set_option autoImplicit false
set_option relaxedAutoImplicit false

namespace DocStore

open Foundation

/-! ### Queries -/

/-- `SELECT id FROM table WHERE condition`. -/
def selectIds (records : List EntityRecord) (table : EntityTable)
    (condition : EntityRecord → Bool) : List Uuid :=
  (records.filter fun row ↦ row.table = table && condition row).map fun row ↦ row.id

/-- Adds the rows that a query has returned. -/
def addRows (table : EntityTable) (ids : List Uuid) : Addition EntityRef :=
  inTurn (ids.map fun id ↦ addNew (table, id))

/-- The order in which Python walks through a set of addresses and through `OWNER_TABLES`. -/
structure SetOrder where
  refs : List EntityRef → List EntityRef
  mem_refs : ∀ found ref, ref ∈ refs found ↔ ref ∈ found
  ownerTables : List EntityTable
  mem_ownerTables : ∀ table, table ∈ ownerTables

/-- A walk in the order of insertion. -/
def SetOrder.ofInsertion : SetOrder where
  refs found := found
  mem_refs _ _ := Iff.rfl
  ownerTables := dictionaryReferenceColumns.map (fun column ↦ .dictionary column.1) ++
    [.projects, .files, .documents, .chapters, .paragraphs, .semanticChunks]
  mem_ownerTables table := by
    cases table with
    | dictionary table => cases table <;> decide
    | _ => decide

/-- `_group_refs`, and `grouped.get(table, ())`. -/
def groupRefs (order : SetOrder) (found : List EntityRef) (table : EntityTable) : List Uuid :=
  valuesOf table (order.refs found)

section Helpers

variable (records : List EntityRecord)

/-- `_add_children`. -/
def addChildren (table : EntityTable) (column : EntityRecord → Option Uuid) (parentId : Uuid) :
    Addition EntityRef :=
  addRows table (selectIds records table fun row ↦ column row = some parentId)

/-- `_add_owner_children`. -/
def addOwnerChildren (order : SetOrder) (ownerId : Uuid) : Addition EntityRef :=
  inTurn (order.ownerTables.map fun table ↦
    addRows table (selectIds records table fun row ↦ row.ownerId = some ownerId))

/-- `_add_project_documents`. -/
def addProjectDocuments (projectId : Uuid) : Addition EntityRef :=
  match records.find? fun row ↦ row.ref = (.projects, projectId) with
  | none => fun found ↦ (found, false)
  | some project =>
    addRows .documents (selectIds records .documents fun row ↦ row.inProject project)

/-- What a pass of `_closure` adds, when it begins with some addresses. -/
def closurePass (order : SetOrder) (found : List EntityRef) : Addition EntityRef :=
  let ids := groupRefs order found
  (inTurn ((ids .projects).map fun projectId ↦
      (addOwnerChildren records order projectId).andThen
        (addProjectDocuments records projectId))).andThen <|
    (inTurn ((ids .files).map (addOwnerChildren records order))).andThen <|
    (inTurn ((ids .documents).map fun documentId ↦
      (addOwnerChildren records order documentId).andThen <|
        (addChildren records .chapters EntityRecord.documentId documentId).andThen <|
        (addChildren records .paragraphs EntityRecord.documentId documentId).andThen
          (addChildren records .semanticChunks EntityRecord.documentId documentId))).andThen <|
    (inTurn ((ids .chapters).map fun chapterId ↦
      (addChildren records .paragraphs EntityRecord.chapterId chapterId).andThen
        (addChildren records .semanticChunks EntityRecord.chapterId chapterId))).andThen <|
    inTurn ((ids .paragraphs).map
      (addChildren records .semanticChunks EntityRecord.paragraphId))

/-- The loop of `_closure` returns. -/
def ClosureReturns (order : SetOrder) (roots result : List EntityRef) : Prop :=
  EndsWith (untilUnchanged (closurePass records order)) roots.eraseDups result

end Helpers

/-! ### Children -/

/-- What hangs below an address: what it owns, the documents that a project is named in, and the
rows with a foreign key to it. -/
inductive ChildOf (records : List EntityRecord) : EntityRef → EntityRef → Prop
  | owned {table : EntityTable} {id : Uuid} {row : EntityRecord}
      (howner : table = .projects ∨ table = .files ∨ table = .documents) (hrow : row ∈ records)
      (hid : row.ownerId = some id) : ChildOf records (table, id) row.ref
  | inProject {id : Uuid} {project row : EntityRecord}
      (hproject : records.find? (fun row ↦ row.ref = (.projects, id)) = some project)
      (hrow : row ∈ records) (hnamed : row.inProject project = true) :
      ChildOf records (.projects, id) row.ref
  | ofDocument {id : Uuid} {row : EntityRecord} (hrow : row ∈ records)
      (htable : row.table ∈ [.chapters, .paragraphs, .semanticChunks])
      (hid : row.documentId = some id) : ChildOf records (.documents, id) row.ref
  | ofChapter {id : Uuid} {row : EntityRecord} (hrow : row ∈ records)
      (htable : row.table ∈ [.paragraphs, .semanticChunks]) (hid : row.chapterId = some id) :
      ChildOf records (.chapters, id) row.ref
  | ofParagraph {id : Uuid} {row : EntityRecord} (hrow : row ∈ records)
      (htable : row.table = .semanticChunks) (hid : row.paragraphId = some id) :
      ChildOf records (.paragraphs, id) row.ref

/-- Children are rows. -/
theorem ChildOf.mem_refs {records : List EntityRecord} {parent child : EntityRef}
    (hchild : ChildOf records parent child) : child ∈ records.map EntityRecord.ref := by
  cases hchild with
  | owned _ hrow _ => exact List.mem_map_of_mem hrow
  | inProject _ hrow _ => exact List.mem_map_of_mem hrow
  | ofDocument hrow _ _ => exact List.mem_map_of_mem hrow
  | ofChapter hrow _ _ => exact List.mem_map_of_mem hrow
  | ofParagraph hrow _ _ => exact List.mem_map_of_mem hrow

/-! ### What the helpers add -/

section Adds

variable (records : List EntityRecord) (order : SetOrder)

theorem mem_groupRefs {found : List EntityRef} {table : EntityTable} {id : Uuid} :
    id ∈ groupRefs order found table ↔ (table, id) ∈ found := by
  simp only [groupRefs, valuesOf, List.mem_map, List.mem_filter, decide_eq_true_eq, order.mem_refs]
  constructor
  · rintro ⟨ref, ⟨hmem, rfl⟩, rfl⟩
    exact hmem
  · exact fun hmem ↦ ⟨(table, id), ⟨hmem, rfl⟩, rfl⟩

/-- Adding the rows of a query adds the rows that meet its condition. -/
theorem adds_addRows (table : EntityTable) (condition : EntityRecord → Bool) :
    Adds (fun ref ↦ ∃ row ∈ records, row.table = table ∧ condition row = true ∧ row.ref = ref)
      (addRows table (selectIds records table condition)) := by
  refine (adds_inTurn fun id _ ↦ adds_addNew (table, id)).congr fun ref ↦ ?_
  simp only [selectIds, List.mem_map, List.mem_filter, Bool.and_eq_true, decide_eq_true_eq]
  constructor
  · rintro ⟨_, ⟨row, ⟨hrow, rfl, hcondition⟩, rfl⟩, rfl⟩
    exact ⟨row, hrow, rfl, hcondition, rfl⟩
  · rintro ⟨row, hrow, rfl, hcondition, rfl⟩
    exact ⟨row.id, ⟨row, ⟨hrow, rfl, hcondition⟩, rfl⟩, rfl⟩

theorem adds_addChildren (table : EntityTable) (column : EntityRecord → Option Uuid) (id : Uuid) :
    Adds (fun ref ↦ ∃ row ∈ records, row.table = table ∧ column row = some id ∧ row.ref = ref)
      (addChildren records table column id) :=
  (adds_addRows records table _).congr fun ref ↦ by simp only [decide_eq_true_eq]

theorem adds_addOwnerChildren (id : Uuid) :
    Adds (fun ref ↦ ∃ row ∈ records, row.ownerId = some id ∧ row.ref = ref)
      (addOwnerChildren records order id) := by
  refine (adds_inTurn fun table _ ↦ adds_addRows records table _).congr fun ref ↦ ?_
  simp only [decide_eq_true_eq]
  constructor
  · rintro ⟨table, -, row, hrow, -, hid, href⟩
    exact ⟨row, hrow, hid, href⟩
  · rintro ⟨row, hrow, hid, href⟩
    exact ⟨row.table, order.mem_ownerTables row.table, row, hrow, rfl, hid, href⟩

theorem adds_addProjectDocuments (id : Uuid) :
    Adds (fun ref ↦ ∃ project,
        records.find? (fun row ↦ row.ref = (.projects, id)) = some project ∧
          ∃ row ∈ records, row.inProject project = true ∧ row.ref = ref)
      (addProjectDocuments records id) := by
  unfold addProjectDocuments
  split
  next hnone => exact adds_nothing.congr fun ref ↦ by simp [hnone]
  next project hproject =>
    refine (adds_addRows records .documents _).congr fun ref ↦ ?_
    constructor
    · rintro ⟨row, hrow, -, hnamed, href⟩
      exact ⟨project, hproject, row, hrow, hnamed, href⟩
    · rintro ⟨other, hother, row, hrow, hnamed, href⟩
      obtain rfl : project = other := Option.some.inj (hproject.symm.trans hother)
      have htable : row.table = .documents :=
        of_decide_eq_true (Bool.and_eq_true_iff.mp hnamed).1
      exact ⟨row, hrow, htable, hnamed, href⟩

/-- A pass adds the children of the addresses with which it begins. -/
theorem adds_closurePass (found : List EntityRef) :
    Adds (fun ref ↦ ∃ parent ∈ found, ChildOf records parent ref)
      (closurePass records order found) := by
  have hprojects := adds_inTurn fun id (_ : id ∈ groupRefs order found .projects) ↦
    (adds_addOwnerChildren records order id).andThen (adds_addProjectDocuments records id)
  have hfiles := adds_inTurn fun id (_ : id ∈ groupRefs order found .files) ↦
    adds_addOwnerChildren records order id
  have hdocuments := adds_inTurn fun id (_ : id ∈ groupRefs order found .documents) ↦
    (adds_addOwnerChildren records order id).andThen <|
      (adds_addChildren records .chapters EntityRecord.documentId id).andThen <|
        (adds_addChildren records .paragraphs EntityRecord.documentId id).andThen
          (adds_addChildren records .semanticChunks EntityRecord.documentId id)
  have hchapters := adds_inTurn fun id (_ : id ∈ groupRefs order found .chapters) ↦
    (adds_addChildren records .paragraphs EntityRecord.chapterId id).andThen
      (adds_addChildren records .semanticChunks EntityRecord.chapterId id)
  have hparagraphs := adds_inTurn fun id (_ : id ∈ groupRefs order found .paragraphs) ↦
    adds_addChildren records .semanticChunks EntityRecord.paragraphId id
  refine (hprojects.andThen <| hfiles.andThen <| hdocuments.andThen <| hchapters.andThen
    hparagraphs).congr fun ref ↦ ?_
  simp only [mem_groupRefs order]
  constructor
  · rintro (⟨id, hid, ⟨row, hrow, howner, rfl⟩ | ⟨project, hproject, row, hrow, hnamed, rfl⟩⟩ |
      ⟨id, hid, row, hrow, howner, rfl⟩ | ⟨id, hid, ⟨row, hrow, howner, rfl⟩ |
        ⟨row, hrow, htable, hcolumn, rfl⟩ | ⟨row, hrow, htable, hcolumn, rfl⟩ |
        ⟨row, hrow, htable, hcolumn, rfl⟩⟩ |
      ⟨id, hid, ⟨row, hrow, htable, hcolumn, rfl⟩ | ⟨row, hrow, htable, hcolumn, rfl⟩⟩ |
      ⟨id, hid, row, hrow, htable, hcolumn, rfl⟩)
    · exact ⟨_, hid, .owned (by simp) hrow howner⟩
    · exact ⟨_, hid, .inProject hproject hrow hnamed⟩
    · exact ⟨_, hid, .owned (by simp) hrow howner⟩
    · exact ⟨_, hid, .owned (by simp) hrow howner⟩
    · exact ⟨_, hid, .ofDocument hrow (by simp [htable]) hcolumn⟩
    · exact ⟨_, hid, .ofDocument hrow (by simp [htable]) hcolumn⟩
    · exact ⟨_, hid, .ofDocument hrow (by simp [htable]) hcolumn⟩
    · exact ⟨_, hid, .ofChapter hrow (by simp [htable]) hcolumn⟩
    · exact ⟨_, hid, .ofChapter hrow (by simp [htable]) hcolumn⟩
    · exact ⟨_, hid, .ofParagraph hrow htable hcolumn⟩
  · rintro ⟨parent, hparent, hchild⟩
    cases hchild with
    | @owned table id row howner hrow hid =>
      rcases howner with rfl | rfl | rfl
      · exact .inl ⟨id, hparent, .inl ⟨row, hrow, hid, rfl⟩⟩
      · exact .inr (.inl ⟨id, hparent, row, hrow, hid, rfl⟩)
      · exact .inr (.inr (.inl ⟨id, hparent, .inl ⟨row, hrow, hid, rfl⟩⟩))
    | @inProject id project row hproject hrow hnamed =>
      exact .inl ⟨id, hparent, .inr ⟨project, hproject, row, hrow, hnamed, rfl⟩⟩
    | @ofDocument id row hrow htable hid =>
      refine .inr (.inr (.inl ⟨id, hparent, .inr ?_⟩))
      simp only [List.mem_cons, List.not_mem_nil, or_false] at htable
      rcases htable with htable | htable | htable
      · exact .inl ⟨row, hrow, htable, hid, rfl⟩
      · exact .inr (.inl ⟨row, hrow, htable, hid, rfl⟩)
      · exact .inr (.inr ⟨row, hrow, htable, hid, rfl⟩)
    | @ofChapter id row hrow htable hid =>
      refine .inr (.inr (.inr (.inl ⟨id, hparent, ?_⟩)))
      simp only [List.mem_cons, List.not_mem_nil, or_false] at htable
      rcases htable with htable | htable
      · exact .inl ⟨row, hrow, htable, hid, rfl⟩
      · exact .inr ⟨row, hrow, htable, hid, rfl⟩
    | @ofParagraph id row hrow htable hid =>
      exact .inr (.inr (.inr (.inr ⟨id, hparent, row, hrow, htable, hid, rfl⟩)))

end Adds

/-! ### The closure -/

/-- **The closure is the least closed set of addresses** above its roots, on every database and in
every order in which Python walks through its sets. -/
theorem closureReturns_isLeast (host : Host) (db : EntityDb) (order : SetOrder)
    (roots : List EntityRef) :
    ∃ result, ClosureReturns (db.records host) order roots result ∧ result.Nodup ∧
      IsLeast (ClosedUnder (ChildOf (db.records host)) roots) {ref | ref ∈ result} := by
  obtain ⟨result, hreturns, hnodup, hleast⟩ := exists_least
    (fun found ↦ adds_closurePass (db.records host) order found)
    (fun parent child hchild ↦ hchild.mem_refs) (nodup_eraseDups roots)
  refine ⟨result, hreturns, hnodup, ?_⟩
  have hroots : ClosedUnder (ChildOf (db.records host)) roots.eraseDups =
      ClosedUnder (ChildOf (db.records host)) roots := by
    simp only [ClosedUnder, List.mem_eraseDups]
  exact hroots ▸ hleast

/-- Two files that own each other, and a document of the second one. -/
def cyclicRecords : List EntityRecord :=
  [{ table := .files, id := 1, ownerId := some 2 }, { table := .files, id := 2, ownerId := some 1 },
    { table := .documents, id := 3, ownerId := some 2 }]

example : loop (untilUnchanged (closurePass cyclicRecords .ofInsertion)) 3 [(.files, 1)] =
    some [(.files, 1), (.files, 2), (.documents, 3)] := by decide +kernel

section Registered

variable {host : Host} {db : EntityDb}

/-- A foreign key to a document tells the tables of a row. -/
theorem table_of_documentId {row : EntityRecord} (hrow : row ∈ db.records host) {id : Uuid}
    (hid : row.documentId = some id) : row.table ∈ [.chapters, .paragraphs, .semanticChunks] := by
  rcases mem_records_iff.mp hrow with ⟨_, -, rfl⟩ | ⟨_, -, rfl⟩ | ⟨_, -, rfl⟩ | ⟨_, -, rfl⟩ |
    ⟨_, -, rfl⟩ | ⟨_, -, rfl⟩ | ⟨_, -, rfl⟩
  · cases hid
  · cases hid
  · cases hid
  · cases hid
  · exact List.mem_cons_self
  · exact List.mem_cons_of_mem _ List.mem_cons_self
  · exact List.mem_cons_of_mem _ (List.mem_cons_of_mem _ List.mem_cons_self)

theorem table_of_chapterId {row : EntityRecord} (hrow : row ∈ db.records host) {id : Uuid}
    (hid : row.chapterId = some id) : row.table ∈ [.paragraphs, .semanticChunks] := by
  rcases mem_records_iff.mp hrow with ⟨_, -, rfl⟩ | ⟨_, -, rfl⟩ | ⟨_, -, rfl⟩ | ⟨_, -, rfl⟩ |
    ⟨_, -, rfl⟩ | ⟨_, -, rfl⟩ | ⟨_, -, rfl⟩
  · cases hid
  · cases hid
  · cases hid
  · cases hid
  · cases hid
  · exact List.mem_cons_self
  · exact List.mem_cons_of_mem _ List.mem_cons_self

theorem table_of_paragraphId {row : EntityRecord} (hrow : row ∈ db.records host) {id : Uuid}
    (hid : row.paragraphId = some id) : row.table = .semanticChunks := by
  rcases mem_records_iff.mp hrow with ⟨_, -, rfl⟩ | ⟨_, -, rfl⟩ | ⟨_, -, rfl⟩ | ⟨_, -, rfl⟩ |
    ⟨_, -, rfl⟩ | ⟨_, -, rfl⟩ | ⟨_, -, rfl⟩
  · cases hid
  · cases hid
  · cases hid
  · cases hid
  · cases hid
  · cases hid
  · rfl

/-- A registered address is the address of one row. -/
theorem find_of_mem_records (hregistered : db.Registered) {row : EntityRecord} {ref : EntityRef}
    (hrow : row ∈ db.records host) (href : row.ref = ref) :
    (db.records host).find? (fun row ↦ row.ref = ref) = some row := by
  have hnodup : ((db.records host).map EntityRecord.ref).Nodup := by
    rw [map_ref_records]
    exact hregistered.mirrors.nodup
  cases hfound : (db.records host).find? fun row ↦ row.ref = ref with
  | none => exact absurd href (by simpa using List.find?_eq_none.mp hfound row hrow)
  | some other =>
    have hother : other.ref = ref := by simpa using List.find?_some hfound
    rw [List.inj_on_of_nodup_map hnodup (List.mem_of_find?_eq_some hfound) hrow
      (hother.trans href.symm)]

/-- What hangs below an address is what a pass of the modelled closure adds. -/
theorem childOf_iff (hregistered : db.Registered) {parent child : EntityRef} :
    ChildOf (db.records host) parent child ↔ child ∈ childRefs (db.records host) parent := by
  simp only [childRefs, List.mem_map, List.mem_filter]
  constructor
  · intro hchild
    cases hchild with
    | @owned table id row howner hrow hid =>
      refine ⟨row, ⟨hrow, ?_⟩, rfl⟩
      rcases howner with rfl | rfl | rfl <;> simp [dependsOn, hid]
    | @inProject id project row hproject hrow hnamed =>
      refine ⟨row, ⟨hrow, ?_⟩, rfl⟩
      have href : project.ref = (.projects, id) := by simpa using List.find?_some hproject
      refine Bool.or_eq_true_iff.mpr (.inr (List.any_eq_true.mpr
        ⟨project, List.mem_of_find?_eq_some hproject, ?_⟩))
      rw [Bool.and_eq_true, decide_eq_true_eq]
      exact ⟨href, hnamed⟩
    | @ofDocument id row hrow htable hid =>
      exact ⟨row, ⟨hrow, by simp [dependsOn, EntityRecord.refersTo, hid]⟩, rfl⟩
    | @ofChapter id row hrow htable hid =>
      exact ⟨row, ⟨hrow, by simp [dependsOn, EntityRecord.refersTo, hid]⟩, rfl⟩
    | @ofParagraph id row hrow htable hid =>
      exact ⟨row, ⟨hrow, by simp [dependsOn, EntityRecord.refersTo, hid]⟩, rfl⟩
  · rintro ⟨row, ⟨hrow, hdepends⟩, rfl⟩
    obtain ⟨table, id⟩ := parent
    cases table with
    | dictionary table => cases hdepends
    | semanticChunks => cases hdepends
    | projects =>
      rcases Bool.or_eq_true_iff.mp hdepends with howner | hnamed
      · exact .owned (by simp) hrow (of_decide_eq_true howner)
      · obtain ⟨project, hproject, hnamed⟩ := List.any_eq_true.mp hnamed
        rw [Bool.and_eq_true, decide_eq_true_eq] at hnamed
        exact .inProject (find_of_mem_records hregistered hproject hnamed.1) hrow hnamed.2
    | files => exact .owned (by simp) hrow (of_decide_eq_true hdepends)
    | documents =>
      rcases Bool.or_eq_true_iff.mp hdepends with howner | hrefers
      · exact .owned (by simp) hrow (of_decide_eq_true howner)
      · have hid : row.documentId = some id := of_decide_eq_true hrefers
        exact .ofDocument hrow (table_of_documentId hrow hid) hid
    | chapters =>
      have hid : row.chapterId = some id := of_decide_eq_true hdepends
      exact .ofChapter hrow (table_of_chapterId hrow hid) hid
    | paragraphs =>
      have hid : row.paragraphId = some id := of_decide_eq_true hdepends
      exact .ofParagraph hrow (table_of_paragraphId hrow hid) hid

/-- On registered rows the loop returns the closure that the deletions are modelled with. -/
theorem mem_closureReturns_iff (hregistered : db.Registered) {order : SetOrder}
    {roots result : List EntityRef} (hreturns : ClosureReturns (db.records host) order roots result)
    {ref : EntityRef} : ref ∈ result ↔ ref ∈ closure (db.records host) roots := by
  have hleast := isLeast_of_endsWith
    (fun found ↦ adds_closurePass (db.records host) order found) hreturns
  rw [mem_closure_iff]
  constructor
  · have hclosed : {ref | ∃ root ∈ roots, Reaches (childRefs (db.records host)) root ref} ∈
        ClosedUnder (ChildOf (db.records host)) roots.eraseDups := by
      refine ⟨fun root hroot ↦ ⟨root, List.mem_eraseDups.mp hroot, .refl⟩, ?_⟩
      rintro parent ⟨root, hroot, hreaches⟩ child hchild
      exact ⟨root, hroot, hreaches.tail ((childOf_iff hregistered).mp hchild)⟩
    exact fun hmem ↦ hleast.2 hclosed hmem
  · rintro ⟨root, hroot, hreaches⟩
    induction hreaches with
    | refl => exact hleast.1.1 root (List.mem_eraseDups.mpr hroot)
    | tail _ hchild ih => exact hleast.1.2 _ ih _ ((childOf_iff hregistered).mpr hchild)

end Registered

end DocStore
