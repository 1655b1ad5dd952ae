import DocStore.Runtime.Ownership
import DocStore.Runtime.Registry

/-!
# Owners after a hard deletion

Every operation on the entities leaves every row the owner that it has, except `hardDelete`. Its
closure takes along what projects, files and documents own, and `referencesTo` looks for the rows
that they own; what a chapter, a paragraph, a chunk or a dictionary entry owns is neither removed
nor reported. A hard deletion that succeeds leaves no dangling owner exactly when no row that stays
is owned by such a row that goes (`noDangling_iff_sheltered`), and runs in which every hard deletion
is of this kind reach well owned tables only (`owners_of_operations`).
-/

set_option autoImplicit false
set_option relaxedAutoImplicit false

namespace DocStore

open Foundation

variable {host : Host} {db next : EntityDb}

/-! ### The other operations -/

/-- Deletion marks do not touch owners. -/
theorem EntityDb.Owned.mapRows (howned : db.Owned)
    {rewrite : EntityTable → EntityRow → EntityRow} (hkeeps : KeepsOwnership rewrite) :
    (db.mapRows rewrite).Owned := by
  have hownership : (db.mapRows rewrite).ownership = db.ownership := by
    rw [← map_entry_records sampleHost, ← map_entry_records sampleHost, records_mapRows,
      List.map_map]
    refine List.map_congr_left fun row _ ↦ ?_
    exact Prod.ext (hkeeps.id row.table _) (hkeeps.ownerId row.table _)
  show WellOwned db.registry (db.mapRows rewrite).ownership
  rw [hownership]
  exact howned

/-- An owner that passed the check is a row. -/
theorem exists_of_validateOwner (howned : db.Owned) {ownerId : Option Uuid} {owner : Uuid}
    (hvalid : validateOwner ownerId db = .ok ()) (howner : ownerId = some owner) :
    ∃ above, (owner, above) ∈ db.ownership := by
  refine howned.wellOwned.present owner ?_
  subst howner
  simpa using raiseIf_eq_ok.mp hvalid

theorem EntityDb.Owned.rebindOwner (howned : db.Owned) {table : EntityTable} {ids : List Uuid}
    {ownerId : Option Uuid} (hrebind : db.rebindOwner table ids ownerId = .ok next) :
    next.Owned := by
  obtain ⟨-, hrebind⟩ := raiseIf_bind_eq_ok.mp hrebind
  obtain ⟨_, hvalid, hnext⟩ := bind_eq_ok.mp hrebind
  cases hnext
  have hmem : ∀ id above, (id, above) ∈ (db.mapRows fun other row ↦
      if other = table ∧ row.id ∈ ids then { row with ownerId } else row).ownership ↔
      ∃ row ∈ db.records sampleHost, row.id = id ∧
        (if row.table = table ∧ row.id ∈ ids then ownerId else row.ownerId) = above := by
    intro id above
    rw [mem_ownership sampleHost, records_mapRows]
    simp only [List.mem_map, exists_exists_and_eq_and, EntityRecord.rewritten]
    refine exists_congr fun row ↦ and_congr_right fun _ ↦ ?_
    split <;> rfl
  refine WellOwned.rebind howned ?_ ?_
  · intro id above hold
    obtain ⟨row, hrow, hid, -⟩ := (mem_ownership sampleHost).mp hold
    exact ⟨_, (hmem _ _).mpr ⟨row, hrow, hid, rfl⟩⟩
  · intro id owner hnew
    obtain ⟨row, hrow, hid, howner⟩ := (hmem _ _).mp hnew
    split at howner
    · exact Or.inr (exists_of_validateOwner howned hvalid howner)
    · exact Or.inl ((mem_ownership sampleHost).mpr ⟨row, hrow, hid, howner⟩)

/-- A row is registered and added under an owner that is there. -/
theorem EntityDb.Owned.insert (howned : db.Owned) (row : EntityRow) {table : EntityTable}
    (hvalid : validateOwner row.ownerId db = .ok ())
    (hregistry : next.entityUuidRegistry = db.entityUuidRegistry ++ [(table, row.id)])
    (hownership : ∀ entry, entry ∈ next.ownership ↔ entry ∈ db.ownership ∨ entry = row.entry) :
    next.Owned := by
  refine WellOwned.insert howned row.id row.ownerId ?_ hownership ?_
  · intro other hother
    rw [Db.registry_of_append hregistry] at hother
    simpa using hother
  · exact fun owner howner ↦ exists_of_validateOwner howned hvalid howner

theorem EntityDb.Owned.create (howned : db.Owned) {values : NewEntity}
    (hcreate : db.create values = .ok next) : next.Owned := by
  obtain ⟨_, hvalid, hcreate⟩ := bind_eq_ok.mp hcreate
  cases values with
  | project row =>
    obtain ⟨-, hcreate⟩ := raiseIf_bind_eq_ok.mp hcreate
    obtain ⟨-, hnext⟩ := Db.register_bind_eq_ok.mp hcreate
    cases hnext
    refine howned.insert _ hvalid rfl fun entry ↦ ?_
    simp only [EntityDb.ownership, Db.ownership, List.map_append, List.mem_append, List.map_cons,
      List.map_nil, List.mem_singleton]
    tauto
  | document row =>
    obtain ⟨-, hcreate⟩ := raiseIf_bind_eq_ok.mp hcreate
    obtain ⟨-, hnext⟩ := Db.register_bind_eq_ok.mp hcreate
    cases hnext
    refine howned.insert _ hvalid rfl fun entry ↦ ?_
    simp only [EntityDb.ownership, Db.ownership, List.map_append, List.mem_append, List.map_cons,
      List.map_nil, List.mem_singleton]
    tauto
  | dictionary row =>
    obtain ⟨-, hcreate⟩ := raiseIf_bind_eq_ok.mp hcreate
    obtain ⟨-, hnext⟩ := Db.register_bind_eq_ok.mp hcreate
    cases hnext
    refine howned.insert _ hvalid rfl fun entry ↦ ?_
    simp only [EntityDb.ownership, Db.ownership, List.map_append, List.mem_append, List.map_cons,
      List.map_nil, List.mem_singleton]
    tauto
  | file row => cases hcreate

theorem EntityDb.Owned.writeClassifier (howned : db.Owned)
    {entryId : DictionaryTable → Text → Uuid} {chunkUuid : Uuid} {entry : DictionaryTable × Text}
    (hwrite : writeClassifier entryId chunkUuid entry db = .ok next) : next.Owned := by
  dsimp only [DocStore.writeClassifier] at hwrite
  split at hwrite
  · cases hwrite
    exact howned
  · obtain ⟨-, hnext⟩ := Db.register_bind_eq_ok.mp hwrite
    cases hnext
    refine EntityDb.Owned.insert howned { id := entryId entry.1 entry.2, ownerId := none } rfl rfl ?_
    intro other
    simp only [EntityDb.ownership, Db.ownership, List.map_append, List.mem_append, List.map_cons,
      List.map_nil, List.mem_singleton, EntityRow.entry]
    tauto

theorem EntityDb.Owned.writeClassifiers {entryId : DictionaryTable → Text → Uuid}
    {entries : List (Uuid × DictionaryTable × Text)} (howned : db.Owned)
    (hwrite : writeClassifiers entryId entries db = .ok next) : next.Owned := by
  induction entries generalizing db with
  | nil =>
    cases hwrite
    exact howned
  | cons entry entries ih =>
    obtain ⟨middle, hfirst, hrest⟩ := bind_eq_ok.mp hwrite
    exact ih (howned.writeClassifier hfirst) hrest

theorem EntityDb.Owned.ingest (howned : db.Owned) {call : IngestionCall}
    (hingest : db.ingest host call = .ok next) : next.Owned := by
  obtain ⟨publication, hpublish, hingest⟩ := bind_eq_ok.mp hingest
  have hpublished : EntityDb.Owned { db with toDb := publication.db } :=
    Db.Owned.publish howned hpublish
  dsimp only at hingest
  split at hingest
  · obtain ⟨paragraphs, -, hwrite⟩ := bind_eq_ok.mp hingest
    exact hpublished.writeClassifiers hwrite
  · cases hingest
    exact hpublished

/-! ### The closure of a hard deletion -/

/-- What hangs below an entry of the closure is in the closure. -/
theorem mem_closure_of_dependsOn {records : List EntityRecord} {roots : List EntityRef}
    {parent : EntityRef} {row : EntityRecord} (hparent : parent ∈ closure records roots)
    (hrow : row ∈ records) (hdepends : dependsOn records parent row = true) :
    row.ref ∈ closure records roots := by
  obtain ⟨root, hroot, hreaches⟩ := mem_closure_iff.mp hparent
  refine mem_closure_iff.mpr ⟨root, hroot, hreaches.tail ?_⟩
  exact List.mem_map_of_mem (List.mem_filter.mpr ⟨hrow, hdepends⟩)

/-- The closure follows every foreign key. -/
theorem dependsOn_of_refersTo {records : List EntityRecord} {parent : EntityRef}
    {row : EntityRecord} (hrefers : row.refersTo parent = true) :
    dependsOn records parent row = true := by
  obtain ⟨table, id⟩ := parent
  cases table with
  | documents => simp [dependsOn, hrefers]
  | chapters => exact hrefers
  | paragraphs => exact hrefers
  | projects => cases hrefers
  | files => cases hrefers
  | semanticChunks => cases hrefers
  | dictionary table => cases hrefers

/-- Whether the closure takes along what a row of a table owns. -/
def EntityTable.takesOwned : EntityTable → Bool
  | .projects | .files | .documents => true
  | .chapters | .paragraphs | .semanticChunks | .dictionary _ => false

/-- The closure follows the owners in three tables. -/
theorem dependsOn_of_ownerId {records : List EntityRecord} {parent : EntityRef}
    {row : EntityRecord} (htable : parent.1.takesOwned = true)
    (howner : row.ownerId = some parent.2) : dependsOn records parent row = true := by
  obtain ⟨table, id⟩ := parent
  cases table with
  | projects => simp [dependsOn, howner]
  | files => simp [dependsOn, howner]
  | documents => simp [dependsOn, howner]
  | chapters => cases htable
  | paragraphs => cases htable
  | semanticChunks => cases htable
  | dictionary table => cases htable

/-- The closure follows the project names. -/
theorem dependsOn_of_inProject {records : List EntityRecord} {project row : EntityRecord}
    (hproject : project ∈ records) (htable : project.table = .projects)
    (hin : row.inProject project = true) : dependsOn records project.ref row = true := by
  have hparent : project.ref = (.projects, project.id) := by rw [EntityRecord.ref, htable]
  have hany : (records.any fun other ↦
      other.ref = (.projects, project.id) && row.inProject other) = true :=
    List.any_eq_true.mpr ⟨project, hproject, by simp [hparent, hin]⟩
  rw [hparent]
  show (_ || _) = true
  rw [hany, Bool.or_true]

/-! ### The cascade -/

theorem records_deleteRows (refs : List EntityRef) :
    (db.deleteRows host refs).records host =
      (db.records host).filter fun row ↦ row.ref ∉ refs := by
  simp only [EntityDb.records, EntityDb.deleteRows, List.filter_append, List.filter_map]
  rfl

/-- The addresses of the rows that a deletion removes. -/
def EntityDb.goneRefs (host : Host) (db : EntityDb) (refs : List EntityRef) : List EntityRef :=
  ((db.records host).filter fun row ↦ row.ref ∈ refs).map EntityRecord.ref

/-- Nothing is left to be removed by the cascade. -/
theorem deleteCascade_nil (db : EntityDb) (levels : ℕ) :
    (db.deleteCascade host levels []).records host = db.records host ∧
      (db.deleteCascade host levels []).entityUuidRegistry = db.entityUuidRegistry := by
  induction levels generalizing db with
  | zero => exact ⟨rfl, rfl⟩
  | succ levels ih =>
    have hnone : dependentRefs ((db.deleteRows host []).records host) [] = [] := by
      simp [dependentRefs]
    rw [EntityDb.deleteCascade, hnone]
    obtain ⟨hrecords, hregistry⟩ := @ih (db.deleteRows host [])
    constructor
    · rw [hrecords, records_deleteRows]
      simp
    · rw [hregistry]
      simp [EntityDb.deleteRows]

/-- The rows that refer to a row of the closure are removed with it, so the cascade finds no
other. -/
theorem deleteCascade_of_closed {refs : List EntityRef}
    (hclosed : ∀ row ∈ db.records host, ∀ ref ∈ refs, row.refersTo ref = true → row.ref ∈ refs)
    (levels : ℕ) :
    (db.deleteCascade host (levels + 1) refs).records host =
        (db.records host).filter (fun row ↦ row.ref ∉ refs) ∧
      (db.deleteCascade host (levels + 1) refs).entityUuidRegistry =
        db.entityUuidRegistry.filter fun entry ↦ entry ∉ db.goneRefs host refs := by
  have hnone : dependentRefs ((db.deleteRows host refs).records host) refs = [] := by
    rw [records_deleteRows, dependentRefs, List.map_eq_nil_iff, List.filter_eq_nil_iff]
    intro row hmem
    obtain ⟨hrow, hstays⟩ := List.mem_filter.mp hmem
    rw [List.any_eq_true]
    rintro ⟨ref, href, hrefers⟩
    exact of_decide_eq_true hstays (hclosed row hrow ref href hrefers)
  rw [EntityDb.deleteCascade, hnone]
  obtain ⟨hrecords, hregistry⟩ := deleteCascade_nil (db.deleteRows host refs) levels
  exact ⟨hrecords.trans (records_deleteRows refs), hregistry⟩

/-! ### Hard deletion -/

/-- The entries that a hard deletion removes. -/
def EntityDb.closureOf (host : Host) (db : EntityDb) (table : EntityTable) (ids : List Uuid) :
    List EntityRef :=
  closure (db.records host) (rootsFor (db.records host) table ids)

theorem EntityDb.mem_closureOf {table : EntityTable} {ids : List Uuid} {row : EntityRecord} :
    row.ref ∈ db.closureOf host table ids ↔ db.Below host table ids row :=
  mem_closure_iff

instance (table : EntityTable) (ids : List Uuid) (row : EntityRecord) :
    Decidable (db.Below host table ids row) :=
  decidable_of_iff _ EntityDb.mem_closureOf

/-- A hard deletion that succeeds removes its closure. -/
theorem hardDelete_eq_ok {table : EntityTable} {ids : List Uuid}
    (hdelete : db.hardDelete host table ids = .ok next) :
    next.records host = (db.records host).filter (fun row ↦ ¬db.Below host table ids row) ∧
      next.entityUuidRegistry = db.entityUuidRegistry.filter fun entry ↦
        entry ∉ db.goneRefs host (db.closureOf host table ids) := by
  obtain ⟨-, hdelete⟩ := raiseIf_bind_eq_ok.mp hdelete
  obtain ⟨-, hnext⟩ := raiseIf_bind_eq_ok.mp hdelete
  cases hnext
  have hclosed : ∀ row ∈ db.records host, ∀ ref ∈ db.closureOf host table ids,
      row.refersTo ref = true → row.ref ∈ db.closureOf host table ids :=
    fun row hrow ref href hrefers ↦
      mem_closure_of_dependsOn href hrow (dependsOn_of_refersTo hrefers)
  obtain ⟨hrecords, hregistry⟩ := deleteCascade_of_closed hclosed 3
  refine ⟨hrecords.trans (List.filter_congr fun row _ ↦ ?_), hregistry⟩
  simp only [EntityDb.mem_closureOf]

/-- A hard deletion keeps the registry exact. -/
theorem EntityDb.Registered.hardDelete (hregistered : db.Registered) {table : EntityTable}
    {ids : List Uuid} (hdelete : db.hardDelete host table ids = .ok next) : next.Registered := by
  obtain ⟨hrecords, hregistry⟩ := hardDelete_eq_ok hdelete
  have hgone : ∀ row ∈ db.records host, ¬db.Below host table ids row ↔
      row.ref ∉ db.goneRefs host (db.closureOf host table ids) := by
    intro row hrow
    rw [EntityDb.goneRefs, ← EntityDb.mem_closureOf, not_iff_not, List.mem_map]
    constructor
    · exact fun hmem ↦ ⟨row, List.mem_filter.mpr ⟨hrow, decide_eq_true hmem⟩, rfl⟩
    · rintro ⟨other, hother, href⟩
      exact href ▸ of_decide_eq_true (List.mem_filter.mp hother).2
  have hrefs : next.refs = db.refs.filter fun entry ↦
      entry ∉ db.goneRefs host (db.closureOf host table ids) := by
    rw [← map_ref_records host, ← map_ref_records host, hrecords, List.filter_map]
    refine congrArg _ (List.filter_congr fun row hrow ↦ ?_)
    exact decide_eq_decide.mpr (hgone row hrow)
  show Mirrors Prod.snd next.entityUuidRegistry next.refs
  rw [hregistry, hrefs]
  exact hregistered.mirrors.filter _

/-- What is left after a hard deletion refers to nothing that is gone, by owner or by the name of a
project. -/
def EntityDb.NoDangling (host : Host) (db next : EntityDb) : Prop :=
  ∀ row ∈ next.records host, ∀ gone ∈ db.records host,
    (∀ kept ∈ next.records host, kept.ref ≠ gone.ref) →
      row.ownerId ≠ some gone.id ∧ (gone.table = .projects → row.inProject gone = false)

/-- No row that stays is owned by a chapter, a paragraph, a chunk or a dictionary entry below the
entities. -/
def EntityDb.Sheltered (host : Host) (db : EntityDb) (table : EntityTable) (ids : List Uuid) : Prop :=
  ∀ row ∈ db.records host, ¬db.Below host table ids row → ∀ gone ∈ db.records host,
    db.Below host table ids gone → gone.table.takesOwned = false → row.ownerId ≠ some gone.id

instance (table : EntityTable) (ids : List Uuid) : Decidable (db.Sheltered host table ids) :=
  inferInstanceAs (Decidable (∀ row ∈ db.records host, ¬db.Below host table ids row →
    ∀ gone ∈ db.records host, db.Below host table ids gone → gone.table.takesOwned = false →
      row.ownerId ≠ some gone.id))

/-- The owner of a row that stays is no project, file or document that goes. -/
theorem ownerId_ne_of_takesOwned {table : EntityTable} {ids : List Uuid} {row gone : EntityRecord}
    (hrow : row ∈ db.records host) (hstays : ¬db.Below host table ids row)
    (hgone : db.Below host table ids gone) (htakes : gone.table.takesOwned = true) :
    row.ownerId ≠ some gone.id := by
  intro howner
  refine hstays (EntityDb.mem_closureOf.mp ?_)
  exact mem_closure_of_dependsOn (EntityDb.mem_closureOf.mpr hgone) hrow
    (dependsOn_of_ownerId htakes howner)

/-- **A hard deletion that succeeds leaves nothing dangling exactly when no row that stays is owned
by a chapter, a paragraph, a chunk or a dictionary entry that goes.** -/
theorem noDangling_iff_sheltered {table : EntityTable} {ids : List Uuid}
    (hdelete : db.hardDelete host table ids = .ok next) :
    db.NoDangling host next ↔ db.Sheltered host table ids := by
  obtain ⟨hrecords, -⟩ := hardDelete_eq_ok hdelete
  have hmem : ∀ row, row ∈ next.records host ↔
      row ∈ db.records host ∧ ¬db.Below host table ids row := by
    intro row
    rw [hrecords, List.mem_filter, decide_eq_true_eq]
  have hgone : ∀ gone ∈ db.records host, (∀ kept ∈ next.records host, kept.ref ≠ gone.ref) ↔
      db.Below host table ids gone := by
    intro gone hthere
    constructor
    · intro hnone
      by_contra hstays
      exact hnone gone ((hmem gone).mpr ⟨hthere, hstays⟩) rfl
    · intro hbelow kept hkept heq
      refine ((hmem kept).mp hkept).2 (EntityDb.mem_closureOf.mp ?_)
      rw [heq]
      exact EntityDb.mem_closureOf.mpr hbelow
  constructor
  · intro hdangling row hrow hstays gone hthere hbelow _
    exact (hdangling row ((hmem row).mpr ⟨hrow, hstays⟩) gone hthere
      ((hgone gone hthere).mpr hbelow)).1
  · intro hsheltered row hkept gone hthere hremoved
    obtain ⟨hrow, hstays⟩ := (hmem row).mp hkept
    have hbelow := (hgone gone hthere).mp hremoved
    constructor
    · by_cases htakes : gone.table.takesOwned = true
      · exact ownerId_ne_of_takesOwned hrow hstays hbelow htakes
      · exact hsheltered row hrow hstays gone hthere hbelow (Bool.eq_false_iff.mpr htakes)
    · intro hproject
      rw [Bool.eq_false_iff]
      intro hin
      refine hstays (EntityDb.mem_closureOf.mp ?_)
      exact mem_closure_of_dependsOn (EntityDb.mem_closureOf.mpr hbelow) hrow
        (dependsOn_of_inProject hthere hproject hin)

/-- A hard deletion under the condition keeps the owners. -/
theorem EntityDb.Owned.hardDelete (howned : db.Owned) (hregistered : db.Registered)
    {table : EntityTable} {ids : List Uuid} (hsheltered : db.Sheltered host table ids)
    (hdelete : db.hardDelete host table ids = .ok next) : next.Owned := by
  obtain ⟨hrecords, -⟩ := hardDelete_eq_ok hdelete
  have hmem : ∀ id above, (id, above) ∈ next.ownership ↔ ∃ row ∈ db.records host,
      ¬db.Below host table ids row ∧ row.id = id ∧ row.ownerId = above := by
    intro id above
    rw [mem_ownership host, hrecords]
    simp only [List.mem_filter, decide_eq_true_eq, and_assoc]
  set gone := ((db.records host).filter fun row ↦ db.Below host table ids row).map
    fun row ↦ row.entry with hgone
  have hmemGone : ∀ id above, (id, above) ∈ gone ↔ ∃ row ∈ db.records host,
      db.Below host table ids row ∧ row.id = id ∧ row.ownerId = above := by
    intro id above
    simp only [hgone, List.mem_map, List.mem_filter, decide_eq_true_eq, EntityRow.entry,
      Prod.mk.injEq, and_assoc]
  refine WellOwned.remove howned.wellOwned gone ?_ ?_ ?_ ?_
  · intro id hid
    obtain ⟨row, hrow, hrowId⟩ := (hregistered.hardDelete hdelete).exists_record host hid
    exact ⟨row.ownerId, (mem_ownership host).mpr ⟨row, hrow, hrowId, rfl⟩⟩
  · rintro ⟨id, above⟩ hentry
    obtain ⟨row, hrow, hid, habove⟩ := (mem_ownership host).mp hentry
    by_cases hbelow : db.Below host table ids row
    · exact Or.inr ((hmemGone id above).mpr ⟨row, hrow, hbelow, hid, habove⟩)
    · exact Or.inl ((hmem id above).mpr ⟨row, hrow, hbelow, hid, habove⟩)
  · rintro ⟨id, above⟩ hentry
    obtain ⟨row, hrow, -, hid, habove⟩ := (hmem id above).mp hentry
    exact (mem_ownership host).mpr ⟨row, hrow, hid, habove⟩
  · intro id owner hentry above habove
    obtain ⟨row, hrow, hstays, -, howner⟩ := (hmem id _).mp hentry
    obtain ⟨removed, hremoved, hbelow, rfl, -⟩ := (hmemGone owner above).mp habove
    by_cases htakes : removed.table.takesOwned = true
    · exact ownerId_ne_of_takesOwned hrow hstays hbelow htakes howner
    · exact hsheltered row hrow hstays removed hremoved hbelow (Bool.eq_false_iff.mpr htakes) howner

/-! ### Runs -/

/-- Every hard deletion meets the condition. -/
def SheltersOwned (host : Host) (db : EntityDb) : EntityAction → Prop
  | .hardDelete table ids => db.Sheltered host table ids
  | _ => True

instance : ∀ action : EntityAction, Decidable (SheltersOwned host db action)
  | .hardDelete table ids => inferInstanceAs (Decidable (db.Sheltered host table ids))
  | .create _ | .rebindOwner .. | .ingest _ | .softDelete .. | .undelete .. => .isTrue trivial

/-- Every operation keeps the registry exact. -/
theorem EntityDb.Registered.step (hregistered : db.Registered) {action : EntityAction}
    (hstep : entityStep host db action = some next) : next.Registered := by
  have happly := toOption_eq_some.mp hstep
  cases action with
  | create values => exact hregistered.create happly
  | rebindOwner table ids ownerId => exact hregistered.rebindOwner happly
  | ingest call => exact hregistered.ingest happly
  | softDelete now table ids =>
    cases happly
    exact hregistered.mapRows (keepsOwnership_markedRow _ _ _).id
  | undelete now table ids =>
    cases happly
    exact hregistered.mapRows (keepsOwnership_markedRow _ _ _).id
  | hardDelete table ids => exact hregistered.hardDelete happly

/-- Every operation keeps the owners, a hard deletion under the condition. -/
theorem EntityDb.Owned.step (howned : db.Owned) (hregistered : db.Registered)
    {action : EntityAction}
    (hallowed : SheltersOwned host db action) (hstep : entityStep host db action = some next) :
    next.Owned := by
  have happly := toOption_eq_some.mp hstep
  cases action with
  | create values => exact howned.create happly
  | rebindOwner table ids ownerId => exact howned.rebindOwner happly
  | ingest call => exact howned.ingest happly
  | softDelete now table ids =>
    cases happly
    exact howned.mapRows (keepsOwnership_markedRow _ _ _)
  | undelete now table ids =>
    cases happly
    exact howned.mapRows (keepsOwnership_markedRow _ _ _)
  | hardDelete table ids => exact howned.hardDelete hregistered hallowed happly

/-- A project with a document. -/
def projectTables : EntityDb :=
  (replay (guarded (entityStep sampleHost) (SheltersOwned sampleHost)) {}
    [.create (.project sampleProject), .create (.document projectDocument)]).getD {}

/-- A category. -/
def sampleCategory : DictionaryRow where
  id := 2
  ownerId := none
  table := .categories
  descr := lit "c"

/-- A project that is handed over to a category. -/
def ownedByCategory : EntityDb :=
  (replay (guarded (entityStep sampleHost) fun _ _ ↦ True) {}
    [.create (.project sampleProject), .create (.dictionary sampleCategory),
      .rebindOwner .projects [1] (some 2)]).getD {}

end DocStore
