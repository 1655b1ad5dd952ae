import DocStore.Foundation.GrowingRows
import DocStore.Runtime.DocumentRebind

/-!
# Concurrent updates of metadata

`SemanticChunkMetadataService.update_metadata` and `rebind_document` change the metadata of rows in
the same way: they read a whole object, merge some keys into it in memory, and write the whole object
back. At READ COMMITTED another transaction may commit between the two statements, and then its keys
are overwritten by what was read before.

Every row carries a list of what has been merged into it so far, in order; only the proofs read it.
Nothing is lost when the metadata read as if everything in this list had been merged in turn, the
list has what each committed operation merged, and nothing else. That holds of all runs in which, at
every write of a chunk, the chunk still has what was read of it under the keys that are not written
(`nothingLost_of_run`).

Dictionary entries, assignments and tags are in tables of their own and are left out, and so are
projects and dry runs. Where a statement on them fails, the transaction is aborted.
-/

set_option autoImplicit false
set_option relaxedAutoImplicit false

namespace DocStore

open Foundation ReadCommitted

/-! ### Rows and writes -/

/-- A document, a chapter, a paragraph or a chunk, as far as its metadata are concerned. -/
structure MetaRow where
  documentId : Uuid
  deletedAt : Option Instant := none
  blockMeta : Dict
  merged : List Dict := []
deriving DecidableEq

/-- An object that is written back: what was read, and the entries that were merged into it. -/
structure MetaWrite where
  key : EntityRef
  read : Dict
  entries : Dict
deriving DecidableEq

/-- The row after a write. -/
def MetaWrite.apply (write : MetaWrite) (row : MetaRow) : MetaRow :=
  { row with
    blockMeta := updateKeys write.read write.entries
    merged := row.merged ++ [write.entries] }

/-- `UPDATE … SET block_meta = … WHERE id = …`. -/
def MetaWrite.operation (write : MetaWrite) : Operation EntityRef MetaRow :=
  .update write.key fun row ↦ some (write.apply row)

/-! ### The operations -/

/-- What `_validated_updates` returns: the fields that an update names. -/
structure MetadataPatch where
  type : Option Text := none
  role : Option Text := none
  status : Option Text := none
  blockType : Option Text := none
  language : Option Text := none
  category : Option Text := none
  tags : Option (List Text) := none
  summary : Option (Option Text) := none
  title : Option (Option Text) := none
  classification : Option Dict := none

/-- What `_update_one` merges. -/
def MetadataPatch.entries (patch : MetadataPatch) : Dict :=
  [("type", patch.type), ("role", patch.role), ("status", patch.status),
      ("block_type", patch.blockType), ("language", patch.language),
      ("category", patch.category)].filterMap (fun field ↦
    field.2.map fun value ↦ (field.1, Json.str value)) ++
  (match patch.tags with
    | none => []
    | some tags => [("tags", .arr (tags.map .str)), ("tags_flat", .str (joinTexts (lit ", ") tags))])
    ++
  (patch.summary.map fun value ↦ ("summary", Json.ofOption value)).toList ++
  (patch.title.map fun value ↦ ("title", Json.ofOption value)).toList ++
  (patch.classification.map fun value ↦ ("classification", Json.obj value)).toList

/-- An operation: `update_metadata` with the chunks that it selects and what it merges into each, or
`rebind_document` with the UUID of the project that is applied. -/
inductive MetadataCall where
  | update (targets : Snapshot EntityRef MetaRow → List (Uuid × MetadataPatch))
  | rebind (call : RebindCall) (applied : Option Uuid)

/-- Where an operation stands. Everything that it has read it has merged, and it writes it back next
or has done so. -/
inductive MetadataPhase where
  | begun
  | updating (made : List MetaWrite) (targets : List (Uuid × MetadataPatch))
  | merging (made : List MetaWrite) (documentId : Uuid) (updates : Dict)
      (tables : List EntityTable)
  | committed (made : List MetaWrite)
  | failed

/-- The objects that an operation has put together. -/
def MetadataPhase.made : MetadataPhase → List MetaWrite
  | begun | failed => []
  | updating made _ | merging made _ _ _ | committed made => made

/-- Whether an operation has committed. -/
def MetadataPhase.isCommitted : MetadataPhase → Bool
  | committed _ => true
  | _ => false

/-- `_merge_child_meta` of a table: its rows are read by one statement and written back one by one. -/
def childWrites (snapshot : Snapshot EntityRef MetaRow) (documentId : Uuid) (updates : Dict)
    (table : EntityTable) : List MetaWrite :=
  (snapshot.select fun key row ↦ key.1 = table && row.documentId = documentId &&
      row.deletedAt.isNone).filterMap fun key ↦
    (snapshot.row key).map fun row ↦ { key, read := row.blockMeta, entries := updates }

/-- The next statement of an operation. -/
def metadataStatement (snapshot : Snapshot EntityRef MetaRow) (call : MetadataCall) :
    MetadataPhase → Statement EntityRef MetaRow MetadataPhase
  | .begun =>
    match call with
    | .update targets => .execute [] (.updating [] (targets snapshot))
    | .rebind call applied =>
      match (snapshot.row (.documents, call.documentId)).filter fun row ↦ row.deletedAt.isNone with
      | none => .rollback .failed
      | some row =>
        let write : MetaWrite :=
          { key := (.documents, call.documentId)
            read := row.blockMeta
            entries := call.documentUpdates applied }
        .execute [write.operation] (.merging [write] call.documentId (call.childUpdates applied)
          [.chapters, .paragraphs, .semanticChunks])
  | .updating made [] => .commit (.committed made)
  | .updating made ((id, patch) :: targets) =>
    match snapshot.row (.semanticChunks, id) with
    | none => .rollback .failed
    | some row =>
      let write : MetaWrite :=
        { key := (.semanticChunks, id), read := row.blockMeta, entries := patch.entries }
      .execute [write.operation] (.updating (made ++ [write]) targets)
  | .merging made _ _ [] => .commit (.committed made)
  | .merging made documentId updates (table :: tables) =>
    let writes := childWrites snapshot documentId updates table
    .execute (writes.map MetaWrite.operation) (.merging (made ++ writes) documentId updates tables)
  | .committed _ | .failed => .finished

section Operations

variable {ι : Type} [DecidableEq ι]

/-- Operations that work on the rows. -/
abbrev MetadataSystem (ι : Type) := ReadCommitted.System ι EntityRef MetaRow MetadataPhase

/-- The operations with some indices. -/
def metadataProtocol (calls : ι → MetadataCall) : Protocol ι EntityRef MetaRow MetadataPhase where
  statement index phase snapshot := metadataStatement snapshot (calls index) phase
  abandoned := .failed

/-! ### The condition -/

/-- The object that an operation writes back next. -/
def currentWrite (session : Session EntityRef MetaRow MetadataPhase) : Option MetaWrite :=
  (session.phase.made.drop (session.phase.made.length - session.operations.length)).head?

/-- Two objects agree on the keys that are not among some entries. -/
def AgreeOutside (entries first second : Dict) : Prop :=
  ∀ name, name ∉ entries.map Prod.fst → getKey first name = getKey second name

theorem agreeOutside_iff {entries first second : Dict} : AgreeOutside entries first second ↔
    ∀ name ∈ (first ++ second).map Prod.fst, name ∉ entries.map Prod.fst →
      getKey first name = getKey second name := by
  refine ⟨fun hagree name _ ↦ hagree name, fun hagree name hnot ↦ ?_⟩
  by_cases hname : name ∈ (first ++ second).map Prod.fst
  · exact hagree name hname hnot
  · rw [List.map_append, List.mem_append, not_or] at hname
    have hnone : ∀ fields : Dict, name ∉ fields.map Prod.fst → getKey fields name = none :=
      fun fields hfields ↦ getKey_eq_none.mpr fun entry hentry heq ↦
        hfields (List.mem_map.mpr ⟨entry, hentry, heq⟩)
    rw [hnone first hname.1, hnone second hname.2]

instance (entries first second : Dict) : Decidable (AgreeOutside entries first second) :=
  decidable_of_iff _ agreeOutside_iff.symm

/-- When an operation writes a chunk, the chunk has what was read of it, under the keys that are not
written. -/
def ReadsCurrent (system : MetadataSystem ι) : ReadCommitted.Action ι → Prop
  | .run index => ∀ write ∈ currentWrite (system.session index),
      write.key.1 = .semanticChunks → ∀ row ∈ system.tables.view index write.key,
        AgreeOutside write.entries write.read row.blockMeta
  | .abort _ => True

instance (system : MetadataSystem ι) : DecidablePred (ReadsCurrent system)
  | .run index => inferInstanceAs (Decidable (∀ write ∈ currentWrite (system.session index),
      write.key.1 = .semanticChunks → ∀ row ∈ system.tables.view index write.key,
        AgreeOutside write.entries write.read row.blockMeta))
  | .abort _ => inferInstanceAs (Decidable True)

/-! ### The property -/

omit [DecidableEq ι] in
/-- A committed operation has merged some entries into a row. -/
def MergedBy (system : MetadataSystem ι) (key : EntityRef) (entries : Dict) : Prop :=
  ∃ index, (system.session index).phase.isCommitted = true ∧
    ∃ write ∈ (system.session index).phase.made, write.key = key ∧ write.entries = entries

/-- No update of metadata is lost. -/
structure NothingLost (initial final : MetadataSystem ι) : Prop where
  /-- The metadata of a chunk read as if everything had been merged in turn. -/
  inTurn : ∀ id row, final.tables.committed (.semanticChunks, id) = some row →
    ∃ old, initial.tables.committed (.semanticChunks, id) = some old ∧
      ∀ name, getKey row.blockMeta name = getKey (row.merged.foldl updateKeys old.blockMeta) name
  /-- What a committed operation merged is in the list of the row. -/
  complete : ∀ index made, (final.session index).phase = .committed made → ∀ write ∈ made,
    ∃ row, final.tables.committed write.key = some row ∧ write.entries ∈ row.merged
  /-- Nothing else is. -/
  sound : ∀ key row, final.tables.committed key = some row → ∀ entries ∈ row.merged,
    MergedBy final key entries

/-! ### Statements -/

section Statements

variable {snapshot : Snapshot EntityRef MetaRow} {call : MetadataCall} {phase next : MetadataPhase}

omit [DecidableEq ι] in
theorem key_of_mem_childWrites {documentId : Uuid} {updates : Dict} {table : EntityTable}
    {write : MetaWrite} (hwrite : write ∈ childWrites snapshot documentId updates table) :
    (snapshot.row write.key).isSome := by
  obtain ⟨key, -, hread⟩ := List.mem_filterMap.mp hwrite
  obtain ⟨row, hrow, rfl⟩ := Option.map_eq_some_iff.mp hread
  exact Option.isSome_iff_exists.mpr ⟨row, hrow⟩

/-- What an operation executes is to write back what it reads. -/
theorem execute_spec {operations : List (Operation EntityRef MetaRow)}
    (hstatement : metadataStatement snapshot call phase = .execute operations next) :
    ∃ writes, next.made = phase.made ++ writes ∧ operations = writes.map MetaWrite.operation ∧
      (∀ write ∈ writes, (snapshot.row write.key).isSome) ∧ next.isCommitted = false ∧
      phase.isCommitted = false := by
  cases phase with
  | begun =>
    cases call with
    | update targets =>
      cases hstatement
      exact ⟨[], rfl, rfl, by simp, rfl, rfl⟩
    | rebind call applied =>
      simp only [metadataStatement] at hstatement
      split at hstatement
      · cases hstatement
      next row hrow =>
        cases hstatement
        refine ⟨_, rfl, rfl, ?_, rfl, rfl⟩
        rw [List.forall_mem_singleton]
        exact Option.isSome_iff_exists.mpr ⟨row, Option.eq_some_of_filter_eq_some hrow⟩
  | updating made targets =>
    cases targets with
    | nil => cases hstatement
    | cons target targets =>
      simp only [metadataStatement] at hstatement
      split at hstatement
      · cases hstatement
      next row hrow =>
        cases hstatement
        refine ⟨_, rfl, rfl, ?_, rfl, rfl⟩
        rw [List.forall_mem_singleton]
        exact Option.isSome_iff_exists.mpr ⟨row, hrow⟩
  | merging made documentId updates tables =>
    cases tables with
    | nil => cases hstatement
    | cons table tables =>
      cases hstatement
      exact ⟨_, rfl, rfl, fun write hwrite ↦ key_of_mem_childWrites hwrite, rfl, rfl⟩
  | committed => cases hstatement
  | failed => cases hstatement

/-- What an operation commits is everything that it has put together. -/
theorem commit_spec (hstatement : metadataStatement snapshot call phase = .commit next) :
    next.made = phase.made ∧ next.isCommitted = true ∧ phase.isCommitted = false := by
  cases phase with
  | begun =>
    cases call with
    | update targets => cases hstatement
    | rebind call applied =>
      simp only [metadataStatement] at hstatement
      split at hstatement <;> cases hstatement
  | updating made targets =>
    cases targets with
    | nil =>
      cases hstatement
      exact ⟨rfl, rfl, rfl⟩
    | cons target targets =>
      simp only [metadataStatement] at hstatement
      split at hstatement <;> cases hstatement
  | merging made documentId updates tables =>
    cases tables with
    | nil =>
      cases hstatement
      exact ⟨rfl, rfl, rfl⟩
    | cons table tables => cases hstatement
  | committed => cases hstatement
  | failed => cases hstatement

theorem rollback_spec (hstatement : metadataStatement snapshot call phase = .rollback next) :
    next = .failed ∧ phase.isCommitted = false := by
  cases phase with
  | begun =>
    cases call with
    | update targets => cases hstatement
    | rebind call applied =>
      simp only [metadataStatement] at hstatement
      split at hstatement
      · cases hstatement
        exact ⟨rfl, rfl⟩
      · cases hstatement
  | updating made targets =>
    cases targets with
    | nil => cases hstatement
    | cons target targets =>
      simp only [metadataStatement] at hstatement
      split at hstatement
      · cases hstatement
        exact ⟨rfl, rfl⟩
      · cases hstatement
  | merging made documentId updates tables =>
    cases tables with
    | nil => cases hstatement
    | cons table tables => cases hstatement
  | committed => cases hstatement
  | failed => cases hstatement

end Statements

/-! ### Where an operation stands -/

/-- Some rows have what a write merged. -/
def Contains (rows : EntityRef → Option MetaRow) (write : MetaWrite) : Prop :=
  ∃ row, rows write.key = some row ∧ write.entries ∈ row.merged

/-- What a row grows by: entries that are merged. -/
def MetaRow.GrowsTo (old new : MetaRow) : Prop := old.merged <+: new.merged

instance : Std.Refl MetaRow.GrowsTo := ⟨fun _ ↦ List.prefix_rfl⟩

instance : IsTrans MetaRow MetaRow.GrowsTo := ⟨fun _ _ _ ↦ List.IsPrefix.trans⟩

theorem MetaWrite.grows_operation (write : MetaWrite) :
    write.operation.Grows MetaRow.GrowsTo := by
  intro row new hchange
  obtain rfl := Option.some.inj hchange
  exact List.prefix_append _ _

/-- An operation has performed a part of its writes and has still to perform the others, whose rows
are there. -/
structure WriterStanding (committed own : EntityRef → Option MetaRow)
    (session : Session EntityRef MetaRow MetadataPhase) : Prop where
  split : ∃ done rest, session.phase.made = done ++ rest ∧
    session.operations = rest.map MetaWrite.operation ∧
    (∀ write ∈ done, Contains (if session.phase.isCommitted then committed else own) write) ∧
    ∀ write ∈ rest, (committed write.key).isSome
  complete : session.phase.isCommitted = true → session.operations = []

theorem writerStanding_failed (committed own : EntityRef → Option MetaRow) :
    WriterStanding committed own { phase := .failed } :=
  ⟨⟨[], [], rfl, rfl, by simp, by simp⟩, fun _ ↦ rfl⟩

theorem Contains.mono {old new : EntityRef → Option MetaRow} {write : MetaWrite}
    (hcontains : Contains old write) (hgrown : GrownFrom MetaRow.GrowsTo old new) :
    Contains new write := by
  obtain ⟨row, hrow, hmem⟩ := hcontains
  obtain ⟨later, hlater, hleading⟩ := hgrown write.key row hrow
  exact ⟨later, hlater, hleading.subset hmem⟩

/-- The standing of an operation survives what the others commit. -/
theorem WriterStanding.mono {old new own : EntityRef → Option MetaRow}
    {session : Session EntityRef MetaRow MetadataPhase} (hstanding : WriterStanding old own session)
    (hgrown : GrownFrom MetaRow.GrowsTo old new) : WriterStanding new own session := by
  obtain ⟨done, rest, hmade, hoperations, hdone, hrest⟩ := hstanding.split
  refine ⟨⟨done, rest, hmade, hoperations, fun write hwrite ↦ ?_, fun write hwrite ↦ ?_⟩,
    hstanding.complete⟩
  · have hcontains := hdone write hwrite
    split at hcontains
    next hcommitted =>
      rw [if_pos hcommitted]
      exact hcontains.mono hgrown
    next hnot =>
      rw [if_neg hnot]
      exact hcontains
  · obtain ⟨row, hrow⟩ := Option.isSome_iff_exists.mp (hrest write hwrite)
    obtain ⟨later, hlater, -⟩ := hgrown write.key row hrow
    exact Option.isSome_iff_exists.mpr ⟨later, hlater⟩

theorem WriterStanding.grows {committed own : EntityRef → Option MetaRow}
    {session : Session EntityRef MetaRow MetadataPhase} (hstanding : WriterStanding committed own session) :
    ∀ operation ∈ session.operations, operation.Grows MetaRow.GrowsTo := by
  obtain ⟨done, rest, -, hoperations, -⟩ := hstanding.split
  intro operation hmem
  rw [hoperations] at hmem
  obtain ⟨write, -, rfl⟩ := List.mem_map.mp hmem
  exact write.grows_operation

/-- The next operation is the write that is current. -/
theorem WriterStanding.current {committed own : EntityRef → Option MetaRow}
    {session : Session EntityRef MetaRow MetadataPhase} (hstanding : WriterStanding committed own session)
    {operation : Operation EntityRef MetaRow} {rest : List (Operation EntityRef MetaRow)}
    (hoperations : session.operations = operation :: rest) :
    session.phase.isCommitted = false ∧ ∃ done write later,
      session.phase.made = done ++ write :: later ∧ operation = write.operation ∧
      rest = later.map MetaWrite.operation ∧ currentWrite session = some write ∧
      (∀ write ∈ done, Contains own write) ∧
      ∀ waiting ∈ write :: later, (committed waiting.key).isSome := by
  have hnot : session.phase.isCommitted = false := by
    by_contra hcommitted
    rw [hstanding.complete (Bool.not_eq_false _ ▸ hcommitted)] at hoperations
    cases hoperations
  obtain ⟨done, writes, hmade, hwrites, hdone, hwaiting⟩ := hstanding.split
  rw [hnot] at hdone
  cases writes with
  | nil => cases hoperations.symm.trans hwrites
  | cons write later =>
    obtain ⟨rfl, rfl⟩ := List.cons.inj (hoperations.symm.trans hwrites)
    refine ⟨hnot, done, write, later, hmade, rfl, rfl, ?_, hdone, hwaiting⟩
    rw [currentWrite, hmade, hoperations]
    simp

/-- What a session sees is there when it is committed. -/
theorem exists_view {tables : Tables ι EntityRef MetaRow} (index : ι) {key : EntityRef}
    (hthere : (tables.committed key).isSome) : ∃ row, tables.view index key = some row := by
  obtain ⟨row, hrow⟩ := Option.isSome_iff_exists.mp hthere
  cases hown : tables.own index key with
  | none => exact ⟨row, by rw [Tables.view, hown, hrow, Option.none_or]⟩
  | some version => exact ⟨version, Tables.view_of_own hown⟩

theorem result_operation {write : MetaWrite} {view : EntityRef → Option MetaRow} {row : MetaRow}
    (hview : view write.key = some row) :
    write.operation.result view = some (write.apply row) := by
  rw [MetaWrite.operation, Operation.result, hview, Option.bind_some]

/-- A write that is performed is contained in what the session has written. -/
theorem WriterStanding.perform {tables : Tables ι EntityRef MetaRow} {index : ι}
    {session : Session EntityRef MetaRow MetadataPhase}
    (hstanding : WriterStanding tables.committed (tables.own index) session)
    {operation : Operation EntityRef MetaRow} {rest : List (Operation EntityRef MetaRow)}
    (hoperations : session.operations = operation :: rest) :
    WriterStanding (tables.written index operation).committed
      ((tables.written index operation).own index) { session with operations := rest } := by
  obtain ⟨hnot, done, write, later, hmade, rfl, rfl, -, hdone, hthere⟩ :=
    hstanding.current hoperations
  obtain ⟨row, hview⟩ := exists_view index (hthere write List.mem_cons_self)
  have hown : (tables.written index write.operation).own index write.key =
      some (write.apply row) := Tables.own_written_key (result_operation hview)
  rw [Tables.committed_written]
  refine ⟨⟨done ++ [write], later, by rw [hmade, List.append_assoc]; rfl, rfl, ?_,
    fun waiting hwaiting ↦ hthere waiting (List.mem_cons_of_mem _ hwaiting)⟩,
    fun hcommitted ↦ absurd hcommitted (by rw [hnot]; decide)⟩
  rw [hnot]
  refine List.forall_mem_append.mpr ⟨fun old hold ↦ ?_, List.forall_mem_singleton.mpr ?_⟩
  · obtain ⟨version, hversion, hmem⟩ := hdone old hold
    by_cases hkey : old.key = write.key
    · rw [hkey] at hversion
      obtain rfl := Option.some.inj ((Tables.view_of_own hversion).symm.trans hview)
      exact ⟨_, hkey ▸ hown, List.mem_append_left _ hmem⟩
    · exact ⟨version, (Tables.own_written_of_key_ne hkey).trans hversion, hmem⟩
  · exact ⟨_, hown, List.mem_append_right _ List.mem_cons_self⟩

/-! ### The system -/

variable {calls : ι → MetadataCall} {initial system next : MetadataSystem ι}
  {action : ReadCommitted.Action ι}

/-- The metadata of a chunk read as if everything had been merged in turn. -/
def InTurn (initial : MetadataSystem ι) (key : EntityRef) (row : MetaRow) : Prop :=
  key.1 = .semanticChunks → ∃ old, initial.tables.committed key = some old ∧
    ∀ name, getKey row.blockMeta name = getKey (row.merged.foldl updateKeys old.blockMeta) name

/-- What holds at any moment. -/
structure Accounted (initial system : MetadataSystem ι) : Prop where
  growing : system.tables.Growing MetaRow.GrowsTo
  inTurn : system.tables.Every (InTurn initial)
  standing : ∀ index,
    WriterStanding system.tables.committed (system.tables.own index) (system.session index)
  committedBy : ∀ key row, system.tables.committed key = some row → ∀ entries ∈ row.merged,
    MergedBy system key entries
  ownBy : ∀ index key row, system.tables.own index key = some row → ∀ entries ∈ row.merged,
    MergedBy system key entries ∨
      ∃ write ∈ (system.session index).phase.made, write.key = key ∧ write.entries = entries

/-- An operation that has committed does nothing any more. -/
theorem Accounted.not_committed (hsystem : Accounted initial system)
    (hstep : (metadataProtocol calls).step system action = some next) :
    (system.session action.index).phase.isCommitted = false := by
  by_contra hcommitted
  rw [Bool.not_eq_false] at hcommitted
  have hcomplete := (hsystem.standing action.index).complete hcommitted
  have hnext : (metadataProtocol calls).next system action.index = .finished := by
    show metadataStatement _ _ (system.session action.index).phase = .finished
    cases hphase : (system.session action.index).phase with
    | committed made => rfl
    | _ =>
      rw [hphase] at hcommitted
      cases hcommitted
  cases Protocol.progress_of_step hstep with
  | abandon hunfinished =>
    rw [Protocol.isFinished, hcomplete, hnext] at hunfinished
    cases hunfinished
  | perform hoperations _ _ => cases hcomplete.symm.trans hoperations
  | start _ hstatement => cases hnext.symm.trans hstatement
  | commit _ hstatement => cases hnext.symm.trans hstatement
  | rollback _ hstatement => cases hnext.symm.trans hstatement

/-- What a committed operation merged, it has merged for good. -/
theorem Accounted.mergedBy_mono (hsystem : Accounted initial system)
    (hstep : (metadataProtocol calls).step system action = some next) {key : EntityRef}
    {entries : Dict} (hmerged : MergedBy system key entries) : MergedBy next key entries := by
  obtain ⟨index, hcommitted, hwrite⟩ := hmerged
  have hne : index ≠ action.index := by
    rintro rfl
    rw [hsystem.not_committed hstep] at hcommitted
    cases hcommitted
  have hsame := ((Protocol.progress_of_step hstep).frame hne).1
  exact ⟨index, by rw [hsame]; exact hcommitted, by rw [hsame]; exact hwrite⟩

omit [DecidableEq ι] in
/-- A write of a chunk merges its entries into what the chunk has. -/
theorem inTurn_apply {write : MetaWrite} {row : MetaRow}
    (hagree : write.key.1 = .semanticChunks → AgreeOutside write.entries write.read row.blockMeta)
    (hrow : InTurn initial write.key row) : InTurn initial write.key (write.apply row) := by
  intro hchunk
  obtain ⟨old, hold, hread⟩ := hrow hchunk
  refine ⟨old, hold, fun name ↦ ?_⟩
  calc getKey (updateKeys write.read write.entries) name
      = getKey (updateKeys row.blockMeta write.entries) name :=
        getKey_updateKeys_congr (hagree hchunk name)
    _ = getKey (updateKeys (row.merged.foldl updateKeys old.blockMeta) write.entries) name :=
        getKey_updateKeys_congr fun _ ↦ hread name
    _ = getKey ((row.merged ++ [write.entries]).foldl updateKeys old.blockMeta) name := by
        rw [List.foldl_append, List.foldl_cons, List.foldl_nil]

/-- A step that writes what was read keeps the metadata in turn. -/
theorem Accounted.inTurn_of_step (hsystem : Accounted initial system)
    (hallowed : ReadsCurrent system action)
    (hstep : (metadataProtocol calls).step system action = some next) :
    next.tables.Every (InTurn initial) := by
  refine hsystem.inTurn.of_step hstep ?_
  rintro index operation rest row rfl hoperations hresult
  obtain ⟨-, done, write, later, -, rfl, -, hcurrent, -, hthere⟩ :=
    (hsystem.standing index).current hoperations
  obtain ⟨seen, hview⟩ := exists_view index (hthere write List.mem_cons_self)
  obtain rfl := Option.some.inj ((result_operation hview).symm.trans hresult)
  exact inTurn_apply (fun hchunk ↦ hallowed write hcurrent hchunk seen hview)
    (hsystem.inTurn.view hview)

/-- Where the operations stand after a step. -/
theorem Accounted.standing_of_step (hsystem : Accounted initial system)
    (hstep : (metadataProtocol calls).step system action = some next) (index : ι) :
    WriterStanding next.tables.committed (next.tables.own index) (next.session index) := by
  have hgrown := (hsystem.growing.of_step (hsystem.standing action.index).grows hstep).2
  have hprogress := Protocol.progress_of_step hstep
  by_cases hindex : index = action.index
  · subst hindex
    have hstanding := hsystem.standing action.index
    obtain ⟨done, rest, hmade, hoperations, hdone, -⟩ := hstanding.split
    rw [hsystem.not_committed hstep] at hdone
    have hall : (system.session action.index).operations = [] →
        ∀ write ∈ (system.session action.index).phase.made,
          Contains (system.tables.own action.index) write := by
      intro hcomplete
      obtain rfl := List.map_eq_nil_iff.mp (hoperations.symm.trans hcomplete)
      rw [hmade, List.append_nil]
      exact hdone
    cases hprogress with
    | abandon hunfinished =>
      simp only [Protocol.abandon, Function.update_self]
      exact writerStanding_failed _ _
    | perform hperformed hblocks hrefuses =>
      simp only [Function.update_self]
      exact hstanding.perform hperformed
    | start hcomplete hstatement =>
      obtain ⟨writes, hnext, rfl, hthere, hnot, -⟩ := execute_spec hstatement
      simp only [Function.update_self]
      refine ⟨⟨_, writes, hnext, rfl, ?_, fun write hwrite ↦ ?_⟩,
        fun hcommitted ↦ absurd hcommitted (by rw [hnot]; decide)⟩
      · rw [hnot]
        exact hall hcomplete
      · obtain ⟨row, hrow⟩ := Option.isSome_iff_exists.mp (hthere write hwrite)
        obtain ⟨old, hold, -⟩ := hsystem.growing.view hrow
        exact Option.isSome_iff_exists.mpr ⟨old, hold⟩
    | commit hcomplete hstatement =>
      obtain ⟨hnext, hcommitted, -⟩ := commit_spec hstatement
      simp only [Function.update_self]
      refine ⟨⟨_, [], by rw [hnext, List.append_nil], rfl, ?_, by simp⟩, fun _ ↦ rfl⟩
      rw [hcommitted]
      intro write hwrite
      obtain ⟨row, hrow, hmem⟩ := hall hcomplete write hwrite
      exact ⟨row, Tables.view_of_own hrow, hmem⟩
    | rollback hcomplete hstatement =>
      obtain ⟨rfl, -⟩ := rollback_spec hstatement
      simp only [Function.update_self]
      exact writerStanding_failed _ _
  · obtain ⟨hsession, hown⟩ := hprogress.frame hindex
    rw [hsession, hown]
    exact (hsystem.standing index).mono hgrown

/-- What is in the list of a row that a session has written, after a step. -/
theorem Accounted.ownBy_of_step (hsystem : Accounted initial system)
    (hstep : (metadataProtocol calls).step system action = some next) (index : ι) (key : EntityRef)
    (row : MetaRow) (hown : next.tables.own index key = some row) (entries : Dict)
    (hentries : entries ∈ row.merged) : MergedBy next key entries ∨
      ∃ write ∈ (next.session index).phase.made, write.key = key ∧ write.entries = entries := by
  have hmono : MergedBy system key entries → MergedBy next key entries :=
    hsystem.mergedBy_mono hstep
  have hprogress := Protocol.progress_of_step hstep
  by_cases hindex : index = action.index
  · subst hindex
    cases hprogress with
    | abandon hunfinished =>
      rw [Protocol.abandon, Tables.own_rollback] at hown
      cases hown
    | perform hperformed hblocks hrefuses =>
      obtain ⟨-, done, write, later, hmade, rfl, -, -, -, hthere⟩ :=
        (hsystem.standing action.index).current hperformed
      simp only [Function.update_self]
      rcases Tables.own_written_eq_some hown with hold | ⟨rfl, hresult⟩
      · exact (hsystem.ownBy action.index key row hold entries hentries).imp_left hmono
      · obtain ⟨seen, hview⟩ := exists_view action.index
          (hthere write List.mem_cons_self)
        obtain rfl := Option.some.inj ((result_operation hview).symm.trans hresult)
        rcases List.mem_append.mp hentries with hseen | hnew
        · rcases Option.or_eq_some_iff.mp hview with hold | ⟨-, hcommitted⟩
          · exact (hsystem.ownBy action.index _ seen hold entries hseen).imp_left hmono
          · exact Or.inl (hmono (hsystem.committedBy _ seen hcommitted entries hseen))
        · refine Or.inr ⟨write, ?_, rfl, (List.mem_singleton.mp hnew).symm⟩
          rw [hmade]
          exact List.mem_append_right _ List.mem_cons_self
    | start hcomplete hstatement =>
      obtain ⟨writes, hnext, -⟩ := execute_spec hstatement
      simp only [Function.update_self, hnext]
      rcases hsystem.ownBy action.index key row hown entries hentries with hmerged | hmade
      · exact Or.inl (hmono hmerged)
      · obtain ⟨write, hwrite, hmatches⟩ := hmade
        exact Or.inr ⟨write, List.mem_append_left _ hwrite, hmatches⟩
    | commit hcomplete hstatement =>
      rw [Tables.own_commit] at hown
      cases hown
    | rollback hcomplete hstatement =>
      rw [Tables.own_rollback] at hown
      cases hown
  · obtain ⟨hsession, hsame⟩ := hprogress.frame hindex
    rw [hsame] at hown
    rw [hsession]
    exact (hsystem.ownBy index key row hown entries hentries).imp_left hmono

/-- What is in the list of a committed row, after a step. -/
theorem Accounted.committedBy_of_step (hsystem : Accounted initial system)
    (hstep : (metadataProtocol calls).step system action = some next) (key : EntityRef)
    (row : MetaRow) (hcommitted : next.tables.committed key = some row) (entries : Dict)
    (hentries : entries ∈ row.merged) : MergedBy next key entries := by
  have hmono : MergedBy system key entries → MergedBy next key entries :=
    hsystem.mergedBy_mono hstep
  cases Protocol.progress_of_step hstep with
  | abandon hunfinished => exact hmono (hsystem.committedBy key row hcommitted entries hentries)
  | perform hperformed hblocks hrefuses =>
    rw [Tables.committed_written] at hcommitted
    exact hmono (hsystem.committedBy key row hcommitted entries hentries)
  | start hcomplete hstatement =>
    exact hmono (hsystem.committedBy key row hcommitted entries hentries)
  | commit hcomplete hstatement =>
    obtain ⟨hnext, hdone, -⟩ := commit_spec hstatement
    rcases Option.or_eq_some_iff.mp hcommitted with hown | ⟨-, hold⟩
    · rcases hsystem.ownBy action.index key row hown entries hentries with hmerged | hmade
      · exact hmono hmerged
      · refine ⟨action.index, ?_, ?_⟩
        · simp only [Function.update_self]
          exact hdone
        · simp only [Function.update_self, hnext]
          exact hmade
    · exact hmono (hsystem.committedBy key row hold entries hentries)
  | rollback hcomplete hstatement =>
    exact hmono (hsystem.committedBy key row hcommitted entries hentries)

/-- What a step keeps. -/
theorem Accounted.of_step (hsystem : Accounted initial system) (hallowed : ReadsCurrent system action)
    (hstep : (metadataProtocol calls).step system action = some next) : Accounted initial next where
  growing := (hsystem.growing.of_step (hsystem.standing action.index).grows hstep).1
  inTurn := hsystem.inTurn_of_step hallowed hstep
  standing := hsystem.standing_of_step hstep
  committedBy := hsystem.committedBy_of_step hstep
  ownBy := hsystem.ownBy_of_step hstep

omit [DecidableEq ι] in
/-- Nothing has been written, and every operation is about to begin. -/
def Ready (system : MetadataSystem ι) : Prop :=
  (∀ key, system.tables.pending key = none) ∧
    (∀ key row, system.tables.committed key = some row → row.merged = []) ∧
    ∀ index, system.session index = { phase := .begun }

theorem accounted_of_ready (hready : Ready initial) : Accounted initial initial := by
  obtain ⟨hpending, hlists, hsessions⟩ := hready
  have hown : ∀ index, initial.tables.own index = fun _ ↦ none := by
    intro index
    funext key
    rw [Tables.own, hpending key, Option.bind_none]
  constructor
  case growing =>
    intro key entry hentry
    cases (hpending key).symm.trans hentry
  case inTurn =>
    refine ⟨fun key row hrow _ ↦ ⟨row, hrow, fun name ↦ ?_⟩, fun key entry hentry ↦ ?_⟩
    · rw [hlists key row hrow, List.foldl_nil]
    · cases (hpending key).symm.trans hentry
  case standing =>
    intro index
    rw [hsessions index]
    exact ⟨⟨[], [], rfl, rfl, by simp, by simp⟩, fun _ ↦ rfl⟩
  case committedBy =>
    intro key row hrow entries hentries
    rw [hlists key row hrow] at hentries
    cases hentries
  case ownBy =>
    intro index key row hrow
    rw [hown index] at hrow
    cases hrow

/-- **No update of metadata is lost**, in any run of updates and rebinds in which at every write of a
chunk the chunk has what was read of it under the keys that are not written. -/
theorem nothingLost_of_run {final : MetadataSystem ι} (hready : Ready initial)
    (hrun : Steps (metadataProtocol calls).step ReadsCurrent initial final) :
    NothingLost initial final := by
  have hfinal : Accounted initial final := hrun.invariant (accounted_of_ready hready)
    fun _ _ _ hsystem hallowed hstep ↦ hsystem.of_step hallowed hstep
  refine ⟨fun id row hrow ↦ hfinal.inTurn.committed _ row hrow rfl, ?_, hfinal.committedBy⟩
  intro index made hphase write hwrite
  have hstanding := hfinal.standing index
  obtain ⟨done, rest, hmade, hoperations, hdone, -⟩ := hstanding.split
  rw [hphase] at hmade hdone
  obtain rfl := List.map_eq_nil_iff.mp
    (hoperations.symm.trans (hstanding.complete (by rw [hphase]; rfl)))
  rw [List.append_nil] at hmade
  exact hdone write (hmade ▸ hwrite)

end Operations

/-! ### A title and a project -/

/-- One operation gives the chunk 1 a title, the other one binds its document to a project. -/
def sampleCalls : Fin 2 → MetadataCall
  | 0 => .update fun _ ↦ [(1, { title := some (some (lit "t")) })]
  | 1 => .rebind { documentId := 2, project := some (lit "p"), projectId := some 7
                   projectDescription := some (lit "d") } (some 7)

/-- The document and its chunk, without metadata. -/
def untitledRows : List (EntityRef × MetaRow) :=
  [((.documents, 2), { documentId := 2, blockMeta := [] }),
    ((.semanticChunks, 1), { documentId := 2, blockMeta := [] })]

/-- Both operations are about to begin. -/
def sampleMetadata : MetadataSystem (Fin 2) where
  tables :=
    { keys := untitledRows.map Prod.fst
      committed := getKey untitledRows
      pending := fun _ ↦ none
      covers := by
        intro key hthere
        by_contra hkey
        have hnone : getKey untitledRows key = none := getKey_eq_none.mpr fun entry hentry heq ↦
          hkey (List.mem_map.mpr ⟨entry, hentry, heq⟩)
        simp [hnone] at hthere }
  session _ := { phase := .begun }

theorem ready_sampleMetadata : Ready sampleMetadata := by
  refine ⟨fun _ ↦ rfl, fun key row hrow ↦ ?_, fun _ ↦ rfl⟩
  have hmem : (key, row) ∈ untitledRows :=
    (getKey_eq_some (by decide)).mp hrow
  have hall : ∀ entry ∈ untitledRows, entry.2.merged = [] := by decide
  exact hall _ hmem

/-- One operation after the other. -/
def metadataApart : MetadataSystem (Fin 2) :=
  (replay (guarded (metadataProtocol sampleCalls).step ReadsCurrent) sampleMetadata
    (List.replicate 4 (.run 0) ++ List.replicate 7 (.run 1))).getD sampleMetadata

/-- The document is rebound after the chunk was read, and before it is written. -/
def metadataTogether : MetadataSystem (Fin 2) :=
  (replay (guarded (metadataProtocol sampleCalls).step fun _ _ ↦ True) sampleMetadata
    (List.replicate 2 (.run 0) ++ List.replicate 7 (.run 1) ++ List.replicate 2 (.run 0))).getD
      sampleMetadata

theorem nothingLost_metadataApart : NothingLost sampleMetadata metadataApart :=
  nothingLost_of_run ready_sampleMetadata
    (show Steps (metadataProtocol sampleCalls).step ReadsCurrent sampleMetadata metadataApart from
      steps_of_replay (by decide +kernel))

/-- Both operations commit, and the chunk lacks the project that the rebind wrote. -/
theorem exists_lost_update : ∃ final : MetadataSystem (Fin 2),
    Steps (metadataProtocol sampleCalls).step (fun _ _ ↦ True) sampleMetadata final ∧
      Ready sampleMetadata ∧ (∀ index, (final.session index).phase.isCommitted = true) ∧
      (∃ row, final.tables.committed (.semanticChunks, 1) = some row ∧
        getKey row.blockMeta "title" = some (.str (lit "t")) ∧
        getKey row.blockMeta "project" = none) ∧
      ¬NothingLost sampleMetadata final := by
  have hread : ((metadataTogether.tables.committed (.semanticChunks, 1)).any fun row ↦
      getKey row.blockMeta "title" = some (.str (lit "t")) &&
        getKey row.blockMeta "project" = none &&
        getKey (row.merged.foldl updateKeys []) "project" = some (.str (lit "p"))) = true := by
    decide +kernel
  obtain ⟨row, hrow, hkeys⟩ := (Option.any_eq_true _ _).mp hread
  simp only [Bool.and_eq_true, decide_eq_true_eq] at hkeys
  obtain ⟨⟨htitle, hproject⟩, hmerged⟩ := hkeys
  refine ⟨metadataTogether, steps_of_replay (by decide +kernel), ready_sampleMetadata,
    by decide +kernel, ⟨row, hrow, htitle, hproject⟩, fun hlost ↦ ?_⟩
  obtain ⟨old, hold, hinTurn⟩ := hlost.inTurn 1 row hrow
  obtain rfl := Option.some.inj hold
  have hlookup := hinTurn "project"
  rw [hproject] at hlookup
  cases hlookup.trans hmerged

end DocStore
