import DocStore.Foundation.Assoc
import DocStore.Foundation.BreadthFirst
import DocStore.Runtime.EntityIds
import DocStore.Temporal.Restoration

/-!
# The descendants of a deletion

`TemporalAssertionService._descendants` goes from the roots of a deletion through
`DESCENDANT_EDGES`, and from a project also to the documents whose metadata name it. It marks a UUID
with the kind under which it comes to it first, and the kind tells which edges lead on. What it has
found is cut down to the registered UUIDs at the end.

A UUID has one kind because the registry lists it once, under the table of its row
(`KindsKnown`); then the search returns the registered descendants and nothing else
(`exists_descendants`). An update that gives a row another UUID can break that
(`exists_lost_descendant`).
-/

set_option autoImplicit false
set_option relaxedAutoImplicit false

namespace DocStore

open Foundation Relation

/-! ### Kinds -/

/-- `REGISTRY_KIND_LOCATORS`. -/
def registryKindLocators : List (String × String) :=
  [("document", "documents"), ("chapter", "chapters"), ("paragraph", "paragraphs"),
    ("semantic_chunk", "semantic_chunks"), ("file", "files"),
    ("content_attachment", "content_attachments"), ("project", "projects"),
    ("chunk_type", "chunk_types"), ("chunk_role", "chunk_roles"),
    ("chunk_status", "chunk_statuses"), ("block_type", "block_types"), ("language", "languages"),
    ("category", "categories")]

/-- `_TABLE_KINDS`. -/
def tableKinds : List (String × String) :=
  updateKeys [] (registryKindLocators.map Prod.swap)

/-- A row of `entity_uuid_registry`, as `_locked_object` reads it. -/
structure RegistryRow where
  entityTable : String
  entityId : Uuid

/-- `_registry_kind`, for the table of a row. -/
def registryKind (locator : String) : String := (getKey tableKinds locator).getD locator

/-- `DESCENDANT_EDGES`. -/
def descendantEdges : List (String × List (EntityTable × (EntityRecord → Option Uuid))) :=
  [("project", [(.projects, fun row ↦ row.ownerId), (.files, fun row ↦ row.ownerId),
      (.documents, fun row ↦ row.ownerId)]),
    ("file", [(.files, fun row ↦ row.ownerId), (.documents, fun row ↦ row.ownerId)]),
    ("document", [(.chapters, EntityRecord.documentId), (.paragraphs, EntityRecord.documentId),
      (.semanticChunks, EntityRecord.documentId)]),
    ("chapter", [(.paragraphs, EntityRecord.chapterId),
      (.semanticChunks, EntityRecord.chapterId)]),
    ("paragraph", [(.semanticChunks, EntityRecord.paragraphId)])]

/-! ### The search -/

/-- An object of the search: a UUID and the kind under which the search has come to it. -/
abbrev KindedId := Uuid × String

/-- What `_children` has before it leaves the parent out. -/
def linkedRows (records : List EntityRecord) (parent : KindedId) : List KindedId :=
  (((getKey descendantEdges parent.2).getD []).flatMap fun edge ↦
    ((records.filter fun row ↦ row.table = edge.1 && edge.2 row = some parent.1).map
      fun row ↦ (row.id, registryKind edge.1.name))) ++
  if parent.2 = "project" then
    (records.filter fun row ↦
      row.table = .documents && row.projectId = some (uuidText parent.1)).map
        fun row ↦ (row.id, "document")
  else []

/-- `_children`. -/
def descendantChildren (records : List EntityRecord) (parent : KindedId) : List KindedId :=
  (linkedRows records parent).filter fun child ↦ child.1 ≠ parent.1

/-- The roots of the search with their kinds, a dict. -/
def rootKinds (roots : List RegistryRow) : List KindedId :=
  updateKeys [] (roots.map fun row ↦ (row.entityId, registryKind row.entityTable))

/-- The beginning of the search. -/
def descendantSearch (roots : List RegistryRow) : Search Uuid String :=
  { seen := rootKinds roots, found := [], frontier := rootKinds roots }

/-- The registered ones of the UUIDs that the search has found. -/
def registeredIds (registry : List RegistryRow) (found : List Uuid) : List Uuid :=
  if found.isEmpty then []
  else (registry.filter fun row ↦ row.entityId ∈ found).map RegistryRow.entityId

/-- `_descendants` returns. -/
def DescendantsReturn (records : List EntityRecord) (registry roots : List RegistryRow)
    (result : List Uuid) : Prop :=
  ∃ found, EndsWith (searchTurn (descendantChildren records)) (descendantSearch roots) found ∧
    result = registeredIds registry found

/-! ### What the search is for -/

/-- An edge between objects: a foreign key of `DESCENDANT_EDGES`, or the project in the metadata of
a document. -/
inductive DescendantOf (records : List EntityRecord) : KindedId → KindedId → Prop
  | edge {id : Uuid} {kind : String} {edges : List (EntityTable × (EntityRecord → Option Uuid))}
      {table : EntityTable} {column : EntityRecord → Option Uuid} {row : EntityRecord}
      (hedges : (kind, edges) ∈ descendantEdges) (hedge : (table, column) ∈ edges)
      (hrow : row ∈ records) (htable : row.table = table) (hcolumn : column row = some id) :
      DescendantOf records (id, kind) (row.id, registryKind row.table.name)
  | listed {id : Uuid} {row : EntityRecord} (hrow : row ∈ records) (htable : row.table = .documents)
      (hproject : row.projectId = some (uuidText id)) :
      DescendantOf records (id, "project") (row.id, registryKind row.table.name)

/-- A UUID can be reached from the roots, themselves included. -/
def ReachedFrom (records : List EntityRecord) (roots : List RegistryRow) (id : Uuid) : Prop :=
  ∃ kind, ∃ root ∈ roots, ReflTransGen (DescendantOf records)
    (root.entityId, registryKind root.entityTable) (id, kind)

/-- What `_descendants` is to return: the registered UUIDs other than the roots that can be reached
from a root, each once. -/
structure Descendants (records : List EntityRecord) (registry roots : List RegistryRow)
    (result : List Uuid) : Prop where
  nodup : result.Nodup
  mem_iff : ∀ id, id ∈ result ↔ id ∈ registry.map RegistryRow.entityId ∧
    id ∉ roots.map RegistryRow.entityId ∧ ReachedFrom records roots id

/-- A UUID names rows of one table, and the registry lists it once, under that table. -/
structure KindsKnown (records : List EntityRecord) (registry : List RegistryRow) : Prop where
  unique : (registry.map RegistryRow.entityId).Nodup
  rows : ∀ first ∈ records, ∀ second ∈ records, first.id = second.id → first.table = second.table
  registered : ∀ entry ∈ registry, ∀ row ∈ records, row.id = entry.entityId →
    entry.entityTable = row.table.name

/-! ### Edges -/

section Edges

variable {records : List EntityRecord}

/-- The rows that `_children` selects are at the ends of the edges. -/
theorem mem_linkedRows_iff {parent child : KindedId} :
    child ∈ linkedRows records parent ↔ DescendantOf records parent child := by
  obtain ⟨id, kind⟩ := parent
  have hkinds : (descendantEdges.map Prod.fst).Nodup := by decide
  constructor
  · intro hchild
    rcases List.mem_append.mp hchild with hedges | hlisted
    · obtain ⟨⟨table, column⟩, hedge, hrows⟩ := List.mem_flatMap.mp hedges
      obtain ⟨row, hrow, rfl⟩ := List.mem_map.mp hrows
      obtain ⟨hmem, hlinked⟩ := List.mem_filter.mp hrow
      rw [Bool.and_eq_true, decide_eq_true_eq, decide_eq_true_eq] at hlinked
      obtain ⟨rfl, hcolumn⟩ := hlinked
      cases hfound : getKey descendantEdges kind with
      | none =>
        rw [hfound] at hedge
        cases hedge
      | some edges =>
        rw [hfound] at hedge
        exact .edge ((getKey_eq_some hkinds).mp hfound) hedge hmem rfl hcolumn
    · split at hlisted
      next hproject =>
        obtain ⟨row, hrow, rfl⟩ := List.mem_map.mp hlisted
        obtain ⟨hmem, hlinked⟩ := List.mem_filter.mp hrow
        rw [Bool.and_eq_true, decide_eq_true_eq, decide_eq_true_eq] at hlinked
        obtain rfl : kind = "project" := hproject
        have hkind : registryKind row.table.name = "document" := by
          rw [hlinked.1]
          decide
        exact hkind ▸ .listed hmem hlinked.1 hlinked.2
      · cases hlisted
  · intro hedge
    cases hedge with
    | @edge _ _ edges table column row hedges hedge hrow htable hcolumn =>
      refine List.mem_append_left _ (List.mem_flatMap.mpr ⟨(table, column), ?_, ?_⟩)
      · rw [(getKey_eq_some hkinds).mpr hedges]
        exact hedge
      · subst htable
        refine List.mem_map.mpr ⟨row, List.mem_filter.mpr ⟨hrow, ?_⟩, rfl⟩
        rw [Bool.and_eq_true, decide_eq_true_eq, decide_eq_true_eq]
        exact ⟨rfl, hcolumn⟩
    | @listed _ row hrow htable hproject =>
      have hkind : registryKind row.table.name = "document" := by
        rw [htable]
        decide
      rw [hkind]
      refine List.mem_append_right _ ?_
      rw [if_pos rfl]
      refine List.mem_map.mpr ⟨row, List.mem_filter.mpr ⟨hrow, ?_⟩, rfl⟩
      rw [Bool.and_eq_true, decide_eq_true_eq, decide_eq_true_eq]
      exact ⟨htable, hproject⟩

/-- An edge leads to a row, under the kind of its table. -/
theorem DescendantOf.exists_row {parent child : KindedId}
    (hedge : DescendantOf records parent child) :
    ∃ row ∈ records, child = (row.id, registryKind row.table.name) := by
  cases hedge with
  | @edge _ _ _ _ _ row _ _ hrow _ _ => exact ⟨row, hrow, rfl⟩
  | @listed _ row hrow _ _ => exact ⟨row, hrow, rfl⟩

/-- `_children` follows the edges, but for those that lead from a UUID to itself. -/
theorem mem_descendantChildren_iff {parent child : KindedId} :
    child ∈ descendantChildren records parent ↔
      DescendantOf records parent child ∧ child.1 ≠ parent.1 := by
  rw [descendantChildren, List.mem_filter, mem_linkedRows_iff, decide_eq_true_eq]

end Edges

/-! ### One kind for every UUID -/

/-- A UUID under the kind that the registry or its row give it. -/
def HasKind (records : List EntityRecord) (registry : List RegistryRow) (entry : KindedId) : Prop :=
  (∃ row ∈ registry, entry = (row.entityId, registryKind row.entityTable)) ∨
    ∃ row ∈ records, entry = (row.id, registryKind row.table.name)

section Kinds

variable {records : List EntityRecord} {registry roots : List RegistryRow}

/-- Known kinds are unique. -/
theorem KindsKnown.eq_of_hasKind (hknown : KindsKnown records registry) {first second : KindedId}
    (hfirst : HasKind records registry first) (hsecond : HasKind records registry second)
    (hid : first.1 = second.1) : first = second := by
  rcases hfirst with ⟨entry, hentry, rfl⟩ | ⟨row, hrow, rfl⟩
  · rcases hsecond with ⟨other, hother, rfl⟩ | ⟨other, hother, rfl⟩
    · rw [List.inj_on_of_nodup_map hknown.unique hentry hother hid]
    · rw [hknown.registered entry hentry other hother hid.symm]
      exact Prod.ext hid rfl
  · rcases hsecond with ⟨other, hother, rfl⟩ | ⟨other, hother, rfl⟩
    · rw [hknown.registered other hother row hrow hid]
      exact Prod.ext hid rfl
    · rw [hknown.rows row hrow other hother hid]
      exact Prod.ext hid rfl

/-- The search follows every edge that leads on. -/
theorem KindsKnown.reachable_iff (hknown : KindsKnown records registry) {root entry : KindedId}
    (hroot : HasKind records registry root) :
    ReflTransGen (fun parent child ↦ child ∈ descendantChildren records parent) root entry ↔
      ReflTransGen (DescendantOf records) root entry := by
  have hkinds : ∀ {other : KindedId}, ReflTransGen (DescendantOf records) root other →
      HasKind records registry other := by
    intro other hreached
    rcases hreached.cases_tail with rfl | ⟨_, -, hedge⟩
    · exact hroot
    · exact .inr hedge.exists_row
  constructor
  · exact ReflTransGen.mono (fun _ _ hchild ↦ (mem_descendantChildren_iff.mp hchild).1) _ _
  · intro hreached
    induction hreached with
    | refl => exact .refl
    | @tail parent child hreached hedge ih =>
      by_cases hself : child.1 = parent.1
      · rw [hknown.eq_of_hasKind (.inr hedge.exists_row) (hkinds hreached) hself]
        exact ih
      · exact ih.tail (mem_descendantChildren_iff.mpr ⟨hedge, hself⟩)

/-- The search begins at the roots. -/
theorem KindsKnown.mem_rootKinds_iff (hknown : KindsKnown records registry)
    (hroots : roots ⊆ registry) {entry : KindedId} : entry ∈ rootKinds roots ↔
      ∃ root ∈ roots, (root.entityId, registryKind root.entityTable) = entry := by
  rw [rootKinds, mem_updateKeys_nil, List.mem_map]
  intro first hfirst second hsecond hid
  obtain ⟨root, hroot, rfl⟩ := List.mem_map.mp hfirst
  obtain ⟨other, hother, rfl⟩ := List.mem_map.mp hsecond
  exact hknown.eq_of_hasKind (.inl ⟨root, hroots hroot, rfl⟩) (.inl ⟨other, hroots hother, rfl⟩) hid

/-- Only registered UUIDs are returned, in the order of the registry. -/
theorem mem_registeredIds_iff {found : List Uuid} {id : Uuid} :
    id ∈ registeredIds registry found ↔
      id ∈ registry.map RegistryRow.entityId ∧ id ∈ found := by
  unfold registeredIds
  split
  next hempty =>
    rw [List.isEmpty_iff] at hempty
    simp [hempty]
  next =>
    simp only [List.mem_map, List.mem_filter, decide_eq_true_eq]
    constructor
    · rintro ⟨row, ⟨hrow, hfound⟩, rfl⟩
      exact ⟨⟨row, hrow, rfl⟩, hfound⟩
    · rintro ⟨⟨row, hrow, rfl⟩, hfound⟩
      exact ⟨row, ⟨hrow, hfound⟩, rfl⟩

theorem KindsKnown.nodup_registeredIds (hknown : KindsKnown records registry) (found : List Uuid) :
    (registeredIds registry found).Nodup := by
  unfold registeredIds
  split
  · exact List.nodup_nil
  · exact hknown.unique.sublist (List.filter_sublist.map _)

/-- The search from registered roots ends, and what it has found are the UUIDs other than the roots
that can be reached from them. -/
theorem KindsKnown.exists_found (hknown : KindsKnown records registry) (hroots : roots ⊆ registry) :
    ∃ found, EndsWith (searchTurn (descendantChildren records)) (descendantSearch roots) found ∧
      ∀ id, id ∈ found ↔ id ∉ roots.map RegistryRow.entityId ∧ ReachedFrom records roots id := by
  have hbegin : ((rootKinds roots).map Prod.fst).Nodup := nodup_updateKeys (by simp) _
  have hrootKind : ∀ root ∈ rootKinds roots, HasKind records registry root := by
    intro entry hentry
    obtain ⟨root, hroot, rfl⟩ := (hknown.mem_rootKinds_iff hroots).mp hentry
    exact .inl ⟨root, hroots hroot, rfl⟩
  have hcandidates : ∀ parent, ∀ child ∈ descendantChildren records parent,
      child.1 ∈ records.map fun row ↦ row.id := by
    intro parent child hchild
    obtain ⟨row, hrow, rfl⟩ := (mem_descendantChildren_iff.mp hchild).1.exists_row
    exact List.mem_map_of_mem hrow
  obtain ⟨found, hends, -, hfound⟩ := exists_search hbegin hcandidates hrootKind
    (fun parent _ child hchild ↦ .inr (mem_descendantChildren_iff.mp hchild).1.exists_row)
    fun first second hfirst hsecond hid ↦ hknown.eq_of_hasKind hfirst hsecond hid
  refine ⟨found, hends, fun id ↦ ?_⟩
  have hids : id ∈ (rootKinds roots).map Prod.fst ↔ id ∈ roots.map RegistryRow.entityId := by
    simp only [List.mem_map, hknown.mem_rootKinds_iff hroots]
    constructor
    · rintro ⟨_, ⟨root, hroot, rfl⟩, rfl⟩
      exact ⟨root, hroot, rfl⟩
    · rintro ⟨root, hroot, rfl⟩
      exact ⟨_, ⟨root, hroot, rfl⟩, rfl⟩
  have hreached : (∃ kind, ∃ root ∈ rootKinds roots,
      ReflTransGen (fun parent child ↦ child ∈ descendantChildren records parent) root (id, kind)) ↔
      ReachedFrom records roots id := by
    refine exists_congr fun kind ↦ ⟨?_, ?_⟩
    · rintro ⟨entry, hentry, hreached⟩
      have hreached := (hknown.reachable_iff (hrootKind entry hentry)).mp hreached
      obtain ⟨root, hroot, rfl⟩ := (hknown.mem_rootKinds_iff hroots).mp hentry
      exact ⟨root, hroot, hreached⟩
    · rintro ⟨root, hroot, hreached⟩
      have hentry := (hknown.mem_rootKinds_iff hroots).mpr ⟨root, hroot, rfl⟩
      exact ⟨_, hentry, (hknown.reachable_iff (hrootKind _ hentry)).mpr hreached⟩
  rw [hfound, hids, hreached]

/-- Whatever the search returns are the descendants. -/
theorem descendants_of_return (hknown : KindsKnown records registry) (hroots : roots ⊆ registry)
    {result : List Uuid} (hreturns : DescendantsReturn records registry roots result) :
    Descendants records registry roots result := by
  obtain ⟨found, hends, rfl⟩ := hreturns
  obtain ⟨other, hother, hfound⟩ := hknown.exists_found hroots
  rw [hends.unique hother]
  refine ⟨hknown.nodup_registeredIds other, fun id ↦ ?_⟩
  rw [mem_registeredIds_iff, hfound]

/-- **The search returns the descendants.** When a UUID names rows of one table and the registry
lists it under that table, the search from registered roots ends, and it returns the registered
UUIDs other than the roots that can be reached from a root, each once. -/
theorem exists_descendants (hknown : KindsKnown records registry) (hroots : roots ⊆ registry) :
    ∃ result, DescendantsReturn records registry roots result ∧
      Descendants records registry roots result := by
  obtain ⟨found, hends, -⟩ := hknown.exists_found hroots
  have hreturns : DescendantsReturn records registry roots (registeredIds registry found) :=
    ⟨found, hends, rfl⟩
  exact ⟨_, hreturns, descendants_of_return hknown hroots hreturns⟩

end Kinds

/-! ### The registry and the rows -/

/-- The registry as the service reads it. -/
def EntityDb.registryRows (db : EntityDb) : List RegistryRow :=
  db.entityUuidRegistry.map fun entry ↦ { entityTable := entry.1.name, entityId := entry.2 }

/-- A registry that lists the rows gives every UUID one kind. -/
theorem EntityDb.Registered.kindsKnown {host : Host} {db : EntityDb}
    (hregistered : db.Registered) : KindsKnown (db.records host) db.registryRows := by
  have hrefs : ∀ row ∈ db.records host, row.ref ∈ db.entityUuidRegistry := fun row hrow ↦ by
    rw [hregistered.mirrors.mem_iff, ← map_ref_records host]
    exact List.mem_map_of_mem hrow
  refine ⟨?_, fun first hfirst second hsecond hid ↦ ?_, fun entry hentry row hrow hid ↦ ?_⟩
  · rw [EntityDb.registryRows, List.map_map]
    exact hregistered.mirrors.distinct
  · exact congrArg Prod.fst (List.inj_on_of_nodup_map hregistered.mirrors.distinct
      (hrefs first hfirst) (hrefs second hsecond) hid)
  · obtain ⟨ref, href, rfl⟩ := List.mem_map.mp hentry
    have hsame := List.inj_on_of_nodup_map hregistered.mirrors.distinct (hrefs row hrow) href hid
    exact congrArg EntityTable.name (congrArg Prod.fst hsame.symm)

/-! ### The targets of a deletion -/

/-- The registry rows that `soft_delete` has locked for its roots. -/
def lockedRows (registry : List RegistryRow) (objectIds : List Uuid) : List RegistryRow :=
  objectIds.filterMap fun objectId ↦ registry.find? fun row ↦ row.entityId = objectId

section Targets

variable {records : List EntityRecord} {registry : List RegistryRow} {objectIds : List Uuid}

theorem lockedRows_subset : lockedRows registry objectIds ⊆ registry := by
  intro row hrow
  obtain ⟨objectId, -, hfound⟩ := List.mem_filterMap.mp hrow
  exact List.mem_of_find?_eq_some hfound

theorem mem_lockedRows_iff (hregistered : ∀ objectId ∈ objectIds,
    objectId ∈ registry.map RegistryRow.entityId) {id : Uuid} :
    id ∈ (lockedRows registry objectIds).map RegistryRow.entityId ↔ id ∈ objectIds := by
  constructor
  · intro hlocked
    obtain ⟨row, hrow, rfl⟩ := List.mem_map.mp hlocked
    obtain ⟨objectId, hmem, hfound⟩ := List.mem_filterMap.mp hrow
    have hid : row.entityId = objectId := by simpa using List.find?_some hfound
    exact hid ▸ hmem
  · intro hmem
    obtain ⟨row, hrow, hid⟩ := List.mem_map.mp (hregistered id hmem)
    cases hfound : registry.find? fun other ↦ other.entityId = id with
    | none => exact absurd hid (by simpa using List.find?_eq_none.mp hfound row hrow)
    | some other =>
      have hother : other.entityId = id := by simpa using List.find?_some hfound
      exact List.mem_map.mpr ⟨other, List.mem_filterMap.mpr ⟨id, hmem, hfound⟩, hother⟩

/-- The targets of a deletion with descendants are its roots and what is registered below them. -/
theorem mem_deletionTargets_iff (hknown : KindsKnown records registry)
    (hregistered : ∀ objectId ∈ objectIds, objectId ∈ registry.map RegistryRow.entityId)
    {objects : Objects} (hreturns : DescendantsReturn records registry
      (lockedRows registry objectIds.eraseDups) (objects.descendants objectIds.eraseDups))
    {id : Uuid} : id ∈ deletionTargets objects objectIds true ↔
      id ∈ registry.map RegistryRow.entityId ∧
        ReachedFrom records (lockedRows registry objectIds.eraseDups) id := by
  have hroots : ∀ objectId ∈ objectIds.eraseDups,
      objectId ∈ registry.map RegistryRow.entityId :=
    fun objectId hmem ↦ hregistered objectId (List.mem_eraseDups.mp hmem)
  have hmem := (descendants_of_return hknown lockedRows_subset hreturns).mem_iff id
  rw [mem_lockedRows_iff hroots] at hmem
  have hdescendant : id ∈ (objects.descendants objectIds.eraseDups).eraseDups ↔ _ :=
    List.mem_eraseDups.trans hmem
  rw [deletionTargets, if_pos rfl, List.mem_append, List.mem_filter, hdescendant]
  by_cases hroot : id ∈ objectIds.eraseDups
  · obtain ⟨row, hrow, rfl⟩ := List.mem_map.mp ((mem_lockedRows_iff hroots).mpr hroot)
    exact iff_of_true (.inl hroot) ⟨hroots _ hroot, _, row, hrow, .refl⟩
  · simp [hroot]

end Targets

/-! ### A cycle, and a UUID of two tables -/

/-- Two projects that own each other, a file, and a document that names one of them. -/
def projectRecords : List EntityRecord :=
  [{ table := .projects, id := 1, ownerId := some 2 },
    { table := .projects, id := 2, ownerId := some 1 },
    { table := .files, id := 3, ownerId := some 2 },
    { table := .documents, id := 4, ownerId := none, projectId := some (uuidText 1) },
    { table := .chapters, id := 5, ownerId := none, documentId := some 4 }]

/-- The registry of these rows. -/
def projectRegistry : List RegistryRow :=
  [⟨"projects", 1⟩, ⟨"projects", 2⟩, ⟨"files", 3⟩, ⟨"documents", 4⟩, ⟨"chapters", 5⟩]

theorem exists_descendants_projectRecords :
    ∃ result, DescendantsReturn projectRecords projectRegistry [⟨"projects", 1⟩] result ∧
      Descendants projectRecords projectRegistry [⟨"projects", 1⟩] result :=
  exists_descendants ⟨by decide, by decide, by decide⟩ (by simp [projectRegistry])

example : loop (searchTurn (descendantChildren projectRecords)) 4
    (descendantSearch [⟨"projects", 1⟩]) = some [2, 4, 3, 5] := by decide +kernel

/-- A project with a name and an owner. -/
def namedProject (id : Uuid) (ownerId : Option Uuid) (name : String) : ProjectRow where
  id
  ownerId
  name := lit name

/-- A project has a project and a document. The document is given another UUID, under which a
project of the other project is created then, with a project of its own. -/
def collidingOperations : List EntityOperation :=
  [.entity (.create (.project (namedProject 1 none "root"))),
    .entity (.create (.project (namedProject 2 (some 1) "middle"))),
    .entity (.create (.document { projectDocument with id := 3, ownerId := some 1 })),
    .update { now := 0, versionId := 0, entryId := fun _ _ ↦ 0 } 3 (.document { id := some 4 }),
    .entity (.create (.project (namedProject 4 (some 2) "colliding"))),
    .entity (.create (.project (namedProject 5 (some 4) "lost")))]

/-- The tables after these operations. -/
def collidingTables : EntityDb :=
  (replay (guarded (operationStep sampleHost) fun _ _ ↦ True) {} collidingOperations).getD {}

/-- A UUID that names rows of two tables is marked with the first kind, and what hangs below the
other row is lost. -/
theorem exists_lost_descendant : ∃ db : EntityDb, ∃ roots : List RegistryRow,
    Steps (operationStep sampleHost) (fun _ _ ↦ True) {} db ∧ roots ⊆ db.registryRows ∧
      ∀ result, DescendantsReturn (db.records sampleHost) db.registryRows roots result →
        ¬Descendants (db.records sampleHost) db.registryRows roots result := by
  refine ⟨collidingTables, [⟨"projects", 1⟩], steps_of_replay (by decide +kernel),
    List.cons_subset.mpr ⟨List.mem_map.mpr ⟨(.projects, 1), by decide +kernel, rfl⟩,
      List.nil_subset _⟩, ?_⟩
  rintro result ⟨found, hends, rfl⟩ hdescendants
  have hsearch : loop (searchTurn (descendantChildren (collidingTables.records sampleHost))) 4
      (descendantSearch [⟨"projects", 1⟩]) = some [2, 4] := by decide +kernel
  obtain rfl : found = [2, 4] := hends.unique ⟨4, hsearch⟩
  have hmissing : (5 : Uuid) ∉ registeredIds collidingTables.registryRows [2, 4] := by
    decide +kernel
  refine hmissing ((hdescendants.mem_iff 5).mpr ⟨by decide +kernel, by decide +kernel,
    "project", _, List.mem_cons_self, ?_⟩)
  have hstep : ∀ parent child,
      child ∈ linkedRows (collidingTables.records sampleHost) parent →
        DescendantOf (collidingTables.records sampleHost) parent child :=
    fun _ _ hchild ↦ mem_linkedRows_iff.mp hchild
  have hfirst := hstep (1, "project") (2, "project") (by decide +kernel)
  have hsecond := hstep (2, "project") (4, "project") (by decide +kernel)
  have hthird := hstep (4, "project") (5, "project") (by decide +kernel)
  exact ((ReflTransGen.single hfirst).tail hsecond).tail hthird

end DocStore
