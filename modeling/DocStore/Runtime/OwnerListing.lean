import DocStore.Domain.TextOrder
import DocStore.Foundation.Paired
import DocStore.Runtime.OwnerTree

/-!
# What the owner tree lists

The rows that the tree should list are those that `WithinLimits` reaches from the root. A node of the
tree stands for one of them, or for the root met again, and `ListsOwners` says that the tree is what
a reader takes it for: every row at one place, cycles marked, and a node truncated when one of its
live children was left out.

The last part is decided by how many live rows a listed entity owns. `MarksExactly` asks for at least
one at the last level and for another number than the width above it, and `listsOwners_iff` says that
this, and a text for every listed chunk, is what the tree needs.
-/

set_option autoImplicit false
set_option relaxedAutoImplicit false

namespace DocStore

open Foundation

variable {κ : Type} [LinearOrder κ] {collation : Text → κ} {host : Host} {tables : OwnerTables}
  {request : OwnerTreeRequest}

/-! ### Rows and children -/

/-- An id belongs to one row. -/
theorem OwnerTables.eq_of_id (tables : OwnerTables) {row other : OwnerRow} (hrow : row ∈ tables.rows)
    (hother : other ∈ tables.rows) (hid : row.id = other.id) : row = other := by
  have hids : (tables.rows.map (·.id)).Nodup := by
    have hdistinct := (tables.mirrors.exact.map Prod.snd).nodup_iff.mp tables.mirrors.distinct
    rwa [List.map_map] at hdistinct
  exact List.inj_on_of_nodup_map hids hrow hother hid

theorem OwnerTables.nodup_rows (tables : OwnerTables) : tables.rows.Nodup :=
  List.Nodup.of_map _ tables.mirrors.nodup

/-- The live rows that an entity owns, in the order in which they are listed. -/
def liveChildren (collation : Text → κ) (tables : OwnerTables) (request : OwnerTreeRequest)
    (ownerId : Uuid) : List OwnerRow :=
  ownerTreeTableOrder.flatMap (rowsOfOwner collation tables request ownerId)

theorem mem_ownerTreeTableOrder (table : EntityTable) : table ∈ ownerTreeTableOrder := by
  cases table with
  | dictionary table => cases table <;> decide
  | _ => decide

theorem mem_rowsOfOwner {ownerId : Uuid} {table : EntityTable} {row : OwnerRow} :
    row ∈ rowsOfOwner collation tables request ownerId table ↔ row ∈ tables.rows ∧
      row.table = table ∧ row.ownerId = some ownerId ∧ request.shows row = true := by
  rw [rowsOfOwner, mem_ranked, List.mem_filter, Bool.and_eq_true, Bool.and_eq_true,
    decide_eq_true_iff, decide_eq_true_iff, and_assoc]

theorem mem_liveChildren {ownerId : Uuid} {row : OwnerRow} :
    row ∈ liveChildren collation tables request ownerId ↔
      row ∈ tables.rows ∧ row.ownerId = some ownerId ∧ request.shows row = true := by
  rw [liveChildren, List.mem_flatMap]
  constructor
  · rintro ⟨table, -, hrow⟩
    obtain ⟨hmem, -, howner⟩ := mem_rowsOfOwner.mp hrow
    exact ⟨hmem, howner⟩
  · rintro ⟨hmem, howner⟩
    exact ⟨row.table, mem_ownerTreeTableOrder _, mem_rowsOfOwner.mpr ⟨hmem, rfl, howner⟩⟩

theorem nodup_liveChildren (ownerId : Uuid) :
    (liveChildren collation tables request ownerId).Nodup := by
  refine List.nodup_flatMap.mpr ⟨fun table _ ↦ ?_, ?_⟩
  · exact (perm_ranked _ _).nodup_iff.mpr (tables.nodup_rows.filter _)
  · have hnodup : ownerTreeTableOrder.Nodup := by decide
    refine hnodup.imp fun hne row hfirst hsecond ↦ hne ?_
    exact (mem_rowsOfOwner.mp hfirst).2.1.symm.trans (mem_rowsOfOwner.mp hsecond).2.1

theorem ownerChildrenFrom_eq (ownerId : Uuid) (order : List EntityTable) {children : List OwnerRow}
    (hwidth : children.length ≤ request.width) :
    ownerChildrenFrom collation tables request ownerId order children =
      (children ++ order.flatMap (rowsOfOwner collation tables request ownerId)).take
        request.width := by
  induction order generalizing children with
  | nil =>
    rw [ownerChildrenFrom, List.flatMap_nil, List.append_nil, List.take_of_length_le hwidth]
  | cons table order ih =>
    rw [ownerChildrenFrom]
    split
    next hnone =>
      have hfull : request.width = children.length := by omega
      rw [hfull, List.take_left]
    next hleft =>
      have hlength : (children ++ (rowsOfOwner collation tables request ownerId table).take
          (request.width - children.length)).length ≤ request.width := by
        rw [List.length_append, List.length_take]
        omega
      rw [ih hlength, List.flatMap_cons, List.append_assoc, List.take_append, List.take_append,
        List.take_append, List.take_append, List.take_take, List.length_take, Nat.min_self]
      congr 3
      omega

/-- **The children** are the first of the live ones. -/
theorem ownerChildren_eq (ownerId : Uuid) : ownerChildren collation tables request ownerId =
    (liveChildren collation tables request ownerId).take request.width := by
  rw [ownerChildren, ownerChildrenFrom_eq _ _ (Nat.zero_le _)]
  rfl

theorem mem_liveChildren_of_mem_ownerChildren {ownerId : Uuid} {row : OwnerRow}
    (hrow : row ∈ ownerChildren collation tables request ownerId) :
    row ∈ tables.rows ∧ row.ownerId = some ownerId ∧ request.shows row = true := by
  rw [ownerChildren_eq] at hrow
  exact mem_liveChildren.mp (List.mem_of_mem_take hrow)

/-! ### One node -/

/-- A chunk has its text. -/
def OwnerRow.Readable (row : OwnerRow) : Prop := row.table = .semanticChunks → row.text.isSome

theorem entityPreviewRow_eq_some {row : OwnerRow} (hrow : row ∈ tables.rows) {found : OwnerRow} :
    entityPreviewRow tables request row.table row.id = some found ↔
      found = row ∧ request.shows row = true ∧ row.Readable := by
  have hfits : ∀ other ∈ tables.rows, (decide (other.ref = (row.table, row.id)) &&
      request.shows other && (decide (other.table ≠ .semanticChunks) || other.text.isSome)) = true ↔
        other = row ∧ request.shows row = true ∧ row.Readable := by
    intro other hother
    rw [Bool.and_eq_true, Bool.and_eq_true, Bool.or_eq_true, decide_eq_true_iff, decide_eq_true_iff,
      and_assoc]
    constructor
    · rintro ⟨href, hshown, htext⟩
      obtain rfl := tables.eq_of_id hother hrow (Prod.mk.inj href).2
      exact ⟨rfl, hshown, fun hchunk ↦ htext.resolve_left (not_not.mpr hchunk)⟩
    · rintro ⟨rfl, hshown, htext⟩
      exact ⟨rfl, hshown, or_iff_not_imp_left.mpr fun hchunk ↦ htext (not_not.mp hchunk)⟩
  rw [entityPreviewRow]
  constructor
  · intro hfound
    have hholds := List.find?_some hfound
    exact (hfits found (List.mem_of_find?_eq_some hfound)).mp hholds
  · rintro ⟨rfl, hshown, htext⟩
    have hholds := (hfits found hrow).mpr ⟨rfl, hshown, htext⟩
    cases hother : tables.rows.find? _ with
    | none => exact absurd hholds (List.find?_eq_none.mp hother found hrow)
    | some other =>
      have hsame := List.find?_some hother
      rw [((hfits other (List.mem_of_find?_eq_some hother)).mp hsame).1]

/-- The node of an entity that is met again. -/
def cycleNode (table : EntityTable) (id : Uuid) : RoseTree OwnerLabel :=
  .node { entityType := table, id := id, preview := [], cycle := true } []

/-- The label of the node of a row. -/
def ownerLabel (host : Host) (row : OwnerRow) (truncated : Bool) : OwnerLabel where
  entityType := row.table
  id := row.id
  preview := entityPreview host row
  truncated := truncated

theorem ownerTreeNode_of_mem {levels : ℕ} {visited : List Uuid} {table : EntityTable} {id : Uuid}
    (hvisited : id ∈ visited) : ownerTreeNode collation host tables request levels visited table id =
      .ok (cycleNode table id) := by
  rw [ownerTreeNode.eq_def, if_pos hvisited]
  rfl

/-- **What the node of a row is**, when it is not met again: a node of the last level, or one with
the nodes of its children. -/
theorem ownerTreeNode_eq_ok {levels : ℕ} {visited : List Uuid} {row : OwnerRow}
    (hrow : row ∈ tables.rows) (hnew : row.id ∉ visited) {tree : RoseTree OwnerLabel} :
    ownerTreeNode collation host tables request levels visited row.table row.id = .ok tree ↔
      request.shows row = true ∧ row.Readable ∧
        ((levels = 0 ∧ tree = .node (ownerLabel host row true) []) ∨
          ∃ less nodes, levels = less + 1 ∧
            List.Forall₂ (fun child node ↦ ownerTreeNode collation host tables request less
              (row.id :: visited) child.table child.id = .ok node)
              (ownerChildren collation tables request row.id) nodes ∧
            tree = .node (ownerLabel host row
              (request.width ≤ (ownerChildren collation tables request row.id).length)) nodes) := by
  by_cases hreadable : request.shows row = true ∧ row.Readable
  · have hpreview := (entityPreviewRow_eq_some hrow).mpr ⟨rfl, hreadable⟩
    rw [ownerTreeNode.eq_def, if_neg hnew, hpreview, ← and_assoc, and_iff_right hreadable]
    cases levels with
    | zero =>
      dsimp only
      rw [Except.ok.injEq]
      constructor
      · rintro rfl
        exact .inl ⟨rfl, rfl⟩
      · rintro (⟨-, rfl⟩ | ⟨less, nodes, hlevels, -⟩)
        · rfl
        · cases hlevels
    | succ less =>
      dsimp only
      rw [bind_eq_ok]
      constructor
      · rintro ⟨nodes, hnodes, htree⟩
        exact .inr ⟨less, nodes, rfl, mapM_eq_ok.mp hnodes, (Except.ok.inj htree).symm⟩
      · rintro (⟨hlevels, -⟩ | ⟨less, nodes, hlevels, hnodes, rfl⟩)
        · cases hlevels
        · obtain rfl := Nat.succ.inj hlevels
          exact ⟨nodes, mapM_eq_ok.mpr hnodes, rfl⟩
  · have hnone : entityPreviewRow tables request row.table row.id = none := by
      refine Option.eq_none_iff_forall_ne_some.mpr fun found hfound ↦ hreadable ?_
      exact ((entityPreviewRow_eq_some hrow).mp hfound).2
    rw [ownerTreeNode.eq_def, if_neg hnew, hnone, ← and_assoc]
    refine iff_of_false (fun hok ↦ ?_) fun hall ↦ hreadable hall.1
    cases hok

/-- A node has the address of its row. -/
theorem ref_of_ownerTreeNode {levels : ℕ} {visited : List Uuid} {row : OwnerRow}
    (hrow : row ∈ tables.rows) {tree : RoseTree OwnerLabel}
    (htree : ownerTreeNode collation host tables request levels visited row.table row.id =
      .ok tree) : tree.label.ref = row.ref := by
  by_cases hvisited : row.id ∈ visited
  · rw [ownerTreeNode_of_mem hvisited] at htree
    obtain rfl := Except.ok.inj htree
    rfl
  · obtain ⟨-, -, ⟨-, rfl⟩ | ⟨-, -, -, -, rfl⟩⟩ := (ownerTreeNode_eq_ok hrow hvisited).mp htree
    all_goals rfl

/-! ### All nodes -/

/-- A node at an address is what the recursion made of a row, with the ids above it visited. -/
structure NodeFor (collation : Text → κ) (host : Host) (tables : OwnerTables)
    (request : OwnerTreeRequest) (levels : ℕ) (visited : List Uuid) (tree : RoseTree OwnerLabel)
    (path : List ℕ) (node : RoseTree OwnerLabel) (row : OwnerRow) : Prop where
  mem : row ∈ tables.rows
  level : path.length ≤ levels
  made : ∃ seen, (∀ id, id ∈ seen ↔ id ∈ visited ∨ id ∈ (tree.above path).map OwnerLabel.id) ∧
    ownerTreeNode collation host tables request (levels - path.length) seen row.table row.id =
      .ok node

theorem exists_nodeFor {levels : ℕ} {visited : List Uuid} {row : OwnerRow}
    (hrow : row ∈ tables.rows) {tree node : RoseTree OwnerLabel} {path : List ℕ}
    (htree : ownerTreeNode collation host tables request levels visited row.table row.id = .ok tree)
    (hnode : tree.nodeAt path = some node) : ∃ other,
      NodeFor collation host tables request levels visited tree path node other := by
  induction path generalizing levels visited row tree with
  | nil =>
    obtain rfl := Option.some.inj hnode
    exact ⟨row, hrow, Nat.zero_le _, visited, fun id ↦ by simp, htree⟩
  | cons position path ih =>
    obtain ⟨child, hchild, hrest⟩ := RoseTree.nodeAt_cons_eq_some.mp hnode
    by_cases hvisited : row.id ∈ visited
    · rw [ownerTreeNode_of_mem hvisited] at htree
      obtain rfl := Except.ok.inj htree
      cases hchild
    · obtain ⟨-, -, ⟨-, rfl⟩ | ⟨less, nodes, rfl, hnodes, rfl⟩⟩ :=
        (ownerTreeNode_eq_ok hrow hvisited).mp htree
      · cases hchild
      · obtain ⟨childRow, hchildRow, hmade⟩ := forall₂_getElem?_eq_some hnodes hchild
        have hmem := (mem_liveChildren_of_mem_ownerChildren (List.mem_of_getElem? hchildRow)).1
        obtain ⟨other, hother, hlevel, seen, hseen, hresult⟩ := ih hmem hmade hrest
        refine ⟨other, hother, Nat.succ_le_succ hlevel, seen, fun id ↦ ?_, ?_⟩
        · rw [hseen, RoseTree.above_cons hchild, List.map_cons, List.mem_cons, List.mem_cons,
            or_assoc, or_left_comm]
          rfl
        · rw [List.length_cons, Nat.add_sub_add_right]
          exact hresult

variable {levels : ℕ} {visited : List Uuid} {tree node : RoseTree OwnerLabel} {path : List ℕ}
  {row : OwnerRow}

/-- A node is marked as a cycle when its row stands above it. -/
theorem NodeFor.cycle_iff
    (hstands : NodeFor collation host tables request levels [] tree path node row) :
    node.label.cycle = true ↔ row.id ∈ (tree.above path).map OwnerLabel.id := by
  obtain ⟨hmem, -, seen, hseen, hmade⟩ := hstands
  have hvisited : row.id ∈ seen ↔ row.id ∈ (tree.above path).map OwnerLabel.id := by
    rw [hseen]
    exact or_iff_right List.not_mem_nil
  rw [← hvisited]
  by_cases hold : row.id ∈ seen
  · rw [ownerTreeNode_of_mem hold] at hmade
    obtain rfl := Except.ok.inj hmade
    exact iff_of_true rfl hold
  · obtain ⟨-, -, ⟨-, rfl⟩ | ⟨-, -, -, -, rfl⟩⟩ := (ownerTreeNode_eq_ok hmem hold).mp hmade
    all_goals exact iff_of_false Bool.false_ne_true hold

theorem NodeFor.ref_eq
    (hstands : NodeFor collation host tables request levels visited tree path node row) :
    node.label.ref = row.ref := by
  obtain ⟨seen, -, hmade⟩ := hstands.made
  exact ref_of_ownerTreeNode hstands.mem hmade

/-- What a node is that is not marked as a cycle. -/
theorem NodeFor.listed
    (hstands : NodeFor collation host tables request levels [] tree path node row)
    (hcycle : node.label.cycle = false) : request.shows row = true ∧ row.Readable ∧
      ((path.length = levels ∧ node = .node (ownerLabel host row true) []) ∨
        path.length < levels ∧ ∃ nodes,
          nodes.map (fun child ↦ child.label.ref) =
            (ownerChildren collation tables request row.id).map OwnerRow.ref ∧
          node = .node (ownerLabel host row
            (request.width ≤ (ownerChildren collation tables request row.id).length)) nodes) := by
  have hnew := (mt hstands.cycle_iff.mpr) (Bool.eq_false_iff.mp hcycle)
  obtain ⟨hmem, hlevel, seen, hseen, hmade⟩ := hstands
  have hnot : row.id ∉ seen := by
    rw [hseen, not_or]
    exact ⟨List.not_mem_nil, hnew⟩
  obtain ⟨hshown, hreadable, hkind⟩ := (ownerTreeNode_eq_ok hmem hnot).mp hmade
  refine ⟨hshown, hreadable, hkind.imp (fun hlast ↦ ⟨by omega, hlast.2⟩) ?_⟩
  rintro ⟨less, nodes, hless, hnodes, rfl⟩
  refine ⟨by omega, nodes, map_eq_map_of_forall₂ hnodes fun child hchild result hresult ↦ ?_, rfl⟩
  exact ref_of_ownerTreeNode (mem_liveChildren_of_mem_ownerChildren hchild).1 hresult

/-! ### What should be listed -/

/-- The rows within the limits: the root, and the first live children of such a row above the last
level, but the root only once. -/
inductive WithinLimits (collation : Text → κ) (tables : OwnerTables) (request : OwnerTreeRequest)
    (root : OwnerRow) : ℕ → OwnerRow → Prop
  | root : WithinLimits collation tables request root 0 root
  | child {depth : ℕ} {parent row : OwnerRow} :
    WithinLimits collation tables request root depth parent → depth < request.depth →
    row ∈ ownerChildren collation tables request parent.id → row.id ≠ root.id →
    WithinLimits collation tables request root (depth + 1) row

section Listing

variable {root : OwnerRow}

/-- A cycle has no children. -/
theorem NodeFor.cycle_eq_false
    (hstands : NodeFor collation host tables request levels visited tree path node row)
    {child : RoseTree OwnerLabel} {position : ℕ} (hchild : node.children[position]? = some child) :
    node.label.cycle = false := by
  obtain ⟨seen, -, hmade⟩ := hstands.made
  by_cases hold : row.id ∈ seen
  · rw [ownerTreeNode_of_mem hold] at hmade
    obtain rfl := Except.ok.inj hmade
    cases hchild
  · obtain ⟨-, -, ⟨-, rfl⟩ | ⟨-, -, -, -, rfl⟩⟩ := (ownerTreeNode_eq_ok hstands.mem hold).mp hmade
    all_goals rfl

/-- The children of a node stand for the first live children of its row. -/
theorem NodeFor.child_row
    (hstands : NodeFor collation host tables request levels [] tree path node row)
    {child : RoseTree OwnerLabel} {position : ℕ} (hchild : node.children[position]? = some child) :
    path.length < levels ∧ ∃ childRow,
      (ownerChildren collation tables request row.id)[position]? = some childRow ∧
      child.label.ref = childRow.ref := by
  obtain ⟨-, -, ⟨-, rfl⟩ | ⟨hlevel, nodes, hrefs, rfl⟩⟩ :=
    hstands.listed (hstands.cycle_eq_false hchild)
  · cases hchild
  · have hplace := congrArg (·[position]?) hrefs
    simp only [List.getElem?_map] at hplace
    change nodes[position]? = some child at hchild
    rw [hchild, Option.map_some, eq_comm, Option.map_eq_some_iff] at hplace
    obtain ⟨childRow, hchildRow, hsame⟩ := hplace
    exact ⟨hlevel, childRow, hchildRow, hsame.symm⟩

variable (hroot : root ∈ tables.rows)
  (htree : ownerTreeNode collation host tables request request.depth [] root.table root.id =
    .ok tree)
include hroot htree

/-- A node below another one stands for a first live child of its row. -/
theorem exists_parent {position : ℕ} (hnode : tree.nodeAt (path ++ [position]) = some node) :
    ∃ parent parentRow childRow, tree.nodeAt path = some parent ∧ parent.label.cycle = false ∧
      NodeFor collation host tables request request.depth [] tree path parent parentRow ∧
      path.length < request.depth ∧
      (ownerChildren collation tables request parentRow.id)[position]? = some childRow ∧
      NodeFor collation host tables request request.depth [] tree (path ++ [position]) node
        childRow := by
  obtain ⟨parent, hparent, hchild⟩ := RoseTree.nodeAt_append_singleton_eq_some.mp hnode
  obtain ⟨parentRow, hparentRow⟩ := exists_nodeFor hroot htree hparent
  obtain ⟨row, hrow⟩ := exists_nodeFor hroot htree hnode
  obtain ⟨hlevel, childRow, hchildRow, href⟩ := hparentRow.child_row hchild
  have hmem := (mem_liveChildren_of_mem_ownerChildren (List.mem_of_getElem? hchildRow)).1
  obtain rfl := tables.eq_of_id hrow.mem hmem (Prod.mk.inj (hrow.ref_eq.symm.trans href)).2
  exact ⟨parent, parentRow, row, hparent, hparentRow.cycle_eq_false hchild, hparentRow, hlevel,
    hchildRow, hrow⟩

/-- The root is not listed again. -/
theorem id_ne_root (hnode : tree.nodeAt path = some node) (hpath : path ≠ [])
    (hcycle : node.label.cycle = false) : node.label.id ≠ root.id := by
  intro hid
  obtain ⟨row, hrow⟩ := exists_nodeFor hroot htree hnode
  obtain ⟨position, rest, rfl⟩ := List.exists_cons_of_ne_nil hpath
  refine Bool.eq_false_iff.mp hcycle (hrow.cycle_iff.mpr (List.mem_map.mpr ⟨tree.label, ?_, ?_⟩))
  · exact (RoseTree.mem_above hnode).mpr ⟨[], position, rest, tree, rfl, rfl, rfl⟩
  · have hlabel := ref_of_ownerTreeNode hroot htree
    exact (Prod.mk.inj hlabel).2.trans (hid.symm.trans (Prod.mk.inj hrow.ref_eq).2)

/-- **An entity is listed at one place.** -/
theorem path_unique {other : List ℕ} {second : RoseTree OwnerLabel}
    (hnode : tree.nodeAt path = some node) (hcycle : node.label.cycle = false)
    (hsecond : tree.nodeAt other = some second) (hcycle' : second.label.cycle = false)
    (hid : node.label.id = second.label.id) : path = other := by
  have htop : tree.label.id = root.id := (Prod.mk.inj (ref_of_ownerTreeNode hroot htree)).2
  induction path using List.reverseRecOn generalizing node other second with
  | nil =>
    obtain rfl := Option.some.inj hnode
    by_contra hother
    exact id_ne_root hroot htree hsecond (Ne.symm hother) hcycle' (hid.symm.trans htop)
  | append_singleton path position ih =>
    induction other using List.reverseRecOn with
    | nil =>
      obtain rfl := Option.some.inj hsecond
      exact absurd (hid.trans htop) (id_ne_root hroot htree hnode (by simp) hcycle)
    | append_singleton other place _ =>
      obtain ⟨parent, parentRow, row, hparent, hparentCycle, hparentRow, -, hrow, hstands⟩ :=
        exists_parent hroot htree hnode
      obtain ⟨parent', parentRow', row', hparent', hparentCycle', hparentRow', -, hrow', hstands'⟩ :=
        exists_parent hroot htree hsecond
      have hsame : row = row' := tables.eq_of_id hstands.mem hstands'.mem
        ((Prod.mk.inj hstands.ref_eq).2.symm.trans (hid.trans (Prod.mk.inj hstands'.ref_eq).2))
      subst hsame
      have howner := (mem_liveChildren_of_mem_ownerChildren (List.mem_of_getElem? hrow)).2.1
      have howner' := (mem_liveChildren_of_mem_ownerChildren (List.mem_of_getElem? hrow')).2.1
      have hids : parentRow.id = parentRow'.id := Option.some.inj (howner.symm.trans howner')
      have hpath : path = other := ih hparent hparentCycle hparent' hparentCycle'
        ((Prod.mk.inj hparentRow.ref_eq).2.trans
          (hids.trans (Prod.mk.inj hparentRow'.ref_eq).2.symm))
      have hnodup : (ownerChildren collation tables request parentRow.id).Nodup := by
        rw [ownerChildren_eq]
        exact (nodup_liveChildren _).sublist (List.take_sublist _ _)
      rw [← hids] at hrow'
      have hlength := (List.getElem?_eq_some_iff.mp hrow).1
      rw [hpath, (List.getElem?_inj hlength hnodup).mp (hrow.trans hrow'.symm)]

/-- What is listed is within the limits. -/
theorem withinLimits_of_nodeAt (hnode : tree.nodeAt path = some node)
    (hcycle : node.label.cycle = false) : ∃ row,
      NodeFor collation host tables request request.depth [] tree path node row ∧
      WithinLimits collation tables request root path.length row := by
  induction path using List.reverseRecOn generalizing node with
  | nil =>
    obtain ⟨row, hrow⟩ := exists_nodeFor hroot htree hnode
    obtain rfl := Option.some.inj hnode
    have href := hrow.ref_eq.symm.trans (ref_of_ownerTreeNode hroot htree)
    obtain rfl := tables.eq_of_id hrow.mem hroot (Prod.mk.inj href).2
    exact ⟨row, hrow, .root⟩
  | append_singleton path position ih =>
    obtain ⟨parent, parentRow, row, hparent, hparentCycle, hparentRow, hlevel, hrow, hstands⟩ :=
      exists_parent hroot htree hnode
    obtain ⟨other, hother, hwithin⟩ := ih hparent hparentCycle
    obtain rfl := tables.eq_of_id hother.mem hparentRow.mem
      (Prod.mk.inj (hother.ref_eq.symm.trans hparentRow.ref_eq)).2
    have hne := id_ne_root hroot htree hnode (by simp) hcycle
    rw [(Prod.mk.inj hstands.ref_eq).2] at hne
    refine ⟨row, hstands, ?_⟩
    rw [List.length_append, List.length_singleton]
    exact .child hwithin hlevel (List.mem_of_getElem? hrow) hne

/-- A child that stands above its parent is the root. -/
theorem ancestor_is_root {parentNode ancestor : RoseTree OwnerLabel} {parent child : OwnerRow}
    (hnode : tree.nodeAt path = some parentNode) (hcycle : parentNode.label.cycle = false)
    (hparent : parentNode.label.ref = parent.ref)
    (hchild : child ∈ ownerChildren collation tables request parent.id)
    {front back : List ℕ} {position place : ℕ} (hancestor : tree.nodeAt front = some ancestor)
    (hid : ancestor.label.id = child.id) (hfront : path ++ [position] = front ++ place :: back) :
    ancestor.label.id = root.id := by
  have hlength := congrArg List.length hfront
  cases front using List.reverseRecOn with
  | nil =>
    obtain rfl := Option.some.inj hancestor
    exact (Prod.mk.inj (ref_of_ownerTreeNode hroot htree)).2
  | append_singleton front step =>
    -- the ancestor is no root, so its parent is that of the child, which stands below it
    obtain ⟨upper, upperRow, row, hupper, hupperCycle, hupperRow, -, hrow, hstands⟩ :=
      exists_parent hroot htree hancestor
    have hmem := mem_liveChildren_of_mem_ownerChildren hchild
    have hmem' := mem_liveChildren_of_mem_ownerChildren (List.mem_of_getElem? hrow)
    obtain rfl := tables.eq_of_id hstands.mem hmem.1
      ((Prod.mk.inj hstands.ref_eq).2.symm.trans hid)
    have howner : upperRow.id = parent.id := Option.some.inj (hmem'.2.1.symm.trans hmem.2.1)
    have hsame := path_unique hroot htree hupper hupperCycle hnode hcycle
      ((Prod.mk.inj hupperRow.ref_eq).2.trans (howner.trans (Prod.mk.inj hparent).2.symm))
    subst hsame
    simp only [List.length_append, List.length_cons, List.length_nil] at hlength
    omega

/-- What is within the limits is listed. -/
theorem exists_nodeAt_of_withinLimits {depth : ℕ}
    (hwithin : WithinLimits collation tables request root depth row) : ∃ path node,
      path.length = depth ∧ tree.nodeAt path = some node ∧ node.label.cycle = false ∧
      NodeFor collation host tables request request.depth [] tree path node row := by
  induction hwithin with
  | root =>
    obtain ⟨row, hrow⟩ := exists_nodeFor hroot htree (show tree.nodeAt [] = some tree from RoseTree.nodeAt_nil)
    have href := hrow.ref_eq.symm.trans (ref_of_ownerTreeNode hroot htree)
    obtain rfl := tables.eq_of_id hrow.mem hroot (Prod.mk.inj href).2
    refine ⟨[], tree, rfl, rfl, ?_, hrow⟩
    refine Bool.eq_false_iff.mpr fun hcycle ↦ ?_
    have habove := hrow.cycle_iff.mp hcycle
    simp at habove
  | @child depth parent row hparent hdepth hrow hne ih =>
    obtain ⟨path, parentNode, rfl, hnode, hcycle, hstands⟩ := ih
    obtain ⟨-, -, ⟨hlast, -⟩ | ⟨-, nodes, hrefs, hparentNode⟩⟩ := hstands.listed hcycle
    · omega
    · obtain ⟨position, hposition⟩ := List.mem_iff_getElem?.mp hrow
      have hplace := congrArg (·[position]?) hrefs
      simp only [List.getElem?_map, hposition, Option.map_some, Option.map_eq_some_iff] at hplace
      obtain ⟨child, hchild, href⟩ := hplace
      have hat : tree.nodeAt (path ++ [position]) = some child := by
        refine RoseTree.nodeAt_append_singleton_eq_some.mpr ⟨parentNode, hnode, ?_⟩
        rw [hparentNode]
        exact hchild
      obtain ⟨-, -, other, -, -, -, -, -, hother⟩ := exists_parent hroot htree hat
      have hmem := (mem_liveChildren_of_mem_ownerChildren hrow).1
      obtain rfl := tables.eq_of_id hother.mem hmem
        (Prod.mk.inj (hother.ref_eq.symm.trans href)).2
      refine ⟨path ++ [position], child, by simp, hat, ?_, hother⟩
      refine Bool.eq_false_iff.mpr fun hmarked ↦ ?_
      obtain ⟨label, hlabel, hid⟩ := List.mem_map.mp (hother.cycle_iff.mp hmarked)
      obtain ⟨front, place, back, ancestor, hfront, hancestor, rfl⟩ :=
        (RoseTree.mem_above hat).mp hlabel
      exact hne (hid.symm.trans (ancestor_is_root hroot htree hnode hcycle hstands.ref_eq hrow
        hancestor hid hfront))

end Listing

/-! ### The tree is made -/

section Making

variable {root : OwnerRow}

theorem WithinLimits.mem (hroot : root ∈ tables.rows) (hshown : request.shows root = true)
    {depth : ℕ} (hwithin : WithinLimits collation tables request root depth row) :
    row ∈ tables.rows ∧ request.shows row = true := by
  cases hwithin with
  | root => exact ⟨hroot, hshown⟩
  | child _ _ hrow =>
    have hmem := mem_liveChildren_of_mem_ownerChildren hrow
    exact ⟨hmem.1, hmem.2.2⟩

/-- The recursion returns when every chunk on its way has a text. -/
theorem exists_ownerTreeNode (hroot : root ∈ tables.rows) (hshown : request.shows root = true)
    (hreadable : ∀ depth row, WithinLimits collation tables request root depth row → row.Readable)
    {depth : ℕ} (hwithin : WithinLimits collation tables request root depth row)
    (hlevels : depth + levels = request.depth) (hseen : root.id ∈ row.id :: visited) :
    ∃ node, ownerTreeNode collation host tables request levels visited row.table row.id =
      .ok node := by
  induction levels generalizing depth visited row with
  | zero =>
    by_cases hvisited : row.id ∈ visited
    · exact ⟨_, ownerTreeNode_of_mem hvisited⟩
    · have hmem := hwithin.mem hroot hshown
      exact ⟨_, (ownerTreeNode_eq_ok hmem.1 hvisited).mpr
        ⟨hmem.2, hreadable _ _ hwithin, .inl ⟨rfl, rfl⟩⟩⟩
  | succ levels ih =>
    by_cases hvisited : row.id ∈ visited
    · exact ⟨_, ownerTreeNode_of_mem hvisited⟩
    · have hmem := hwithin.mem hroot hshown
      have hchildren : ∀ child ∈ ownerChildren collation tables request row.id, ∃ node,
          ownerTreeNode collation host tables request levels (row.id :: visited) child.table
            child.id = .ok node := by
        intro child hchild
        by_cases hagain : child.id = root.id
        · exact ⟨_, ownerTreeNode_of_mem (hagain ▸ hseen)⟩
        · exact ih (.child hwithin (by omega) hchild hagain) (by omega)
            (List.mem_cons_of_mem _ hseen)
      obtain ⟨nodes, hnodes⟩ := exists_mapM_eq_ok hchildren
      exact ⟨_, (ownerTreeNode_eq_ok hmem.1 hvisited).mpr ⟨hmem.2, hreadable _ _ hwithin,
        .inr ⟨levels, nodes, rfl, mapM_eq_ok.mp hnodes, rfl⟩⟩⟩

end Making

/-! ### What was left out -/

/-- Some live row that the entity owns is no child of its node. -/
def LeavesOut (tables : OwnerTables) (request : OwnerTreeRequest) (node : RoseTree OwnerLabel) :
    Prop :=
  ∃ row ∈ tables.rows, row.ownerId = some node.label.id ∧ request.shows row = true ∧
    ∀ child ∈ node.children, child.label.ref ≠ row.ref

/-- At the last level an entity owns a live row, and above it not exactly as many as are allowed. -/
def MarksRow (collation : Text → κ) (tables : OwnerTables) (request : OwnerTreeRequest) (depth : ℕ)
    (row : OwnerRow) : Prop :=
  if depth = request.depth then liveChildren collation tables request row.id ≠ []
  else (liveChildren collation tables request row.id).length ≠ request.width

/-- Of different entries, some one is not among the first of them when there are more. -/
theorem exists_not_mem_take {α : Type} {entries : List α} (hnodup : entries.Nodup) {count : ℕ} :
    (∃ entry ∈ entries, entry ∉ entries.take count) ↔ count < entries.length := by
  constructor
  · rintro ⟨entry, hentry, hnot⟩
    by_contra hle
    rw [List.take_of_length_le (not_lt.mp hle)] at hnot
    exact hnot hentry
  · intro hlt
    refine ⟨entries[count], List.getElem_mem hlt, fun hmem ↦ ?_⟩
    refine List.disjoint_take_drop hnodup le_rfl hmem ?_
    rw [List.drop_eq_getElem_cons hlt]
    exact List.mem_cons_self

/-- **When the mark of truncation is right.** -/
theorem NodeFor.truncated_iff
    (hstands : NodeFor collation host tables request request.depth [] tree path node row)
    (hcycle : node.label.cycle = false) :
    (node.label.truncated = true ↔ LeavesOut tables request node) ↔
      MarksRow collation tables request path.length row := by
  have hleaves : ∀ {children : List (RoseTree OwnerLabel)} {listed : List OwnerRow},
      children.map (fun child ↦ child.label.ref) = listed.map OwnerRow.ref →
      (∀ other ∈ listed, other ∈ tables.rows) →
      ((∃ other ∈ tables.rows, other.ownerId = some row.id ∧ request.shows other = true ∧
        ∀ child ∈ children, child.label.ref ≠ other.ref) ↔
        ∃ other ∈ liveChildren collation tables request row.id, other ∉ listed) := by
    intro children listed hrefs hlisted
    refine exists_congr fun other ↦ ?_
    rw [mem_liveChildren, and_assoc, and_assoc]
    refine and_congr_right fun hmem ↦ and_congr_right fun _ ↦ and_congr_right fun _ ↦ ?_
    have hnone : (∀ child ∈ children, child.label.ref ≠ other.ref) ↔
        other.ref ∉ children.map fun child ↦ child.label.ref := by
      simp
    rw [hnone, hrefs]
    refine not_congr ⟨fun hthere ↦ ?_, fun hthere ↦ List.mem_map_of_mem hthere⟩
    obtain ⟨found, hfound, href⟩ := List.mem_map.mp hthere
    exact tables.eq_of_id (hlisted found hfound) hmem (Prod.mk.inj href).2 ▸ hfound
  obtain ⟨-, -, ⟨hlast, rfl⟩ | ⟨hlevel, nodes, hrefs, rfl⟩⟩ := hstands.listed hcycle
  · rw [MarksRow, if_pos hlast]
    have hout : LeavesOut tables request (.node (ownerLabel host row true) []) ↔
        ∃ other ∈ liveChildren collation tables request row.id, other ∉ ([] : List OwnerRow) :=
      hleaves rfl fun _ hnone ↦ absurd hnone List.not_mem_nil
    have hmarked : (RoseTree.node (ownerLabel host row true) []).label.truncated = true := rfl
    rw [hout, iff_true_left hmarked]
    constructor
    · rintro ⟨other, hother, -⟩
      exact List.ne_nil_of_mem hother
    · intro hne
      obtain ⟨other, hother⟩ := List.exists_mem_of_ne_nil _ hne
      exact ⟨other, hother, List.not_mem_nil⟩
  · rw [MarksRow, if_neg hlevel.ne]
    have hout : LeavesOut tables request (.node (ownerLabel host row (request.width ≤
        (ownerChildren collation tables request row.id).length)) nodes) ↔
        ∃ other ∈ liveChildren collation tables request row.id,
          other ∉ ownerChildren collation tables request row.id :=
      hleaves hrefs fun other hother ↦ (mem_liveChildren_of_mem_ownerChildren hother).1
    rw [hout, ownerChildren_eq, exists_not_mem_take (nodup_liveChildren _)]
    change (decide (request.width ≤ _) = true ↔ _) ↔ _
    rw [decide_eq_true_iff, List.length_take]
    omega

/-! ### The whole tree -/

/-- What a reader takes the tree for. -/
structure ListsOwners (collation : Text → κ) (tables : OwnerTables) (request : OwnerTreeRequest)
    (root : OwnerRow) (tree : RoseTree OwnerLabel) : Prop where
  /-- Every row within the limits is listed at one place. -/
  once : ∀ depth row, WithinLimits collation tables request root depth row → ∃! path, ∃ node,
    tree.nodeAt path = some node ∧ node.label.cycle = false ∧ node.label.ref = row.ref
  /-- Nothing else is listed. -/
  only : ∀ path node, tree.nodeAt path = some node → node.label.cycle = false → ∃ row,
    WithinLimits collation tables request root path.length row ∧ node.label.ref = row.ref
  /-- A node is a cycle when its entity stands above it. -/
  cycles : ∀ path node, tree.nodeAt path = some node →
    (node.label.cycle = true ↔ node.label.id ∈ (tree.above path).map OwnerLabel.id)
  /-- A listed node is truncated when it leaves a live child out. -/
  truncated : ∀ path node, tree.nodeAt path = some node → node.label.cycle = false →
    (node.label.truncated = true ↔ LeavesOut tables request node)

/-- Every listed chunk has a text, and the limits mark no node that leaves nothing out. -/
def MarksExactly (collation : Text → κ) (tables : OwnerTables) (request : OwnerTreeRequest)
    (root : OwnerRow) : Prop :=
  ∀ depth row, WithinLimits collation tables request root depth row →
    row.Readable ∧ MarksRow collation tables request depth row

section Whole

variable {root : OwnerRow}

/-- All but the mark of truncation is always right. -/
theorem listsOwners_of_truncated (hroot : root ∈ tables.rows)
    (htree : ownerTreeNode collation host tables request request.depth [] root.table root.id =
      .ok tree)
    (htruncated : ∀ path node, tree.nodeAt path = some node → node.label.cycle = false →
      (node.label.truncated = true ↔ LeavesOut tables request node)) :
    ListsOwners collation tables request root tree where
  once depth row hwithin := by
    obtain ⟨path, node, -, hnode, hcycle, hstands⟩ :=
      exists_nodeAt_of_withinLimits hroot htree hwithin
    refine ⟨path, ⟨node, hnode, hcycle, hstands.ref_eq⟩, ?_⟩
    rintro other ⟨second, hsecond, hcycle', href⟩
    exact path_unique hroot htree hsecond hcycle' hnode hcycle
      (Prod.mk.inj (href.trans hstands.ref_eq.symm)).2
  only path node hnode hcycle := by
    obtain ⟨row, hstands, hwithin⟩ := withinLimits_of_nodeAt hroot htree hnode hcycle
    exact ⟨row, hwithin, hstands.ref_eq⟩
  cycles path node hnode := by
    obtain ⟨row, hstands⟩ := exists_nodeFor hroot htree hnode
    rw [hstands.cycle_iff, (Prod.mk.inj hstands.ref_eq).2]
  truncated := htruncated

/-- What `owner_tree` accepts. -/
def OwnerTreeRequest.Accepted (request : OwnerTreeRequest) (root : OwnerRow) : Prop :=
  (0 ≤ request.maxDepth ∧ request.maxDepth ≤ 20) ∧
    (1 ≤ request.maxChildrenPerNode ∧ request.maxChildrenPerNode ≤ 500) ∧
    root.id = request.entityId ∧ ∀ expected ∈ request.entityType, expected = root.table

/-- An accepted request is answered with the node of the root. -/
theorem ownerTree_eq_ok (hroot : root ∈ tables.rows) (haccepted : request.Accepted root)
    {tree : RoseTree OwnerLabel} :
    (∃ result, ownerTree collation host tables request = .ok result ∧ result.tree = tree) ↔
      ownerTreeNode collation host tables request request.depth [] root.table root.id =
        .ok tree := by
  obtain ⟨⟨hdeep, hshallow⟩, ⟨hsome, hfew⟩, hid, hexpected⟩ := haccepted
  have hentry : (tables.entityUuidRegistry.find? fun entry ↦ entry.2 = request.entityId) =
      some root.ref := by
    have hmem : root.ref ∈ tables.entityUuidRegistry :=
      tables.mirrors.mem_iff.mpr (List.mem_map_of_mem hroot)
    cases hfound : tables.entityUuidRegistry.find? _ with
    | none => exact absurd (decide_eq_true hid) (List.find?_eq_none.mp hfound root.ref hmem)
    | some entry =>
      have hsame := List.find?_some hfound
      obtain ⟨other, hother, rfl⟩ :=
        List.mem_map.mp (tables.mirrors.mem_iff.mp (List.mem_of_find?_eq_some hfound))
      rw [tables.eq_of_id hother hroot ((of_decide_eq_true hsame).trans hid.symm)]
  have hdepth : (decide (request.maxDepth < 0) || decide (20 < request.maxDepth)) = false := by
    rw [decide_eq_false (not_lt.mpr hdeep), decide_eq_false (not_lt.mpr hshallow), Bool.or_false]
  have hwidth : (decide (request.maxChildrenPerNode < 1) ||
      decide (500 < request.maxChildrenPerNode)) = false := by
    rw [decide_eq_false (not_lt.mpr hsome), decide_eq_false (not_lt.mpr hfew), Bool.or_false]
  have hanswer : ∀ result, ownerTree collation host tables request = .ok result ↔
      ∃ tree, ownerTreeNode collation host tables request request.depth [] root.table root.id =
        .ok tree ∧ result = {
          entityType := root.table
          id := request.entityId
          maxDepth := request.maxDepth
          maxChildrenPerNode := request.maxChildrenPerNode
          includeDeleted := request.includeDeleted
          tree } := by
    intro result
    rw [ownerTree, raiseIf_bind_eq_ok, raiseIf_bind_eq_ok, and_iff_right hdepth,
      and_iff_right hwidth, hentry, hid]
    cases hexpectation : request.entityType with
    | none => exact bind_eq_ok.trans (exists_congr fun tree ↦ and_congr_right fun _ ↦ pure_eq_ok)
    | some expected =>
      have hsame : decide (root.ref.1 ≠ expected) = false :=
        decide_eq_false (not_not.mpr (hexpected expected (hexpectation ▸ rfl)).symm)
      refine raiseIf_bind_eq_ok.trans ((and_iff_right hsame).trans ?_)
      exact bind_eq_ok.trans (exists_congr fun tree ↦ and_congr_right fun _ ↦ pure_eq_ok)
  constructor
  · rintro ⟨result, hresult, rfl⟩
    obtain ⟨tree, htree, rfl⟩ := (hanswer result).mp hresult
    exact htree
  · intro htree
    exact ⟨_, (hanswer _).mpr ⟨tree, htree, rfl⟩, rfl⟩

/-- **When the owner tree is right**: exactly when every listed chunk has a text, every entity of the
last level owns a live row, and no other listed one owns exactly as many as are allowed. -/
theorem listsOwners_iff (hroot : root ∈ tables.rows) (haccepted : request.Accepted root)
    (hshown : request.shows root = true) :
    (∃ result, ownerTree collation host tables request = .ok result ∧
      ListsOwners collation tables request root result.tree) ↔
      MarksExactly collation tables request root := by
  constructor
  · rintro ⟨result, hresult, hlists⟩ depth row hwithin
    have htree := (ownerTree_eq_ok hroot haccepted).mp ⟨result, hresult, rfl⟩
    obtain ⟨path, node, rfl, hnode, hcycle, hstands⟩ :=
      exists_nodeAt_of_withinLimits hroot htree hwithin
    exact ⟨(hstands.listed hcycle).2.1,
      (hstands.truncated_iff hcycle).mp (hlists.truncated path node hnode hcycle)⟩
  · intro hmarks
    have hmade : ∃ tree, ownerTreeNode collation host tables request request.depth [] root.table
        root.id = .ok tree :=
      exists_ownerTreeNode hroot hshown (fun depth row hwithin ↦ (hmarks depth row hwithin).1)
        .root (Nat.zero_add _) List.mem_cons_self
    obtain ⟨tree, htree⟩ := hmade
    obtain ⟨result, hresult, rfl⟩ := (ownerTree_eq_ok hroot haccepted).mpr htree
    refine ⟨result, hresult, listsOwners_of_truncated hroot htree fun path node hnode hcycle ↦ ?_⟩
    obtain ⟨row, hstands, hwithin⟩ := withinLimits_of_nodeAt hroot htree hnode hcycle
    exact (hstands.truncated_iff hcycle).mpr (hmarks _ _ hwithin).2

end Whole

/-! ### A project with one file -/

def rootProject : OwnerRow where
  id := 1
  ownerId := none
  table := .projects
  name := some (lit "Letters")

def ownedFile : OwnerRow where
  id := 2
  ownerId := some 1
  table := .files
  name := some (lit "letter.txt")

def projectOwnerTables : OwnerTables where
  entityUuidRegistry := [rootProject.ref, ownedFile.ref]
  rows := [rootProject, ownedFile]
  mirrors := ⟨List.Perm.refl _, by decide +kernel⟩

/-- The project with its file, under some limits. -/
def projectRequest (maxDepth maxChildrenPerNode : ℤ) : OwnerTreeRequest where
  entityId := 1
  maxDepth := maxDepth
  maxChildrenPerNode := maxChildrenPerNode

theorem listsOwners_iff_project :
    (∃ result, ownerTree TextKey.mk sampleHost projectOwnerTables (projectRequest 5 200) = .ok result ∧
      ListsOwners TextKey.mk projectOwnerTables (projectRequest 5 200) rootProject result.tree) ↔
      MarksExactly TextKey.mk projectOwnerTables (projectRequest 5 200) rootProject :=
  listsOwners_iff List.mem_cons_self
    ⟨⟨by decide, by decide⟩, ⟨by decide, by decide⟩, rfl, fun _ hnone ↦ by cases hnone⟩ rfl

/-- The tree of the project, when one child and one level are allowed. -/
def projectTree : RoseTree OwnerLabel :=
  .node { entityType := .projects, id := 1, preview := lit "Letters", truncated := true }
    [.node { entityType := .files, id := 2, preview := lit "letter.txt", truncated := true } []]

theorem ownerTree_project : ownerTree TextKey.mk sampleHost projectOwnerTables (projectRequest 1 1) =
    .ok {
      entityType := .projects
      id := 1
      maxDepth := 1
      maxChildrenPerNode := 1
      includeDeleted := false
      tree := projectTree } := by
  rfl

/-- Both nodes of the project are marked as truncated, and neither leaves anything out. -/
theorem not_listsOwners_project :
    ownerTree TextKey.mk sampleHost projectOwnerTables (projectRequest 1 1) =
      .ok {
        entityType := .projects
        id := 1
        maxDepth := 1
        maxChildrenPerNode := 1
        includeDeleted := false
        tree := projectTree } ∧
    (¬ LeavesOut projectOwnerTables (projectRequest 1 1) projectTree ∧
      ∃ leaf, projectTree.nodeAt [0] = some leaf ∧ leaf.label.truncated = true ∧
        ¬ LeavesOut projectOwnerTables (projectRequest 1 1) leaf) ∧
    ¬ ListsOwners TextKey.mk projectOwnerTables (projectRequest 1 1) rootProject projectTree := by
  have hrows : ∀ row ∈ projectOwnerTables.rows, row = rootProject ∨ row = ownedFile := by
    intro row hrow
    simpa [projectOwnerTables] using hrow
  have hroot : ¬ LeavesOut projectOwnerTables (projectRequest 1 1) projectTree := by
    rintro ⟨row, hrow, howner, -, hout⟩
    rcases hrows row hrow with rfl | rfl
    · cases howner
    · exact hout _ List.mem_cons_self rfl
  refine ⟨ownerTree_project, ⟨hroot, _, rfl, rfl, ?_⟩, fun hlists ↦ ?_⟩
  · rintro ⟨row, hrow, howner, -⟩
    rcases hrows row hrow with rfl | rfl
    · cases howner
    · exact absurd howner (by decide)
  · exact hroot ((hlists.truncated [] projectTree rfl rfl).mp rfl)

end DocStore
