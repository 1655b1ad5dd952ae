import DocStore.Foundation.Blocks
import DocStore.Runtime.TextReconstruction

/-!
# Rows that a reader accepts

A reader refuses rows whose metadata has exact pieces unless every row has one and the suffix of the
text is on the last row and on no other. So rows that all have pieces are read exactly when they are
closed by the row with the suffix (`exists_assemble_iff_closed`), and when both a list of rows and
its end are read, the end is read as the end of the text (`suffix_of_closed`).
-/

set_option autoImplicit false
set_option relaxedAutoImplicit false

namespace DocStore

open Foundation

/-! ### Rows with a piece -/

/-- The metadata of a row has an exact piece. -/
def ScopeRow.HasPiece (row : ScopeRow) : Prop := ∃ piece, row.selected = .ok (some piece)

/-- The piece of a row has the suffix of a text. -/
def ScopeRow.endsText (row : ScopeRow) : Bool :=
  match row.selected with
  | .ok (some piece) => piece.suffixAfter.isSome
  | _ => false

theorem ScopeRow.endsText_of_selected {row : ScopeRow} {piece : ExactReconstructionPiece}
    (hselected : row.selected = .ok (some piece)) : row.endsText = piece.suffixAfter.isSome := by
  rw [ScopeRow.endsText, hselected]

section Accepted

variable {collected : Collected} {rows : List ScopeRow}

theorem CollectedFrom.exists_piece (hspec : CollectedFrom {} rows collected) {row : ScopeRow}
    (hrow : row ∈ rows) (hpiece : row.HasPiece) :
    ∃ piece, getKey collected.pieces row.chunkId = some piece ∧
      carriesSuffix collected.pieces row = row.endsText := by
  obtain ⟨piece, hselected⟩ := hpiece
  have hfound := Except.ok.inj ((hspec.selected row hrow).symm.trans hselected)
  refine ⟨piece, hfound, ?_⟩
  rw [carriesSuffix, hfound, ScopeRow.endsText_of_selected hselected, Option.any_some]

/-- Rows with pieces are accepted exactly when the last one alone has the suffix. -/
theorem piecesAccepted_iff_closed (hspec : CollectedFrom {} rows collected) (hne : rows ≠ [])
    (hpieces : ∀ row ∈ rows, row.HasPiece) :
    PiecesAccepted collected rows ↔ Closed ScopeRow.endsText rows := by
  have hfound : ∀ row ∈ rows, (getKey collected.pieces row.chunkId).isSome = true ∧
      carriesSuffix collected.pieces row = row.endsText := by
    intro row hrow
    obtain ⟨piece, hpiece, hsuffix⟩ := hspec.exists_piece hrow (hpieces row hrow)
    exact ⟨Option.isSome_of_eq_some hpiece, hsuffix⟩
  have hlength : collected.pieces.length = rows.length := by
    rw [hspec.length, List.countP_eq_length.mpr fun row hrow ↦ (hfound row hrow).1]
    exact Nat.zero_add _
  have hlegacy : collected.legacyRows = 0 := by
    rw [hspec.legacyRows, List.countP_eq_zero.mpr fun row hrow ↦ by
      rw [← Option.not_isSome, (hfound row hrow).1]
      exact Bool.false_ne_true]
  have hexact : collected.pieces ≠ [] := by
    rw [← List.length_pos_iff, hlength]
    exact List.length_pos_iff.mpr hne
  have hcount : collected.suffixRows = rows.countP ScopeRow.endsText := by
    rw [hspec.suffixRows, List.countP_congr fun row hrow ↦ by rw [(hfound row hrow).2]]
    exact Nat.zero_add _
  have hfinal : ∀ last ∈ rows, (getKey collected.pieces last.chunkId).any
      (fun piece ↦ piece.suffixAfter.isSome) = last.endsText :=
    fun last hlast ↦ (hfound last hlast).2
  obtain hnil | ⟨front, last, hrows⟩ := List.eq_nil_or_concat rows
  · exact absurd hnil hne
  rw [List.concat_eq_append] at hrows
  have hlast : rows.getLast? = some last := by rw [hrows, List.getLast?_concat]
  have hmem : last ∈ rows := List.mem_of_getLast? hlast
  rw [PiecesAccepted, hlast, Option.bind_some, hfinal last hmem, hcount, hlegacy, hlength]
  constructor
  · rintro (hempty | ⟨-, -, hone, hmarked⟩)
    · exact absurd hempty hexact
    · refine ⟨front, last, hrows, ?_, hmarked⟩
      rw [hrows, List.countP_append, List.countP_singleton, if_pos hmarked] at hone
      have hnone : front.countP ScopeRow.endsText = 0 := Nat.succ.inj hone
      exact fun row hrow ↦ Bool.eq_false_iff.mpr (List.countP_eq_zero.mp hnone row hrow)
  · rintro ⟨others, final, hsplit, hothers, hmarked⟩
    obtain ⟨rfl, hsame⟩ := List.append_inj' (hrows.symm.trans hsplit) rfl
    obtain rfl := (List.cons.inj hsame).1
    refine .inr ⟨rfl, rfl, ?_, hmarked⟩
    rw [hrows, List.countP_append, List.countP_singleton, if_pos hmarked,
      List.countP_eq_zero.mpr fun row hrow ↦ Bool.eq_false_iff.mp (hothers row hrow)]

/-- The loop collects the pieces of rows that all have one. -/
theorem exists_collected (hnodup : (rows.map ScopeRow.chunkId).Nodup)
    (hpieces : ∀ row ∈ rows, row.HasPiece) :
    ∃ collected, collectRowPieces {} rows = .ok collected ∧ CollectedFrom {} rows collected := by
  obtain ⟨collected, hcollect⟩ := collectRowPieces_total (fun row hrow ↦ by
    obtain ⟨piece, hpiece⟩ := hpieces row hrow
    exact ⟨some piece, hpiece⟩) {}
  exact ⟨collected, hcollect, collectRowPieces_spec hnodup (fun _ _ ↦ rfl) hcollect⟩

/-- The integrity reader reads rows with pieces when they are closed. -/
theorem exists_scopeText_iff_closed (hnodup : (rows.map ScopeRow.chunkId).Nodup) (hne : rows ≠ [])
    (hpieces : ∀ row ∈ rows, row.HasPiece) :
    (∃ text, scopeText rows = .ok text) ↔ Closed ScopeRow.endsText rows := by
  obtain ⟨collected, hcollect, hspec⟩ := exists_collected hnodup hpieces
  rw [← piecesAccepted_iff_closed hspec hne hpieces, ← checkScopePieces_eq_ok]
  constructor
  · rintro ⟨text, htext⟩
    obtain ⟨found, hfound, htext⟩ := bind_eq_ok.mp htext
    obtain rfl := Except.ok.inj (hcollect.symm.trans hfound)
    obtain ⟨_, hcheck, -⟩ := bind_eq_ok.mp htext
    exact hcheck
  · intro hcheck
    exact ⟨_, bind_eq_ok.mpr ⟨collected, hcollect, bind_eq_ok.mpr ⟨(), hcheck, rfl⟩⟩⟩

/-- The service reader reads rows with pieces when they are closed, with whatever limit. -/
theorem exists_assemble_iff_closed {host : Host} {rows : List ChunkTextRow} {maxChars : ℕ}
    (hnodup : (rows.map fun row ↦ row.chunkId).Nodup) (hne : rows ≠ [])
    (hpieces : ∀ row ∈ rows, row.toScopeRow.HasPiece) :
    (∃ assembly, assemble host rows maxChars = .ok assembly) ↔
      Closed ScopeRow.endsText (rows.map ChunkTextRow.toScopeRow) := by
  have hpieces' : ∀ row ∈ rows.map ChunkTextRow.toScopeRow, row.HasPiece := by
    simpa only [List.forall_mem_map] using hpieces
  obtain ⟨collected, hcollect, hspec⟩ := exists_collected (by rwa [List.map_map]) hpieces'
  rw [← piecesAccepted_iff_closed hspec (by simpa using hne) hpieces',
    ← checkServicePieces_eq_ok hspec]
  constructor
  · rintro ⟨assembly, hassemble⟩
    obtain ⟨pieces, hselect, -⟩ := bind_eq_ok.mp hassemble
    obtain ⟨found, hfound, hselect⟩ := bind_eq_ok.mp hselect
    obtain rfl := Except.ok.inj (hcollect.symm.trans hfound)
    obtain ⟨_, hcheck, -⟩ := bind_eq_ok.mp hselect
    exact hcheck
  · intro hcheck
    have hselect : selectExactPieces (rows.map ChunkTextRow.toScopeRow) = .ok collected.pieces :=
      bind_eq_ok.mpr ⟨collected, hcollect, bind_eq_ok.mpr ⟨(), hcheck, rfl⟩⟩
    exact ⟨_, bind_eq_ok.mpr ⟨collected.pieces, hselect, rfl⟩⟩

end Accepted

/-! ### The end of a text -/

section Ends

variable {front page : List ScopeRow} {text ending : Text}

theorem exists_pieces {rows : List ScopeRow} (hpieces : ∀ row ∈ rows, row.HasPiece) :
    ∃ pieces : List ExactReconstructionPiece,
      rows.map ScopeRow.selected = pieces.map fun piece ↦ .ok (some piece) := by
  induction rows with
  | nil => exact ⟨[], rfl⟩
  | cons row rows ih =>
    obtain ⟨⟨piece, hpiece⟩, hrest⟩ := List.forall_mem_cons.mp hpieces
    obtain ⟨pieces, hsame⟩ := ih hrest
    exact ⟨piece :: pieces, by rw [List.map_cons, List.map_cons, hpiece, hsame]⟩

/-- The pieces of closed rows, the one with the suffix being the last. -/
theorem exists_pieces_of_closed {rows : List ScopeRow} (hpieces : ∀ row ∈ rows, row.HasPiece)
    (hclosed : Closed ScopeRow.endsText rows) :
    ∃ first last suffix, rows.map ScopeRow.selected =
        (first ++ [last]).map (fun piece : ExactReconstructionPiece ↦ .ok (some piece)) ∧
      (∀ piece ∈ first, piece.suffixAfter = none) ∧ last.suffixAfter = some suffix := by
  obtain ⟨init, final, rfl, hinit, hfinal⟩ := hclosed
  obtain ⟨hothers, ⟨last, hlast⟩⟩ : (∀ row ∈ init, row.HasPiece) ∧ final.HasPiece := by
    simpa using List.forall_mem_append.mp hpieces
  obtain ⟨first, hfirst⟩ := exists_pieces hothers
  rw [ScopeRow.endsText_of_selected hlast] at hfinal
  obtain ⟨suffix, hsuffix⟩ := Option.isSome_iff_exists.mp hfinal
  refine ⟨first, last, suffix, ?_, fun piece hpiece ↦ ?_, hsuffix⟩
  · rw [List.map_append, hfirst, List.map_append, List.map_singleton, List.map_singleton, hlast]
  · have hmem : Except.ok (some piece) ∈ init.map ScopeRow.selected :=
      hfirst ▸ List.mem_map_of_mem hpiece
    obtain ⟨row, hrow, hselected⟩ := List.mem_map.mp hmem
    have hnone := hinit row hrow
    rw [ScopeRow.endsText_of_selected hselected] at hnone
    exact Option.isNone_iff_eq_none.mp (Option.isSome_eq_false_iff.mp hnone)

/-- **Rows at the end are read as the end of the text.** -/
theorem suffix_of_closed (hnodup : ((front ++ page).map ScopeRow.chunkId).Nodup)
    (hpieces : ∀ row ∈ front ++ page, row.HasPiece)
    (hwhole : Closed ScopeRow.endsText (front ++ page)) (hpage : Closed ScopeRow.endsText page)
    (htext : scopeText (front ++ page) = .ok text) (hending : scopeText page = .ok ending) :
    ending <:+ text := by
  have hpagePieces : ∀ row ∈ page, row.HasPiece :=
    fun row hrow ↦ hpieces row (List.mem_append_right _ hrow)
  obtain ⟨pieces, last, suffix, hselected, hfirst, hlast⟩ := exists_pieces_of_closed hpieces hwhole
  obtain ⟨pagePieces, pageLast, pageSuffix, hpageSelected, hpageFirst, hpageLast⟩ :=
    exists_pieces_of_closed hpagePieces hpage
  have hpageNodup : (page.map ScopeRow.chunkId).Nodup :=
    hnodup.sublist ((List.sublist_append_right front page).map _)
  rw [scopeText_of_exact hnodup hselected hfirst hlast] at htext
  rw [scopeText_of_exact hpageNodup hpageSelected hpageFirst hpageLast] at hending
  obtain rfl := Except.ok.inj htext
  obtain rfl := Except.ok.inj hending
  rw [List.map_append] at hselected
  obtain ⟨earlier, later, hsplit, hearlier, hlater⟩ := List.map_eq_append_iff.mp hselected.symm
  have hinjective : Function.Injective fun piece : ExactReconstructionPiece ↦
      Except.ok (ε := Failure) (some piece) :=
    fun first second hsame ↦ Option.some.inj (Except.ok.inj hsame)
  obtain rfl : later = pagePieces ++ [pageLast] :=
    hinjective.list_map (hlater.trans hpageSelected)
  obtain rfl : last = pageLast := by
    have hends := congrArg List.getLast? hsplit
    rw [← List.append_assoc, List.getLast?_concat, List.getLast?_concat] at hends
    exact Option.some.inj hends
  obtain rfl := Option.some.inj (hlast.symm.trans hpageLast)
  have hlength : front.length = earlier.length := by
    have hsame := congrArg List.length hearlier
    rwa [List.length_map, List.length_map, eq_comm] at hsame
  rw [hsplit, List.zipWith_append hlength, List.flatten_append, List.append_assoc]
  exact List.suffix_append _ _

end Ends

end DocStore
