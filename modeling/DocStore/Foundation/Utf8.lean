import Mathlib.Data.List.Basic
import Mathlib.Order.Bounds.Defs

/-!
# UTF-8 up to an offset

The bytes before an offset of an encoded text need not end where a character does. A decoder that
ignores what it cannot decode reads from them the characters that lie before the offset with all of
their bytes (`isGreatest_decodeIgnoring`).
-/

set_option autoImplicit false
set_option relaxedAutoImplicit false

namespace DocStore.Foundation

/-- The encoding of a text. -/
def utf8Bytes (text : List Char) : List UInt8 := text.flatMap String.utf8EncodeChar

/-- The character at the beginning of some bytes. -/
def nextChar (bytes : List UInt8) : Option Char := bytes.toByteArray.utf8DecodeChar? 0

/-- Decodes bytes behind some that belong to a character already, and drops a byte at which no
character begins. -/
def decodeFrom : ℕ → List UInt8 → List Char
  | _, [] => []
  | skipped + 1, _ :: rest => decodeFrom skipped rest
  | 0, byte :: rest =>
    match nextChar (byte :: rest) with
    | some character => character :: decodeFrom (character.utf8Size - 1) rest
    | none => decodeFrom 0 rest

/-- `bytes.decode("utf-8", errors="ignore")`. -/
def decodeIgnoring (bytes : List UInt8) : List Char := decodeFrom 0 bytes

/-! ### Characters -/

section Characters

variable {character : Char} {byte : UInt8} {bytes rest : List UInt8}

theorem nextChar_encode (character : Char) (rest : List UInt8) :
    nextChar (String.utf8EncodeChar character ++ rest) = some character := by
  rw [nextChar, List.toByteArray_append]
  exact ByteArray.utf8DecodeChar?_utf8EncodeChar_append

/-- What stands behind a character does not change it. -/
theorem nextChar_append (hnext : nextChar bytes = some character) :
    nextChar (bytes ++ rest) = some character := by
  rw [nextChar, List.toByteArray_append]
  exact ByteArray.utf8DecodeChar?_append_eq_some hnext _

theorem utf8Size_le_of_nextChar (hnext : nextChar bytes = some character) :
    character.utf8Size ≤ bytes.length := by
  have hsize := ByteArray.le_size_of_utf8DecodeChar?_eq_some hnext
  rwa [Nat.zero_add, List.size_toByteArray] at hsize

/-- No character begins with a byte that continues one. -/
theorem nextChar_eq_none (hbyte : ¬byte.IsUTF8FirstByte) : nextChar (byte :: rest) = none := by
  cases hnext : nextChar (byte :: rest) with
  | none => rfl
  | some character =>
    have hsome : ((byte :: rest).toByteArray.utf8DecodeChar? 0).isSome := by
      rw [← nextChar, hnext]
      rfl
    have hfirst := ByteArray.isUTF8FirstByte_of_isSome_utf8DecodeChar? hsome
    rw [List.getElem_toByteArray] at hfirst
    exact absurd hfirst hbyte

theorem decodeFrom_length (skipped rest : List UInt8) :
    decodeFrom skipped.length (skipped ++ rest) = decodeFrom 0 rest := by
  induction skipped with
  | nil => rfl
  | cons byte skipped ih => exact ih

/-- A whole character is read. -/
theorem decodeFrom_encode (character : Char) (rest : List UInt8) :
    decodeFrom 0 (String.utf8EncodeChar character ++ rest) = character :: decodeFrom 0 rest := by
  cases hbytes : String.utf8EncodeChar character with
  | nil =>
    have hlength := String.length_utf8EncodeChar character
    rw [hbytes] at hlength
    exact absurd character.utf8Size_pos (by rw [← hlength]; exact Nat.lt_irrefl 0)
  | cons byte bytes =>
    have hlength : bytes.length = character.utf8Size - 1 := by
      rw [← String.length_utf8EncodeChar, hbytes, List.length_cons, Nat.add_sub_cancel]
    have hnext : nextChar (byte :: (bytes ++ rest)) = some character := by
      rw [← List.cons_append, ← hbytes]
      exact nextChar_encode character rest
    rw [List.cons_append, decodeFrom, hnext]
    dsimp only
    rw [← hlength, decodeFrom_length]

/-- Bytes that only continue a character are dropped. -/
theorem decodeFrom_continuation (hbytes : ∀ byte ∈ bytes, ¬byte.IsUTF8FirstByte) :
    decodeFrom 0 bytes = [] := by
  induction bytes with
  | nil => rfl
  | cons byte bytes ih =>
    obtain ⟨hbyte, hbytes⟩ := List.forall_mem_cons.mp hbytes
    rw [decodeFrom, nextChar_eq_none hbyte]
    exact ih hbytes

/-- Nothing is read from a part of a character. -/
theorem decodeFrom_take_encode {count : ℕ} (hcount : count < character.utf8Size) :
    decodeFrom 0 ((String.utf8EncodeChar character).take count) = [] := by
  cases count with
  | zero => rfl
  | succ count =>
    cases hbytes : String.utf8EncodeChar character with
    | nil => rfl
    | cons byte bytes =>
      rw [List.take_succ_cons]
      have hnone : nextChar (byte :: bytes.take count) = none := by
        cases hnext : nextChar (byte :: bytes.take count) with
        | none => rfl
        | some other =>
          have hwhole : nextChar ((byte :: bytes.take count) ++ bytes.drop count) = some other :=
            nextChar_append hnext
          rw [List.cons_append, List.take_append_drop, ← hbytes,
            ← List.append_nil (String.utf8EncodeChar character), nextChar_encode] at hwhole
          have hsize := utf8Size_le_of_nextChar hnext
          rw [← Option.some.inj hwhole, List.length_cons, List.length_take] at hsize
          omega
      rw [decodeFrom, hnone]
      refine decodeFrom_continuation fun other hother ↦ ?_
      obtain ⟨index, hindex, rfl⟩ := List.mem_iff_getElem.mp (List.mem_of_mem_take hother)
      have hinside : index + 1 < (String.utf8EncodeChar character).length := by
        rw [hbytes]
        exact Nat.succ_lt_succ hindex
      have hcontinues : ¬((String.utf8EncodeChar character)[index + 1]).IsUTF8FirstByte := by
        rw [UInt8.isUTF8FirstByte_getElem_utf8EncodeChar]
        exact Nat.succ_ne_zero index
      simpa only [hbytes, List.getElem_cons_succ] using hcontinues

end Characters

/-! ### Texts -/

/-- The character boundaries of a text that are not behind an offset. -/
def boundariesWithin (text : List Char) (offset : ℕ) : Set ℕ :=
  {count | count ≤ text.length ∧ (utf8Bytes (text.take count)).length ≤ offset}

theorem length_utf8Bytes_cons (character : Char) (text : List Char) :
    (utf8Bytes (character :: text)).length = character.utf8Size + (utf8Bytes text).length := by
  rw [utf8Bytes, List.flatMap_cons, List.length_append, String.length_utf8EncodeChar]
  rfl

/-- **The bytes before an offset** are read up to the last character boundary that is not behind
it. -/
theorem isGreatest_decodeIgnoring (text : List Char) (offset : ℕ) :
    IsGreatest (boundariesWithin text offset)
      (decodeIgnoring ((utf8Bytes text).take offset)).length := by
  induction text generalizing offset with
  | nil =>
    rw [show utf8Bytes [] = [] from rfl, List.take_nil]
    exact ⟨⟨Nat.le_refl 0, Nat.zero_le offset⟩, fun count hcount ↦ hcount.1⟩
  | cons character text ih =>
    have hbytes : utf8Bytes (character :: text) =
        String.utf8EncodeChar character ++ utf8Bytes text := List.flatMap_cons ..
    rw [decodeIgnoring, hbytes, List.take_append, String.length_utf8EncodeChar]
    by_cases hwhole : character.utf8Size ≤ offset
    · rw [List.take_of_length_le (by rwa [String.length_utf8EncodeChar]), decodeFrom_encode,
        List.length_cons]
      obtain ⟨⟨hlength, hwithin⟩, hgreatest⟩ := ih (offset - character.utf8Size)
      refine ⟨⟨Nat.succ_le_succ hlength, ?_⟩, ?_⟩
      · rw [List.take_succ_cons, length_utf8Bytes_cons]
        exact (Nat.le_sub_iff_add_le' hwhole).mp hwithin
      · rintro (_ | count) ⟨hcount, hcountWithin⟩
        · exact Nat.zero_le _
        · rw [List.take_succ_cons, length_utf8Bytes_cons] at hcountWithin
          exact Nat.succ_le_succ (hgreatest ⟨Nat.le_of_succ_le_succ hcount,
            Nat.le_sub_of_add_le' hcountWithin⟩)
    · have hpart : offset < character.utf8Size := Nat.lt_of_not_le hwhole
      rw [Nat.sub_eq_zero_of_le (Nat.le_of_lt hpart), List.take_zero, List.append_nil,
        decodeFrom_take_encode hpart]
      refine ⟨⟨Nat.zero_le _, Nat.zero_le offset⟩, ?_⟩
      rintro (_ | count) ⟨-, hcountWithin⟩
      · exact Nat.le_refl 0
      · rw [List.take_succ_cons, length_utf8Bytes_cons] at hcountWithin
        exact absurd (Nat.le_trans (Nat.le_add_right _ _) hcountWithin) hwhole

end DocStore.Foundation
