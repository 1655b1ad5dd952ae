import DocStore.Foundation.Slices
import Mathlib.Data.List.Induction
import Mathlib.Data.List.TakeWhile

/-!
# Patterns and what they mask

A pattern matches the beginning of a text in several lengths, and backtracking takes the first one
in the order in which it tries them (`Pattern.lengths`). A scan goes through a text and finds the
matches one behind the other; `Pattern.covered` says which letters belong to one. Masking replaces
these.

Two facts say when masking can be done in parts. A piece that is cut out of a text is masked like
the text when no match crosses an edge of the piece (`covered_slice`). And a text in which some
letters are masked already is masked elsewhere like the text itself, when no match crosses an edge
of the masked part (`covered_blot`); so patterns that mask one behind the other mask what each of
them covers (`getElem?_maskAll`). In any case no match of any of them is left
(`not_foundIn_maskAll`): the mark belongs to none, so that masking can only take matches away.
-/

set_option autoImplicit false
set_option relaxedAutoImplicit false

namespace DocStore.Foundation

variable {α : Type*}

/-- A pattern: a letter of a class, a run of letters that is as long as possible, a part that may be
missing, or two parts one behind the other. -/
inductive Pattern (α : Type*) where
  | one (accepts : α → Bool)
  | atLeast (count : ℕ) (accepts : α → Bool)
  | optional (part : Pattern α)
  | seq (first second : Pattern α)

/-- The lengths of the matches at the beginning of a text, in the order in which they are tried. -/
def Pattern.lengths : Pattern α → List α → List ℕ
  | .one accepts, text => if text.head?.any accepts then [1] else []
  | .atLeast count accepts, text =>
    (List.range ((text.takeWhile accepts).length + 1)).reverse.filter fun length ↦ count ≤ length
  | .optional part, text => part.lengths text ++ [0]
  | .seq first second, text =>
    (first.lengths text).flatMap fun length ↦
      (second.lengths (text.drop length)).map fun other ↦ length + other

/-- The length of the match at the beginning of a text, or zero. -/
def Pattern.matchLength (pattern : Pattern α) (text : List α) : ℕ :=
  (pattern.lengths text).head?.getD 0

/-- A letter that some class of a pattern accepts. -/
def Pattern.accepts : Pattern α → α → Bool
  | .one accepts, letter => accepts letter
  | .atLeast _ accepts, letter => accepts letter
  | .optional part, letter => part.accepts letter
  | .seq first second, letter => first.accepts letter || second.accepts letter

/-! ### Matches -/

section Matches

variable {pattern : Pattern α} {text : List α} {length : ℕ}

theorem length_takeWhile_take (accepts : α → Bool) (text : List α) (count : ℕ) :
    ((text.take count).takeWhile accepts).length =
      min count (text.takeWhile accepts).length := by
  induction text generalizing count with
  | nil => simp
  | cons letter text ih =>
    cases count with
    | zero => simp
    | succ count =>
      by_cases haccepts : accepts letter = true
      · simp [haccepts, ih, Nat.succ_min_succ]
      · simp [haccepts]

theorem range_min_succ (count bound : ℕ) :
    List.range (min count bound + 1) =
      (List.range (bound + 1)).filter fun length ↦ length ≤ count := by
  induction bound with
  | zero => simp
  | succ bound ih =>
    rw [List.range_succ (n := bound + 1), List.filter_append, ← ih]
    by_cases hbound : bound + 1 ≤ count
    · rw [Nat.min_eq_right hbound, Nat.min_eq_right (Nat.le_of_succ_le hbound)]
      simp [hbound, List.range_succ]
    · have hless : count ≤ bound := Nat.le_of_lt_succ (Nat.lt_of_not_le hbound)
      rw [Nat.min_eq_left hless, Nat.min_eq_left (Nat.le_succ_of_le hless)]
      simp [hbound]

/-- A part of a text has the matches of the text that end in it. -/
theorem lengths_take (pattern : Pattern α) (text : List α) (count : ℕ) :
    pattern.lengths (text.take count) =
      (pattern.lengths text).filter fun length ↦ length ≤ count := by
  induction pattern generalizing text count with
  | one accepts =>
    cases text with
    | nil => simp [Pattern.lengths]
    | cons letter text =>
      by_cases haccepts : accepts letter = true
      · cases count <;> simp [Pattern.lengths, haccepts]
      · cases count <;> simp [Pattern.lengths, haccepts]
  | atLeast minimum accepts =>
    simp only [Pattern.lengths, length_takeWhile_take, range_min_succ, ← List.filter_reverse,
      List.filter_filter, Bool.and_comm]
  | optional part ih =>
    simp [Pattern.lengths, ih, List.filter_append]
  | seq first second hfirst hsecond =>
    simp only [Pattern.lengths, hfirst]
    generalize first.lengths text = lengths
    induction lengths with
    | nil => rfl
    | cons length lengths ih =>
      by_cases hlength : length ≤ count
      · rw [List.filter_cons_of_pos (by simpa using hlength), List.flatMap_cons, List.flatMap_cons,
          List.filter_append, ih, List.drop_take, hsecond, List.filter_map]
        congr 2
        refine List.filter_congr fun other _ ↦ ?_
        simp only [Function.comp_apply, decide_eq_decide]
        omega
      · rw [List.filter_cons_of_neg (by simpa using hlength), List.flatMap_cons, List.filter_append,
          ← ih, List.self_eq_append_left, List.filter_eq_nil_iff]
        intro other hother
        obtain ⟨rest, -, rfl⟩ := List.mem_map.mp hother
        simp only [decide_eq_true_eq]
        omega

theorem length_le_of_mem_lengths (hlength : length ∈ pattern.lengths text) :
    length ≤ text.length := by
  rw [← List.take_length (l := text), lengths_take] at hlength
  exact of_decide_eq_true (List.mem_filter.mp hlength).2

theorem matchLength_le (pattern : Pattern α) (text : List α) :
    pattern.matchLength text ≤ text.length := by
  unfold Pattern.matchLength
  cases hlengths : pattern.lengths text with
  | nil => exact Nat.zero_le _
  | cons length lengths => exact length_le_of_mem_lengths (hlengths ▸ List.mem_cons_self)

/-- A match that ends in a part of a text is the match of that part. -/
theorem matchLength_take {count : ℕ} (hmatch : pattern.matchLength text ≤ count) :
    pattern.matchLength (text.take count) = pattern.matchLength text := by
  unfold Pattern.matchLength at hmatch ⊢
  rw [lengths_take]
  cases hlengths : pattern.lengths text with
  | nil => rfl
  | cons length lengths =>
    rw [hlengths] at hmatch
    rw [List.filter_cons_of_pos (by simpa using hmatch)]
    rfl

/-- A match has accepted letters only. -/
theorem accepts_of_mem_lengths (hlength : length ∈ pattern.lengths text) {letter : α}
    (hletter : letter ∈ text.take length) : pattern.accepts letter = true := by
  induction pattern generalizing text length with
  | one accepts =>
    cases text with
    | nil => simp at hletter
    | cons first text =>
      by_cases haccepts : accepts first = true
      · obtain rfl : length = 1 := by simpa [Pattern.lengths, haccepts] using hlength
        obtain rfl : letter = first := by simpa using hletter
        exact haccepts
      · simp [Pattern.lengths, haccepts] at hlength
  | atLeast count accepts =>
    have hbound : length ≤ (text.takeWhile accepts).length := by
      have hrange := List.mem_reverse.mp (List.mem_filter.mp hlength).1
      exact Nat.le_of_lt_succ (List.mem_range.mp hrange)
    have hleading : text.take length = (text.takeWhile accepts).take length := by
      rw [← List.takeWhile_append_dropWhile (p := accepts) (l := text), List.take_append_of_le_length]
      · rw [List.takeWhile_append_dropWhile]
      · exact hbound
    rw [hleading] at hletter
    exact List.mem_takeWhile_imp (List.mem_of_mem_take hletter)
  | optional part ih =>
    rcases List.mem_append.mp hlength with hpart | hempty
    · exact ih hpart hletter
    · rw [List.mem_singleton.mp hempty] at hletter
      simp at hletter
  | seq first second hfirst hsecond =>
    obtain ⟨middle, hmiddle, hlater⟩ := List.mem_flatMap.mp hlength
    obtain ⟨rest, hrest, rfl⟩ := List.mem_map.mp hlater
    rw [List.take_add, List.mem_append] at hletter
    rcases hletter with hletter | hletter
    · exact Bool.or_eq_true_iff.mpr (.inl (hfirst hmiddle hletter))
    · exact Bool.or_eq_true_iff.mpr (.inr (hsecond hrest hletter))

end Matches

/-! ### Scans -/

/-- The letters that are left of a match: of the one that has begun already, or else of the one that
begins here. -/
def Pattern.begun (pattern : Pattern α) (pending : ℕ) (text : List α) : ℕ :=
  if pending = 0 then pattern.matchLength text else pending

/-- Which letters belong to a match, behind the beginning of one. -/
def Pattern.coveredFrom (pattern : Pattern α) : ℕ → List α → List Bool
  | _, [] => []
  | pending, letter :: text =>
    decide (0 < pattern.begun pending (letter :: text)) ::
      pattern.coveredFrom (pattern.begun pending (letter :: text) - 1) text

/-- Which letters belong to a match of `pattern.finditer(text)`. -/
def Pattern.covered (pattern : Pattern α) (text : List α) : List Bool := pattern.coveredFrom 0 text

/-- What a cut leaves behind it of a match that begins before it. -/
def Pattern.overhang (pattern : Pattern α) : ℕ → List α → ℕ → ℕ
  | pending, _, 0 => pending
  | _, [], _ + 1 => 0
  | pending, letter :: text, cut + 1 =>
    pattern.overhang (pattern.begun pending (letter :: text) - 1) text cut

/-- A match begins before a cut and ends behind it. -/
def Pattern.Crosses (pattern : Pattern α) (text : List α) (cut : ℕ) : Prop :=
  0 < pattern.overhang 0 text cut

/-- Replaces the letters at some positions. -/
def blot (mark : α) (flags : List Bool) (text : List α) : List α :=
  flags.zipWith (fun flag letter ↦ if flag then mark else letter) text

/-- `pattern.sub(lambda match: _mask(match.group(0)), text)`. -/
def Pattern.mask (pattern : Pattern α) (mark : α) (text : List α) : List α :=
  blot mark (pattern.covered text) text

section Scans

variable {pattern : Pattern α} {text : List α} {mark : α} {pending cut : ℕ}

@[simp] theorem length_coveredFrom (pattern : Pattern α) (pending : ℕ) (text : List α) :
    (pattern.coveredFrom pending text).length = text.length := by
  induction text generalizing pending with
  | nil => rfl
  | cons letter text ih => exact congrArg (· + 1) (ih _)

@[simp] theorem length_covered (pattern : Pattern α) (text : List α) :
    (pattern.covered text).length = text.length :=
  length_coveredFrom pattern 0 text

theorem length_blot {flags : List Bool} (hlength : flags.length = text.length) :
    (blot mark flags text).length = text.length := by
  rw [blot, List.length_zipWith, hlength, Nat.min_self]

/-- Masking keeps the length of a text. -/
@[simp] theorem length_mask (pattern : Pattern α) (mark : α) (text : List α) :
    (pattern.mask mark text).length = text.length :=
  length_blot (length_covered pattern text)

theorem begun_le (hpending : pending ≤ text.length) : pattern.begun pending text ≤ text.length := by
  unfold Pattern.begun
  split
  · exact matchLength_le pattern text
  · exact hpending

/-- Behind a cut the scan goes on with what the cut has left of a match. -/
theorem coveredFrom_drop (pattern : Pattern α) (pending : ℕ) (text : List α) (cut : ℕ) :
    (pattern.coveredFrom pending text).drop cut =
      pattern.coveredFrom (pattern.overhang pending text cut) (text.drop cut) := by
  induction cut generalizing pending text with
  | zero => rfl
  | succ cut ih =>
    cases text with
    | nil => rfl
    | cons letter text => exact ih _ _

/-- A cut that leaves nothing of a match is behind its end. -/
theorem le_of_overhang_eq_zero (hpending : pending ≤ text.length)
    (hcut : pattern.overhang pending text cut = 0) : pending ≤ cut := by
  induction cut generalizing pending text with
  | zero => exact Nat.le_of_eq hcut
  | succ cut ih =>
    cases text with
    | nil => exact Nat.le_trans hpending (Nat.zero_le _)
    | cons letter text =>
      by_cases hzero : pending = 0
      · exact hzero ▸ Nat.zero_le _
      · rw [Pattern.overhang, Pattern.begun, if_neg hzero] at hcut
        have hrest := ih (Nat.sub_le_of_le_add hpending) hcut
        exact Nat.le_add_of_sub_le hrest

/-- A match that a cut leaves nothing of begins alike without what is behind the cut. -/
theorem begun_take {letter : α} (hpending : pending ≤ (letter :: text).length)
    (hcut : pattern.overhang pending (letter :: text) (cut + 1) = 0) :
    pattern.begun pending (letter :: text.take cut) = pattern.begun pending (letter :: text) := by
  have hbound := le_of_overhang_eq_zero (Nat.sub_le_of_le_add (begun_le hpending)) hcut
  unfold Pattern.begun at hbound ⊢
  split
  next hzero =>
    rw [if_pos hzero] at hbound
    rw [← List.take_succ_cons]
    exact matchLength_take (Nat.le_add_of_sub_le hbound)
  next => rfl

/-- Before a cut that leaves nothing of a match, the scan does not see what is behind it. -/
theorem coveredFrom_take (hpending : pending ≤ text.length)
    (hcut : pattern.overhang pending text cut = 0) :
    (pattern.coveredFrom pending text).take cut = pattern.coveredFrom pending (text.take cut) := by
  induction cut generalizing pending text with
  | zero => rfl
  | succ cut ih =>
    cases text with
    | nil => rfl
    | cons letter text =>
      have hlength : pattern.begun pending (letter :: text) - 1 ≤ text.length :=
        Nat.sub_le_of_le_add (begun_le hpending)
      rw [Pattern.coveredFrom, List.take_succ_cons, List.take_succ_cons, Pattern.coveredFrom,
        begun_take hpending hcut, ih hlength hcut]

/-- The overhang at a later cut counts from an earlier one. -/
theorem overhang_add (pattern : Pattern α) (pending : ℕ) (text : List α) (first second : ℕ)
    (hfirst : first ≤ text.length) :
    pattern.overhang pending text (first + second) =
      pattern.overhang (pattern.overhang pending text first) (text.drop first) second := by
  induction first generalizing pending text with
  | zero => rw [Nat.zero_add]; rfl
  | succ first ih =>
    cases text with
    | nil => cases hfirst
    | cons letter text =>
      rw [Nat.succ_add]
      exact ih _ _ (Nat.le_of_succ_le_succ hfirst)

/-- No match goes beyond the end of a text. -/
theorem overhang_of_length_le (hpending : pending ≤ text.length) (hcut : text.length ≤ cut) :
    pattern.overhang pending text cut = 0 := by
  induction cut generalizing pending text with
  | zero => exact Nat.le_zero.mp (Nat.le_trans hpending hcut)
  | succ cut ih =>
    cases text with
    | nil => rfl
    | cons letter text =>
      exact ih (Nat.sub_le_of_le_add (begun_le hpending)) (Nat.le_of_succ_le_succ hcut)

theorem Pattern.Crosses.lt_length (hcrosses : pattern.Crosses text cut) : cut < text.length := by
  by_contra hless
  exact absurd (overhang_of_length_le (Nat.zero_le _) (Nat.le_of_not_lt hless))
    (Nat.ne_of_gt hcrosses)

instance decidableCrosses (pattern : Pattern α) (text : List α) (cut : ℕ) :
    Decidable (pattern.Crosses text cut) :=
  Nat.decLt 0 (pattern.overhang 0 text cut)

/-- A piece of a text whose edges no match crosses. -/
structure Pattern.Spares (pattern : Pattern α) (text : List α) (start stop : ℕ) : Prop where
  before : ¬pattern.Crosses text start
  behind : ¬pattern.Crosses text stop
  order : start ≤ stop
  inside : stop ≤ text.length

/-- Behind the start of a piece the scan goes on as in the text. -/
theorem Pattern.Spares.overhang_add {start stop : ℕ} (hspares : pattern.Spares text start stop)
    (count : ℕ) : pattern.overhang 0 (text.drop start) count =
      pattern.overhang 0 text (start + count) := by
  rw [DocStore.Foundation.overhang_add pattern 0 text start count
    (Nat.le_trans hspares.order hspares.inside), Nat.eq_zero_of_not_pos hspares.before]

theorem Pattern.Spares.overhang_eq_zero {start stop : ℕ} (hspares : pattern.Spares text start stop) :
    pattern.overhang 0 (text.drop start) (stop - start) = 0 := by
  rw [hspares.overhang_add, Nat.add_sub_cancel' hspares.order]
  exact Nat.eq_zero_of_not_pos hspares.behind

/-- **A piece is masked like the text** from which it is cut out, when no match crosses its edges. -/
theorem covered_slice {start stop : ℕ} (hspares : pattern.Spares text start stop) :
    pattern.covered (slice text start stop) = slice (pattern.covered text) start stop := by
  rw [slice, slice, Pattern.covered, Pattern.covered, coveredFrom_drop,
    Nat.eq_zero_of_not_pos hspares.before,
    coveredFrom_take (Nat.zero_le _) hspares.overhang_eq_zero]

theorem accepts_of_matchLength {letter : α}
    (hletter : letter ∈ text.take (pattern.matchLength text)) : pattern.accepts letter = true := by
  unfold Pattern.matchLength at hletter
  cases hlengths : pattern.lengths text with
  | nil =>
    rw [hlengths] at hletter
    cases hletter
  | cons length lengths =>
    rw [hlengths] at hletter
    have hmem : length ∈ pattern.lengths text := by
      rw [hlengths]
      exact List.mem_cons_self
    exact accepts_of_mem_lengths hmem hletter

theorem accepts_of_coveredFrom
    (hpending : ∀ letter ∈ text.take pending, pattern.accepts letter = true) {position : ℕ}
    (hcovered : (pattern.coveredFrom pending text)[position]? = some true) :
    ∃ letter, text[position]? = some letter ∧ pattern.accepts letter = true := by
  induction text generalizing pending position with
  | nil => cases hcovered
  | cons letter text ih =>
    have hbegun : ∀ other ∈ (letter :: text).take (pattern.begun pending (letter :: text)),
        pattern.accepts other = true := by
      unfold Pattern.begun
      split
      · exact fun other hother ↦ accepts_of_matchLength hother
      · exact hpending
    cases hlength : pattern.begun pending (letter :: text) with
    | zero =>
      rw [Pattern.coveredFrom, hlength] at hcovered
      cases position with
      | zero => cases hcovered
      | succ position => exact ih (by simp) hcovered
    | succ length =>
      rw [hlength, List.take_succ_cons] at hbegun
      rw [Pattern.coveredFrom, hlength] at hcovered
      cases position with
      | zero => exact ⟨letter, rfl, hbegun letter List.mem_cons_self⟩
      | succ position =>
        exact ih (fun other hother ↦ hbegun other (List.mem_cons_of_mem _ hother)) hcovered

/-- What belongs to a match is accepted. -/
theorem accepts_of_covered {position : ℕ}
    (hcovered : (pattern.covered text)[position]? = some true) :
    ∃ letter, text[position]? = some letter ∧ pattern.accepts letter = true :=
  accepts_of_coveredFrom (by simp) hcovered

end Scans

/-! ### Texts that are masked in part -/

section Blots

variable {pattern : Pattern α} {text : List α} {mark : α} {flags : List Bool}

/-- The letters in front of the first masked one. -/
def untouched (flags : List Bool) : ℕ := (flags.takeWhile fun flag ↦ !flag).length

theorem blot_cons (mark : α) (flag : Bool) (flags : List Bool) (letter : α) (text : List α) :
    blot mark (flag :: flags) (letter :: text) =
      (if flag then mark else letter) :: blot mark flags text := rfl

theorem take_blot (mark : α) (flags : List Bool) (text : List α)
    (hlength : flags.length = text.length) :
    (blot mark flags text).take (untouched flags) = text.take (untouched flags) := by
  induction flags generalizing text with
  | nil => rw [List.length_eq_zero_iff.mp hlength.symm]; rfl
  | cons flag flags ih =>
    cases text with
    | nil => cases hlength
    | cons letter text =>
      cases flag with
      | true => rfl
      | false =>
        rw [blot_cons]
        exact congrArg (letter :: ·) (ih text (Nat.succ.inj hlength))

/-- A masked letter stands among the first ones as soon as more than the untouched are taken. -/
theorem mark_mem_take_blot (hlength : flags.length = text.length) {count : ℕ}
    (hcount : untouched flags < count) (hbound : count ≤ text.length) :
    mark ∈ (blot mark flags text).take count := by
  induction flags generalizing text count with
  | nil =>
    rw [← hlength] at hbound
    exact absurd hbound (Nat.not_le_of_lt hcount)
  | cons flag flags ih =>
    cases text with
    | nil => cases hlength
    | cons letter text =>
      cases count with
      | zero => cases hcount
      | succ count =>
        rw [blot_cons, List.take_succ_cons]
        cases flag with
        | true => exact List.mem_cons_self
        | false =>
          exact List.mem_cons_of_mem _ (ih (Nat.succ.inj hlength) (Nat.lt_of_succ_lt_succ hcount)
            (Nat.le_of_succ_le_succ hbound))

/-- A pattern that does not accept the mark matches in front of it only. -/
theorem lengths_blot (hmark : pattern.accepts mark = false)
    (hlength : flags.length = text.length) :
    pattern.lengths (blot mark flags text) =
      (pattern.lengths text).filter fun length ↦ length ≤ untouched flags := by
  rw [← lengths_take, ← take_blot mark flags text hlength, lengths_take, eq_comm,
    List.filter_eq_self]
  intro length hmem
  rw [decide_eq_true_eq]
  by_contra hless
  have hbound : length ≤ text.length := by
    rw [← length_blot hlength]
    exact length_le_of_mem_lengths hmem
  have haccepts := accepts_of_mem_lengths hmem
    (mark_mem_take_blot hlength (Nat.lt_of_not_le hless) hbound)
  rw [hmark] at haccepts
  cases haccepts

theorem matchLength_blot (hmark : pattern.accepts mark = false)
    (hlength : flags.length = text.length) (hmatch : pattern.matchLength text ≤ untouched flags) :
    pattern.matchLength (blot mark flags text) = pattern.matchLength text := by
  have hpart := matchLength_take hmatch
  unfold Pattern.matchLength at hpart ⊢
  rwa [lengths_blot hmark hlength, ← lengths_take]

/-- No match begins at a masked letter. -/
theorem matchLength_mark (hmark : pattern.accepts mark = false) (text : List α) :
    pattern.matchLength (mark :: text) = 0 := by
  unfold Pattern.matchLength
  cases hlengths : pattern.lengths (mark :: text) with
  | nil => rfl
  | cons length lengths =>
    cases length with
    | zero => rfl
    | succ length =>
      have haccepts := accepts_of_mem_lengths (hlengths ▸ List.mem_cons_self)
        (List.mem_cons_self (a := mark) (l := text.take length))
      rw [hmark] at haccepts
      cases haccepts

/-- What is left of a match at a cut inside it. -/
theorem overhang_of_lt (pattern : Pattern α) {pending cut : ℕ} (hcut : cut < pending)
    (hlength : cut ≤ text.length) : pattern.overhang pending text cut = pending - cut := by
  induction cut generalizing pending text with
  | zero => rfl
  | succ cut ih =>
    cases text with
    | nil => cases hlength
    | cons letter text =>
      have hpending : pending ≠ 0 := Nat.ne_of_gt (Nat.lt_of_le_of_lt (Nat.zero_le _) hcut)
      rw [Pattern.overhang, Pattern.begun, if_neg hpending,
        ih (Nat.lt_sub_of_add_lt hcut) (Nat.le_of_succ_le_succ hlength), Nat.sub_sub,
        Nat.add_comm 1]

/-- Positions that are masked alike with the first one, which is not masked, are untouched. -/
theorem le_untouched {bound : ℕ} (hfirst : flags[0]? = some false)
    (halike : ∀ cut, cut + 1 < bound → flags[cut]? = flags[cut + 1]?) : bound ≤ untouched flags := by
  induction flags generalizing bound with
  | nil => cases hfirst
  | cons flag flags ih =>
    obtain rfl : flag = false := Option.some.inj hfirst
    cases bound with
    | zero => exact Nat.zero_le _
    | succ bound =>
      refine Nat.succ_le_succ ?_
      cases bound with
      | zero => exact Nat.zero_le _
      | succ bound =>
        refine ih ((halike 0 (Nat.succ_lt_succ (Nat.succ_pos bound))).symm.trans hfirst)
          fun cut hcut ↦ halike (cut + 1) (Nat.succ_lt_succ hcut)

/-- The scan of a text that is masked in part, where no match crosses an edge of the masked part. -/
theorem coveredFrom_blot (hmark : pattern.accepts mark = false) {pending : ℕ} {previous : Bool}
    (hlength : flags.length = text.length)
    (hpending : 0 < pending → flags = [] ∨ flags[0]? = some previous)
    (halike : ∀ cut, 0 < pattern.overhang pending text (cut + 1) →
      flags[cut]? = flags[cut + 1]?) :
    pattern.coveredFrom (if previous then 0 else pending) (blot mark flags text) =
      flags.zipWith (fun flag covered ↦ covered && !flag) (pattern.coveredFrom pending text) := by
  induction flags generalizing text pending previous with
  | nil => rfl
  | cons flag flags ih =>
    cases text with
    | nil => cases hlength
    | cons letter text =>
      have hrest : pattern.coveredFrom
          (if flag then 0 else pattern.begun pending (letter :: text) - 1) (blot mark flags text) =
            flags.zipWith (fun flag covered ↦ covered && !flag)
              (pattern.coveredFrom (pattern.begun pending (letter :: text) - 1) text) :=
        ih (Nat.succ.inj hlength) (fun hbegun ↦ .inr (halike 0 hbegun).symm)
          fun cut hcut ↦ halike (cut + 1) hcut
      have hprevious : 0 < pending → flag = previous := fun hpositive ↦ by
        rcases hpending hpositive with hnil | hflag
        · cases hnil
        · exact Option.some.inj hflag
      have hbegun : pattern.begun (if previous then 0 else pending)
          (blot mark (flag :: flags) (letter :: text)) =
            if flag then 0 else pattern.begun pending (letter :: text) := by
        cases flag with
        | true =>
          have hzero : (if previous then 0 else pending) = 0 := by
            rcases Nat.eq_zero_or_pos pending with hzero | hpositive
            · rw [hzero, ite_self]
            · rw [← hprevious hpositive]
              rfl
          rw [hzero]
          exact matchLength_mark hmark _
        | false =>
          have hkept : (if previous then 0 else pending) = pending := by
            rcases Nat.eq_zero_or_pos pending with hzero | hpositive
            · rw [hzero, ite_self]
            · rw [← hprevious hpositive]
              rfl
          rw [hkept]
          unfold Pattern.begun
          split
          next hzero =>
            subst hzero
            refine matchLength_blot hmark hlength (le_untouched rfl fun cut hcut ↦ halike cut ?_)
            rw [Pattern.overhang, Pattern.begun, if_pos rfl, overhang_of_lt]
            · omega
            · omega
            · have := matchLength_le pattern (letter :: text)
              rw [List.length_cons] at this
              omega
          next => rfl
      rw [blot_cons] at hbegun ⊢
      rw [Pattern.coveredFrom, hbegun, Pattern.coveredFrom, List.zipWith_cons_cons, ← hrest]
      cases flag with
      | true => simp
      | false => simp

/-- **Masking in parts.** A text that is masked in part is masked elsewhere like the text itself,
when no match crosses an edge of the masked part. -/
theorem covered_blot (hmark : pattern.accepts mark = false) (hlength : flags.length = text.length)
    (halike : ∀ cut, pattern.Crosses text (cut + 1) → flags[cut]? = flags[cut + 1]?) :
    pattern.covered (blot mark flags text) =
      flags.zipWith (fun flag covered ↦ covered && !flag) (pattern.covered text) := by
  change pattern.coveredFrom (if false then 0 else 0) _ = _
  exact coveredFrom_blot hmark hlength (fun hzero ↦ absurd hzero (Nat.lt_irrefl 0)) halike

end Blots

/-! ### Several patterns -/

/-- Masks the matches of some patterns, one pattern behind the other. -/
def maskAll (mark : α) (patterns : List (Pattern α)) (text : List α) : List α :=
  patterns.foldl (fun masked pattern ↦ pattern.mask mark masked) text

/-- Which letters belong to a match of some pattern. -/
def coveredByAny (patterns : List (Pattern α)) (text : List α) : List Bool :=
  (List.range text.length).map fun position ↦
    patterns.any fun pattern ↦ (pattern.covered text).getD position false

/-- A match of a pattern crosses no edge of what the patterns in front of it cover. -/
def MasksInTurn (patterns : List (Pattern α)) (text : List α) : Prop :=
  ∀ earlier pattern later, patterns = earlier ++ pattern :: later →
    ∀ cut, pattern.Crosses text (cut + 1) →
      (coveredByAny earlier text)[cut]? = (coveredByAny earlier text)[cut + 1]?

/-- It is enough to look at the cuts in the text. -/
theorem masksInTurn_iff {patterns : List (Pattern α)} {text : List α} :
    MasksInTurn patterns text ↔ ∀ index : Fin patterns.length, ∀ cut < text.length,
      (patterns.get index).Crosses text (cut + 1) →
        (coveredByAny (patterns.take index) text)[cut]? =
          (coveredByAny (patterns.take index) text)[cut + 1]? := by
  constructor
  · intro hturn index cut _ hcrosses
    refine hturn (patterns.take index) (patterns.get index) (patterns.drop (index + 1)) ?_ cut
      hcrosses
    rw [List.get_eq_getElem, ← List.drop_eq_getElem_cons, List.take_append_drop]
  · rintro hturn earlier pattern later rfl cut hcrosses
    have hindex : earlier.length < (earlier ++ pattern :: later).length := by
      rw [List.length_append, List.length_cons]
      omega
    have hcut := hcrosses.lt_length
    have halike := hturn ⟨earlier.length, hindex⟩ cut (Nat.lt_of_succ_lt hcut)
    rw [List.get_eq_getElem, List.getElem_append_right (Nat.le_refl _)] at halike
    simp only [Nat.sub_self, List.getElem_cons_zero, List.take_left] at halike
    exact halike hcrosses

instance decidableMasksInTurn (patterns : List (Pattern α)) (text : List α) :
    Decidable (MasksInTurn patterns text) :=
  decidable_of_iff _ masksInTurn_iff.symm

section Several

variable {patterns : List (Pattern α)} {text : List α} {mark : α}

@[simp] theorem length_maskAll (mark : α) (patterns : List (Pattern α)) (text : List α) :
    (maskAll mark patterns text).length = text.length := by
  induction patterns generalizing text with
  | nil => rfl
  | cons pattern patterns ih => exact (ih _).trans (length_mask pattern mark text)

@[simp] theorem length_coveredByAny (patterns : List (Pattern α)) (text : List α) :
    (coveredByAny patterns text).length = text.length := by
  rw [coveredByAny, List.length_map, List.length_range]

theorem getElem?_coveredByAny {position : ℕ} (hposition : position < text.length) :
    (coveredByAny patterns text)[position]? =
      some (patterns.any fun pattern ↦ (pattern.covered text).getD position false) := by
  rw [coveredByAny, List.getElem?_map, List.getElem?_range hposition, Option.map_some]

/-- One pattern more covers what it covers and what the others do. -/
theorem coveredByAny_concat (patterns : List (Pattern α)) (pattern : Pattern α) (text : List α) :
    coveredByAny (patterns ++ [pattern]) text =
      (coveredByAny patterns text).zipWith (fun first second ↦ first || second)
        (pattern.covered text) := by
  refine List.ext_getElem? fun position ↦ ?_
  rw [List.getElem?_zipWith]
  by_cases hposition : position < text.length
  · have hcovered : position < (pattern.covered text).length := by rwa [length_covered]
    rw [getElem?_coveredByAny hposition, getElem?_coveredByAny hposition,
      List.getElem?_eq_getElem hcovered, List.any_append]
    simp [List.getElem?_eq_getElem hcovered]
  · have hless := Nat.le_of_not_lt hposition
    rw [List.getElem?_eq_none (by rwa [length_coveredByAny]),
      List.getElem?_eq_none (by rwa [length_coveredByAny])]

theorem blot_blot (mark : α) (first second : List Bool) (text : List α)
    (hfirst : first.length = text.length) (hsecond : second.length = text.length) :
    blot mark (first.zipWith (fun flag covered ↦ covered && !flag) second) (blot mark first text) =
      blot mark (first.zipWith (fun flag covered ↦ flag || covered) second) text := by
  induction text generalizing first second with
  | nil => rw [List.length_eq_zero_iff.mp hfirst]; rfl
  | cons letter text ih =>
    cases first with
    | nil => cases hfirst
    | cons flag first =>
      cases second with
      | nil => cases hsecond
      | cons covered second =>
        have hrest := ih first second (Nat.succ.inj hfirst) (Nat.succ.inj hsecond)
        simp only [List.zipWith_cons_cons, blot_cons, hrest, List.cons.injEq, and_true]
        cases flag <;> cases covered <;> rfl

/-- **Patterns in turn mask what each of them covers.** -/
theorem maskAll_eq_blot (hmark : ∀ pattern ∈ patterns, pattern.accepts mark = false)
    (hturn : MasksInTurn patterns text) :
    maskAll mark patterns text = blot mark (coveredByAny patterns text) text := by
  induction patterns using List.reverseRecOn with
  | nil =>
    rw [maskAll, List.foldl_nil]
    refine List.ext_getElem? fun position ↦ ?_
    rw [blot, List.getElem?_zipWith]
    by_cases hposition : position < text.length
    · rw [getElem?_coveredByAny hposition, List.getElem?_eq_getElem hposition]
      rfl
    · have hless := Nat.le_of_not_lt hposition
      rw [List.getElem?_eq_none hless, List.getElem?_eq_none (by rwa [length_coveredByAny])]
  | append_singleton patterns pattern ih =>
    have hearlier : MasksInTurn patterns text := fun earlier other later hpatterns ↦
      hturn earlier other (later ++ [pattern]) (by rw [hpatterns, List.append_assoc]; rfl)
    have hmasked := ih (fun other hother ↦ hmark other (List.mem_append_left _ hother)) hearlier
    have hlength : (coveredByAny patterns text).length = text.length :=
      length_coveredByAny patterns text
    have hlast : maskAll mark (patterns ++ [pattern]) text =
        pattern.mask mark (maskAll mark patterns text) := List.foldl_concat ..
    rw [hlast, hmasked, Pattern.mask, covered_blot (hmark pattern (List.mem_append_right _ List.mem_cons_self)) hlength
        (hturn patterns pattern [] rfl),
      blot_blot mark _ _ text hlength (length_covered pattern text), coveredByAny_concat]

/-- What becomes of a letter. -/
theorem getElem?_maskAll (hmark : ∀ pattern ∈ patterns, pattern.accepts mark = false)
    (hturn : MasksInTurn patterns text) {position : ℕ} (hposition : position < text.length) :
    (maskAll mark patterns text)[position]? =
      if ∃ pattern ∈ patterns, (pattern.covered text)[position]? = some true then some mark
      else text[position]? := by
  have hany : (patterns.any fun pattern ↦ (pattern.covered text).getD position false) = true ↔
      ∃ pattern ∈ patterns, (pattern.covered text)[position]? = some true := by
    rw [List.any_eq_true]
    refine exists_congr fun pattern ↦ and_congr_right fun _ ↦ ?_
    have hcovered : position < (pattern.covered text).length := by rwa [length_covered]
    rw [List.getD_eq_getElem?_getD, List.getElem?_eq_getElem hcovered, Option.getD_some,
      Option.some.injEq]
  rw [maskAll_eq_blot hmark hturn, blot, List.getElem?_zipWith, getElem?_coveredByAny hposition,
    List.getElem?_eq_getElem hposition]
  by_cases hcovered : ∃ pattern ∈ patterns, (pattern.covered text)[position]? = some true
  · rw [if_pos hcovered, hany.mpr hcovered]
    rfl
  · rw [if_neg hcovered, Bool.eq_false_iff.mpr (mt hany.mp hcovered)]
    rfl

/-- A letter that belongs to a match becomes the mark exactly when it belongs to one of the patterns
in turn. -/
theorem getElem?_maskAll_eq_mark_iff (hmark : ∀ pattern ∈ patterns, pattern.accepts mark = false)
    (hturn : MasksInTurn patterns text) {position : ℕ} (hposition : position < text.length)
    (hletter : text[position]? ≠ some mark) :
    (maskAll mark patterns text)[position]? = some mark ↔
      ∃ pattern ∈ patterns, (pattern.covered text)[position]? = some true := by
  rw [getElem?_maskAll hmark hturn hposition]
  split
  next hcovered => exact iff_of_true rfl hcovered
  next hcovered => exact iff_of_false hletter hcovered

end Several

/-! ### What masking leaves -/

/-- A pattern matches somewhere in a text: `pattern.search(text)` finds something. -/
def Pattern.FoundIn (pattern : Pattern α) (text : List α) : Prop :=
  ∃ position, pattern.lengths (text.drop position) ≠ []

/-- How many letters a match has at least. -/
def Pattern.leastLength : Pattern α → ℕ
  | .one _ => 1
  | .atLeast count _ => count
  | .optional _ => 0
  | .seq first second => first.leastLength + second.leastLength

section Remains

variable {pattern : Pattern α} {patterns : List (Pattern α)} {text : List α} {mark : α}
  {flags : List Bool}

theorem leastLength_le {length : ℕ} (hlength : length ∈ pattern.lengths text) :
    pattern.leastLength ≤ length := by
  induction pattern generalizing text length with
  | one accepts =>
    by_cases haccepts : text.head?.any accepts = true
    · rw [Pattern.lengths, if_pos haccepts, List.mem_singleton] at hlength
      exact Nat.le_of_eq hlength.symm
    · rw [Pattern.lengths, if_neg haccepts] at hlength
      cases hlength
  | atLeast count accepts => exact of_decide_eq_true (List.mem_filter.mp hlength).2
  | optional part => exact Nat.zero_le length
  | seq first second hfirst hsecond =>
    obtain ⟨middle, hmiddle, hlater⟩ := List.mem_flatMap.mp hlength
    obtain ⟨rest, hrest, rfl⟩ := List.mem_map.mp hlater
    exact Nat.add_le_add (hfirst hmiddle) (hsecond hrest)

/-- A pattern without empty matches that matches nothing matches in no length. -/
theorem lengths_eq_nil_of_matchLength (hleast : 0 < pattern.leastLength)
    (hmatch : pattern.matchLength text = 0) : pattern.lengths text = [] := by
  cases hlengths : pattern.lengths text with
  | nil => rfl
  | cons length lengths =>
    have hlength : pattern.leastLength ≤ length := leastLength_le (hlengths ▸ List.mem_cons_self)
    rw [Pattern.matchLength, hlengths] at hmatch
    have hzero : length = 0 := hmatch
    omega

theorem drop_blot (mark : α) (flags : List Bool) (text : List α) (position : ℕ) :
    (blot mark flags text).drop position = blot mark (flags.drop position) (text.drop position) :=
  List.drop_zipWith

/-- What masking leaves of a text has no match that the text does not have. -/
theorem foundIn_of_foundIn_blot (hmark : pattern.accepts mark = false)
    (hlength : flags.length = text.length) (hfound : pattern.FoundIn (blot mark flags text)) :
    pattern.FoundIn text := by
  obtain ⟨position, hposition⟩ := hfound
  refine ⟨position, fun hnone ↦ hposition ?_⟩
  have hdropped : (flags.drop position).length = (text.drop position).length := by
    rw [List.length_drop, List.length_drop, hlength]
  rw [drop_blot, lengths_blot hmark hdropped, hnone, List.filter_nil]

/-- Behind the beginning of a match, no match is left where the matches are masked. -/
theorem lengths_drop_blot_coveredFrom (hmark : pattern.accepts mark = false)
    (hleast : 0 < pattern.leastLength) (pending : ℕ) (text : List α) (position : ℕ) :
    pattern.lengths ((blot mark (pattern.coveredFrom pending text) text).drop position) = [] := by
  induction text generalizing pending position with
  | nil =>
    refine lengths_eq_nil_of_matchLength hleast (Nat.le_zero.mp ?_)
    have hbound := matchLength_le pattern
      ((blot mark (pattern.coveredFrom pending []) []).drop position)
    simpa [blot] using hbound
  | cons letter text ih =>
    cases position with
    | succ position =>
      rw [Pattern.coveredFrom, blot_cons, List.drop_succ_cons]
      exact ih _ position
    | zero =>
      rw [List.drop_zero]
      by_cases hbegun : pattern.begun pending (letter :: text) = 0
      · have hmatch : pattern.matchLength (letter :: text) = 0 := by
          unfold Pattern.begun at hbegun
          split at hbegun
          next => exact hbegun
          next hpending => exact absurd hbegun hpending
        rw [lengths_blot hmark (length_coveredFrom pattern pending _),
          lengths_eq_nil_of_matchLength hleast hmatch, List.filter_nil]
      · rw [Pattern.coveredFrom, decide_eq_true (Nat.pos_of_ne_zero hbegun), blot_cons, if_pos rfl]
        exact lengths_eq_nil_of_matchLength hleast (matchLength_mark hmark _)

/-- No match of a pattern is left when it has been masked. -/
theorem not_foundIn_mask (hmark : pattern.accepts mark = false) (hleast : 0 < pattern.leastLength)
    (text : List α) : ¬pattern.FoundIn (pattern.mask mark text) := by
  rintro ⟨position, hposition⟩
  exact hposition (lengths_drop_blot_coveredFrom hmark hleast 0 text position)

/-- A pattern that matches nowhere covers nothing. -/
theorem mask_eq_self (hnone : ¬pattern.FoundIn text) : pattern.mask mark text = text := by
  unfold Pattern.mask Pattern.covered
  induction text with
  | nil => rfl
  | cons letter text ih =>
    have hhere : pattern.lengths (letter :: text) = [] := by
      by_contra hlengths
      exact hnone ⟨0, hlengths⟩
    have hlater : ¬pattern.FoundIn text := by
      rintro ⟨position, hposition⟩
      exact hnone ⟨position + 1, hposition⟩
    have hbegun : pattern.begun 0 (letter :: text) = 0 := by
      rw [Pattern.begun, if_pos rfl, Pattern.matchLength, hhere]
      rfl
    rw [Pattern.coveredFrom, hbegun, blot_cons]
    exact congrArg (letter :: ·) (ih hlater)

/-- Masking changes a letter to the mark only. -/
theorem getElem?_mask_or (pattern : Pattern α) (mark : α) (text : List α) (position : ℕ) :
    (pattern.mask mark text)[position]? = text[position]? ∨
      (pattern.mask mark text)[position]? = some mark := by
  rw [Pattern.mask, blot, List.getElem?_zipWith]
  by_cases hposition : position < text.length
  · have hcovered : position < (pattern.covered text).length := by rwa [length_covered]
    rw [List.getElem?_eq_getElem hcovered, List.getElem?_eq_getElem hposition]
    cases (pattern.covered text)[position] with
    | true => exact .inr rfl
    | false => exact .inl rfl
  · rw [List.getElem?_eq_none (Nat.le_of_not_lt hposition)]
    left
    split <;> simp_all

theorem getElem?_maskAll_or (mark : α) (patterns : List (Pattern α)) (text : List α)
    (position : ℕ) :
    (maskAll mark patterns text)[position]? = text[position]? ∨
      (maskAll mark patterns text)[position]? = some mark := by
  induction patterns generalizing text with
  | nil => exact .inl rfl
  | cons pattern patterns ih =>
    rcases ih (pattern.mask mark text) with hkept | hmasked
    · rcases getElem?_mask_or pattern mark text position with hletter | hmark
      · exact .inl (hkept.trans hletter)
      · exact .inr (hkept.trans hmark)
    · exact .inr hmasked

/-- **Nothing is found again.** What one pattern masks gives no later one a match, and takes none
from an earlier one that had been masked. -/
theorem not_foundIn_maskAll (hmark : ∀ pattern ∈ patterns, pattern.accepts mark = false)
    (hleast : ∀ pattern ∈ patterns, 0 < pattern.leastLength) (text : List α) :
    ∀ pattern ∈ patterns, ¬pattern.FoundIn (maskAll mark patterns text) := by
  induction patterns using List.reverseRecOn with
  | nil =>
    intro pattern hpattern
    cases hpattern
  | append_singleton patterns last ih =>
    have hlast : maskAll mark (patterns ++ [last]) text =
        last.mask mark (maskAll mark patterns text) := List.foldl_concat ..
    intro pattern hpattern
    rw [hlast]
    rcases List.mem_append.mp hpattern with hearlier | hsame
    · intro hfound
      exact ih (fun other hother ↦ hmark other (List.mem_append_left _ hother))
        (fun other hother ↦ hleast other (List.mem_append_left _ hother)) pattern hearlier
        (foundIn_of_foundIn_blot (hmark pattern hpattern) (length_covered _ _) hfound)
    · obtain rfl := List.mem_singleton.mp hsame
      exact not_foundIn_mask (hmark pattern hpattern) (hleast pattern hpattern) _

theorem maskAll_eq_self (hnone : ∀ pattern ∈ patterns, ¬pattern.FoundIn text) :
    maskAll mark patterns text = text := by
  induction patterns with
  | nil => rfl
  | cons pattern patterns ih =>
    obtain ⟨hfirst, hothers⟩ := List.forall_mem_cons.mp hnone
    calc maskAll mark (pattern :: patterns) text
        = maskAll mark patterns (pattern.mask mark text) := rfl
      _ = maskAll mark patterns text := by rw [mask_eq_self hfirst]
      _ = text := ih hothers

end Remains

end DocStore.Foundation
