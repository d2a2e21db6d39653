/-
# PageLint.Proofs.Text.Extent — extents and trimmed texts stay within the text

A piece that is measured by a run of characters, by its closing mark or by what stops it
is never longer than the text, and holds at least what is asked of its first character.
Where it is followed by what ends it, it is measured exactly.
What is left of a text that is trimmed or stripped at its end is a prefix of it.
-/
import Mathlib
import PageLint.Text.Extent

namespace PageLint.Text

set_option autoImplicit false

variable {p : Char → Bool} {c : Char} {cs close part rest : List Char} {stop : List Char → Bool}

theorem drop_length_takeWhile {α : Type} (p : α → Bool) (xs : List α) :
    xs.drop (xs.takeWhile p).length = xs.dropWhile p :=
  calc xs.drop (xs.takeWhile p).length
      = (xs.takeWhile p ++ xs.dropWhile p).drop (xs.takeWhile p).length := by
        rw [List.takeWhile_append_dropWhile]
    _ = xs.dropWhile p := List.drop_left

theorem extentWhile_le (p : Char → Bool) (cs : List Char) : extentWhile p cs ≤ cs.length :=
  (List.takeWhile_sublist p).length_le

@[simp] theorem extentWhile_nil (p : Char → Bool) : extentWhile p [] = 0 := rfl

theorem extentWhile_cons (holds : p c) : extentWhile p (c :: cs) = extentWhile p cs + 1 := by
  simp [extentWhile, holds]

theorem extentThrough_le (close cs : List Char) : extentThrough close cs ≤ cs.length := by
  induction cs with
  | nil => exact le_rfl
  | cons c cs ih =>
      rw [extentThrough]
      split
      next closes => exact (List.isPrefixOf_iff_prefix.mp closes).length_le
      next => rw [List.length_cons]; omega

theorem extentThrough_pos (some_ : close ≠ []) : 0 < extentThrough close (c :: cs) := by
  rw [extentThrough]
  split
  · exact List.length_pos_of_ne_nil some_
  · omega

theorem extentUntil_le (stop : List Char → Bool) (cs : List Char) :
    extentUntil stop cs ≤ cs.length := by
  induction cs with
  | nil => exact le_rfl
  | cons c cs ih =>
      rw [extentUntil]
      split
      · exact Nat.zero_le _
      · rw [List.length_cons]; omega

/-- A text up to its first `c`, and on from there. -/
theorem eq_takeWhile_append (inside : c ∈ cs) : ∃ after, cs = cs.takeWhile (· != c) ++ c :: after := by
  induction cs with
  | nil => simp at inside
  | cons d cs ih =>
      by_cases same : d = c
      · exact ⟨cs, by simp [same]⟩
      · rcases List.mem_cons.mp inside with rfl | later
        · exact absurd rfl same
        · obtain ⟨after, parted⟩ := ih later
          refine ⟨after, ?_⟩
          rw [List.takeWhile_cons_of_pos (by simpa using same), List.cons_append, ← parted]

/-! ## Where a piece ends

What is put together is taken apart at the same place, whatever follows: a run up to what is
not in it, a delimited piece up to its first closing mark. -/

/-- A run ends where something comes that is not in it. -/
theorem takeWhile_append_stop {α : Type} {p : α → Bool} {part rest : List α}
    (inside : ∀ c ∈ part, p c) (stop : ∀ c ∈ rest.head?, p c = false) :
    (part ++ rest).takeWhile p = part := by
  rw [List.takeWhile_append_of_pos inside]
  cases rest with
  | nil => simp
  | cons c rest => simp [stop c rfl]

/-- A run ends where it first stops. -/
theorem extentUntil_append
    (goes : ∀ back, back <:+ part → back ≠ [] → stop (back ++ rest) = false)
    (stops : rest = [] ∨ stop rest) : extentUntil stop (part ++ rest) = part.length := by
  induction part with
  | nil =>
      cases rest with
      | nil => rfl
      | cons c rest =>
          have here : stop (c :: rest) := stops.resolve_left (List.cons_ne_nil c rest)
          simp [extentUntil, here]
  | cons c part ih =>
      have first := goes (c :: part) (List.suffix_refl _) (List.cons_ne_nil c part)
      rw [List.cons_append] at first
      have later := ih fun back ends some_ => goes back (ends.trans (List.suffix_cons c part)) some_
      simp [extentUntil, first, later]

/-- A delimited piece ends with its first closing mark. -/
theorem extentThrough_append (close : List Char) (some_ : close ≠ [])
    (goes : ∀ back, back <:+ part → back ≠ [] → ¬ close <+: back ++ (close ++ rest)) :
    extentThrough close (part ++ (close ++ rest)) = part.length + close.length := by
  induction part with
  | nil =>
      cases close with
      | nil => exact absurd rfl some_
      | cons c close =>
          have here : (c :: close).isPrefixOf (c :: close ++ rest) :=
            List.isPrefixOf_iff_prefix.mpr (List.prefix_append _ _)
          rw [List.cons_append] at here
          simp [extentThrough, here]
  | cons c part ih =>
      have first := goes (c :: part) (List.suffix_refl _) (List.cons_ne_nil c part)
      have later := ih fun back ends some_ => goes back (ends.trans (List.suffix_cons c part)) some_
      rw [← List.isPrefixOf_iff_prefix, Bool.not_eq_true] at first
      rw [List.cons_append] at first ⊢
      rw [extentThrough, first, if_neg Bool.false_ne_true, later, List.length_cons]
      omega

/-- A quoted run ends with the next quote. -/
theorem extentThrough_quote {q : Char} (plain : q ∉ part) (rest : List Char) :
    extentThrough [q] (part ++ q :: rest) = part.length + 1 := by
  refine extentThrough_append [q] (List.cons_ne_nil q []) ?_
  intro back ends some_ leads
  cases back with
  | nil => exact some_ rfl
  | cons c back =>
      have same : q = c := (List.cons_prefix_cons.mp leads).1
      exact plain (same ▸ ends.subset List.mem_cons_self)

theorem extentWhile_append_stop (inside : ∀ c ∈ part, p c)
    (stops : ∀ c ∈ rest.head?, p c = false) : extentWhile p (part ++ rest) = part.length := by
  rw [extentWhile, takeWhile_append_stop inside stops]

/-- A sign whose first character comes in it once cannot begin inside a text that does not hold
it, even where the same sign follows the text. -/
theorem sign_goes {sign back more : List Char} (once : c ∉ sign) (open_ : ¬ c :: sign <:+: back)
    (some_ : back ≠ []) : ¬ c :: sign <+: back ++ (c :: sign ++ more) := by
  intro leads
  by_cases short : (c :: sign).length ≤ back.length
  · exact open_ (List.prefix_of_prefix_length_le leads (List.prefix_append _ _) short).isInfix
  · obtain ⟨extra, whole⟩ := List.prefix_of_prefix_length_le (List.prefix_append back _) leads
      (Nat.le_of_not_le short)
    cases back with
    | nil => exact some_ rfl
    | cons d back =>
        have later : sign = back ++ extra := (List.cons.inj whole).2.symm
        rw [← whole, List.prefix_append_right_inj] at leads
        cases extra with
        | nil => simp [← whole] at short
        | cons e extra =>
            have same : e = d := (List.cons_prefix_cons.mp leads).1
            have first : d = c := (List.cons.inj whole).1
            rw [later, same, first] at once
            exact once (by simp)

theorem extentUntil_stop (stop : List Char → Bool) (cs : List Char) :
    cs.drop (extentUntil stop cs) = [] ∨ stop (cs.drop (extentUntil stop cs)) := by
  induction cs with
  | nil => exact .inl rfl
  | cons c cs ih =>
      rw [extentUntil]
      split
      next stops => exact .inr stops
      next => exact ih

/-! ## Letters -/

theorem eq_of_toLower_eq {c d : Char} (same : d.toLower = c) (sign : c.isAlpha = false) : d = c := by
  have plain : d.isAlpha = false := by
    rw [← Char.isAlpha_toLower_eq_isAlpha, same, sign]
  have small : ¬ d.isUpper := by
    intro upper
    simp [Char.isAlpha, upper] at plain
  rw [← same, Char.toLower_eq_of_not_isUpper small]

theorem not_isBlank_of_isAlpha {c : Char} (letter : c.isAlpha) : isBlank c = false := by
  rw [Char.isAlpha, Bool.or_eq_true] at letter
  by_contra blank
  rw [Bool.not_eq_false] at blank
  simp only [isBlank, Bool.or_eq_true, Bool.and_eq_true, decide_eq_true_eq, beq_iff_eq] at blank
  simp only [Char.isUpper, Char.isLower, Bool.and_eq_true, decide_eq_true_eq] at letter
  simp only [Char.ext_iff, Char.le_def, UInt32.le_iff_toNat_le, ← UInt32.toNat_inj,
    UInt32.reduceToNat, Char.reduceVal] at blank letter
  omega

theorem not_isDigit_of_isAlpha {c : Char} (letter : c.isAlpha) : c.isDigit = false := by
  rw [Char.isAlpha, Bool.or_eq_true] at letter
  by_contra digit
  rw [Bool.not_eq_false] at digit
  simp only [Char.isDigit, Char.isUpper, Char.isLower, Bool.and_eq_true, decide_eq_true_eq] at digit letter
  simp only [UInt32.le_iff_toNat_le, UInt32.reduceToNat, Char.reduceVal] at digit letter
  omega

theorem isQuote_iff : isQuote c ↔ c = '"' ∨ c = '\'' := by
  rw [isQuote, Bool.or_eq_true, beq_iff_eq, beq_iff_eq]

/-! ## Trimmed texts -/

theorem trimStart_suffix (cs : List Char) : trimStart cs <:+ cs := List.dropWhile_suffix _

/-- What is left begins with no white space. -/
theorem head_trimStart (cs : List Char) : ∀ c ∈ (trimStart cs).head?, isBlank c = false := by
  intro c first
  have stops := List.head?_dropWhile_not isBlank cs
  rw [show cs.dropWhile isBlank = trimStart cs from rfl, Option.mem_def.mp first] at stops
  exact stops

theorem trimStart_blanks (blank : ∀ c ∈ part, isBlank c) (cs : List Char) :
    trimStart (part ++ cs) = trimStart cs :=
  List.dropWhile_append_of_pos blank

theorem trimEndBy_leads (p : Char → Bool) (cs : List Char) : trimEndBy p cs <+: cs := by
  induction cs with
  | nil => exact List.prefix_rfl
  | cons c cs ih =>
      rw [trimEndBy]
      split
      · split
        · exact List.nil_prefix
        · exact ⟨cs, rfl⟩
      · exact List.cons_prefix_cons.mpr ⟨rfl, ih⟩

theorem trimEndBy_append {kept ending : List Char} (plain : ∀ c ∈ kept, p c = false)
    (trimmed : ∀ c ∈ ending, p c) : trimEndBy p (kept ++ ending) = kept := by
  induction kept with
  | nil =>
      induction ending with
      | nil => rfl
      | cons c ending ih =>
          rw [List.forall_mem_cons] at trimmed
          rw [List.nil_append] at ih ⊢
          rw [trimEndBy, ih trimmed.2]
          simp [trimmed.1]
  | cons c kept ih =>
      rw [List.forall_mem_cons] at plain
      rw [List.cons_append, trimEndBy, ih plain.2]
      cases kept with
      | nil => simp [plain.1]
      | cons d kept => rfl

/-- What is trimmed off the end of a text is a part of it that may be. -/
theorem trimEndBy_spec (p : Char → Bool) (cs : List Char) :
    ∃ back, cs = trimEndBy p cs ++ back ∧ ∀ c ∈ back, p c := by
  induction cs with
  | nil => exact ⟨[], rfl, by simp⟩
  | cons c cs ih =>
      obtain ⟨back, whole, trimmed⟩ := ih
      cases left : trimEndBy p cs with
      | nil =>
          rw [left, List.nil_append] at whole
          by_cases own : p c
          · have nothing : trimEndBy p (c :: cs) = [] := by simp [trimEndBy, left, own]
            rw [nothing]
            exact ⟨c :: cs, rfl, List.forall_mem_cons.mpr ⟨own, whole ▸ trimmed⟩⟩
          · have alone : trimEndBy p (c :: cs) = [c] := by simp [trimEndBy, left, own]
            rw [alone]
            exact ⟨cs, rfl, whole ▸ trimmed⟩
      | cons d more =>
          have longer : trimEndBy p (c :: cs) = c :: d :: more := by simp [trimEndBy, left]
          rw [longer]
          rw [left] at whole
          exact ⟨back, by rw [List.cons_append, ← whole], trimmed⟩

/-- A text that does not end in what is trimmed stays. -/
theorem trimEndBy_eq_self {cs : List Char} (stays : ∀ c ∈ cs.getLast?, p c = false) :
    trimEndBy p cs = cs := by
  obtain ⟨back, whole, trimmed⟩ := trimEndBy_spec p cs
  rcases List.eq_nil_or_concat back with rfl | ⟨init, c, rfl⟩
  · rw [List.append_nil] at whole
    exact whole.symm
  · have ends : cs.getLast? = some c := by
      rw [whole]
      simp
    have goes := trimmed c (by simp)
    rw [stays c ends] at goes
    cases goes

/-- More of what is trimmed makes no difference. -/
theorem trimEndBy_append_of_all {ending : List Char} (trimmed : ∀ c ∈ ending, p c) (cs : List Char) :
    trimEndBy p (cs ++ ending) = trimEndBy p cs := by
  induction cs with
  | nil => exact trimEndBy_append (by simp) trimmed
  | cons c cs ih => rw [List.cons_append, trimEndBy, trimEndBy, ih]

/-- A text without white space is what is left of it between two others just if the second one is
white space, as the first one is. -/
theorem trim_between {lead kept ending : List Char} (some_ : kept ≠ [])
    (solid : ∀ c ∈ kept, isBlank c = false) (blank : ∀ c ∈ lead, isBlank c) :
    trim (lead ++ (kept ++ ending)) = kept ↔ ∀ c ∈ ending, isBlank c := by
  obtain ⟨d, more, rfl⟩ := List.exists_cons_of_ne_nil some_
  have first : isBlank d = false := solid d List.mem_cons_self
  have start : trimStart (lead ++ (d :: more ++ ending)) = d :: more ++ ending := by
    rw [trimStart_blanks blank]
    simp [trimStart, trimStartBy, first]
  rw [trim, start, trimEnd]
  refine ⟨fun same => ?_, trimEndBy_append solid⟩
  obtain ⟨back, whole, trimmed⟩ := trimEndBy_spec isBlank (d :: more ++ ending)
  rw [same] at whole
  rwa [List.append_cancel_left whole]

theorem stripTail_eq_some_iff {ending kept : List Char} :
    stripTail ending cs = some kept ↔ cs = kept ++ ending := by
  rw [stripTail]
  constructor
  · intro strip
    split at strip
    next ends =>
      obtain ⟨front, rfl⟩ := List.isSuffixOf_iff_suffix.mp ends
      rw [← Option.some.inj strip, List.length_append, Nat.add_sub_cancel, List.take_left]
    next => cases strip
  · rintro rfl
    rw [if_pos (List.isSuffixOf_iff_suffix.mpr (List.suffix_append _ _)), List.length_append,
      Nat.add_sub_cancel, List.take_left]

theorem stripTail_leads {ending kept : List Char} (strip : stripTail ending cs = some kept) :
    kept <+: cs := by
  rw [stripTail] at strip
  split at strip
  · rw [← Option.some.inj strip]
    exact List.take_prefix _ _
  · simp at strip

theorem getD_stripTail_leads (ending cs : List Char) : (stripTail ending cs).getD cs <+: cs := by
  cases strip : stripTail ending cs with
  | none => exact List.prefix_rfl
  | some kept => exact stripTail_leads strip

end PageLint.Text
