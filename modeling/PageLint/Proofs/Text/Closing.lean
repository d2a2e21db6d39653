/-
# PageLint.Proofs.Text.Closing — what is read up to a closing mark

A lexer that has read the opening of a comment, an address or a quoted value goes on to the first closing
mark, or to the end of the input for want of one. What it has read then is `Closed`, or it `RunsOut`, and
never both (`RunsOut.not_closed`).

Which of the two it was is not kept, but it can be told from the text: by what the text ends with, if the
ending cannot reach into the opening (`closed_iff_of_apart`), and otherwise by its length as well
(`closed_iff_of_length`).
-/
import PageLint.Proofs.Text.Extent

namespace PageLint.Text

set_option autoImplicit false

variable {opening closing text part rest cs : List Char}

/-- The text is an opening and all that follows it up to the first closing mark. -/
def Closed (opening closing text : List Char) : Prop :=
  ∃ body, text = opening ++ (body ++ closing) ∧ ¬ closing <:+: body ++ closing.dropLast

/-- The text is an opening and all that follows it, in which no closing mark stands: the input is at its
end, for `rest` is what is left of it. -/
def RunsOut (opening closing text rest : List Char) : Prop :=
  rest = [] ∧ ∃ body, text = opening ++ body ∧ ¬ closing <:+: body

/-- No text that runs out is closed. -/
theorem RunsOut.not_closed (runsOut : RunsOut opening closing text rest) :
    ¬ Closed opening closing text := by
  rintro ⟨body, whole, -⟩
  obtain ⟨-, body', whole', open_⟩ := runsOut
  have same : body' = body ++ closing := List.append_cancel_left (whole'.symm.trans whole)
  exact open_ (same ▸ (List.suffix_append body closing).isInfix)

/-! ## How far the lexers read -/

/-- **Up to the first closing mark, or to the end.** -/
theorem closes_or_ends (mark : closing ≠ [])
    (whole : extentThrough closing (part ++ rest) = part.length) :
    (∃ body, part = body ++ closing ∧ ¬ closing <:+: body ++ closing.dropLast) ∨
      rest = [] ∧ ¬ closing <:+: part := by
  induction part with
  | nil =>
      right
      refine ⟨?_, fun inside => mark (List.eq_nil_of_infix_nil inside)⟩
      cases rest with
      | nil => rfl
      | cons c rest =>
          have positive : 0 < extentThrough closing (c :: rest) := extentThrough_pos mark
          rw [List.nil_append, List.length_nil] at whole
          omega
  | cons c part ih =>
      rw [List.cons_append, extentThrough] at whole
      split at whole
      next leads =>
        -- The closing mark comes first, and is all of the part.
        have own : closing <+: c :: part :=
          List.prefix_of_prefix_length_le (List.isPrefixOf_iff_prefix.mp leads)
            (List.prefix_append (c :: part) rest) whole.le
        refine .inl ⟨[], (own.eq_of_length whole).symm, fun inside => ?_⟩
        have length := inside.length_le
        have positive := List.length_pos_of_ne_nil mark
        rw [List.nil_append, List.length_dropLast] at length
        omega
      next later =>
        rw [List.length_cons, Nat.add_right_cancel_iff] at whole
        have notFirst : ¬ closing <+: c :: (part ++ rest) := fun leads =>
          later (List.isPrefixOf_iff_prefix.mpr leads)
        rcases ih whole with ⟨body, rfl, first⟩ | ⟨ended, open_⟩
        · refine .inl ⟨c :: body, rfl, fun inside => ?_⟩
          rcases List.infix_cons_iff.mp inside with leads | within
          · refine notFirst (leads.trans ?_)
            have shorter : body ++ closing.dropLast <+: body ++ closing ++ rest :=
              ((List.prefix_append_right_inj body).mpr (List.dropLast_prefix closing)).trans
                (List.prefix_append _ _)
            exact List.cons_prefix_cons.mpr ⟨rfl, shorter⟩
          · exact first within
        · refine .inr ⟨ended, fun inside => ?_⟩
          rcases List.infix_cons_iff.mp inside with leads | within
          · refine notFirst (leads.trans ?_)
            rw [ended, List.append_nil]
          · exact open_ within

/-- What goes through a closing mark to its end, and no further though more follows, ends in the
mark. -/
theorem extentThrough_ends (mark : closing ≠ []) (some_ : rest ≠ [])
    (whole : extentThrough closing (part ++ rest) = part.length) : closing <:+ part := by
  rcases closes_or_ends mark whole with ⟨body, rfl, -⟩ | ⟨ended, -⟩
  · exact List.suffix_append body closing
  · exact absurd ended some_

/-- What begins with an opening and is as long as that and what is read behind it. -/
theorem exists_part {inside : List Char} (whole : text ++ rest = opening ++ inside)
    (length : text.length = opening.length + extentThrough closing inside) :
    ∃ part, text = opening ++ part ∧ extentThrough closing (part ++ rest) = part.length := by
  obtain ⟨part, rfl⟩ : opening <+: text :=
    List.prefix_of_prefix_length_le (whole ▸ List.prefix_append opening inside)
      (List.prefix_append text rest) (by omega)
  rw [List.append_assoc] at whole
  obtain rfl := List.append_cancel_left whole
  refine ⟨part, rfl, ?_⟩
  rw [List.length_append] at length
  omega

/-- What is read behind an opening is closed with it, or runs out with it. -/
theorem closed_or_runsOut (mark : closing ≠ [])
    (whole : extentThrough closing (part ++ rest) = part.length) :
    Closed opening closing (opening ++ part) ∨ RunsOut opening closing (opening ++ part) rest := by
  rcases closes_or_ends mark whole with ⟨body, rfl, first⟩ | ⟨ended, open_⟩
  · exact .inl ⟨body, rfl, first⟩
  · exact .inr ⟨ended, part, rfl, open_⟩

/-! ## What the text tells -/

/-- What is read behind the opening is closed if it ends with the closing mark. -/
theorem closed_iff (mark : closing ≠ []) (whole : extentThrough closing (part ++ rest) = part.length) :
    Closed opening closing (opening ++ part) ↔ closing <:+ part := by
  constructor
  · rintro ⟨body, same, -⟩
    rw [List.append_cancel_left same]
    exact List.suffix_append body closing
  · intro ends
    refine (closed_or_runsOut mark whole).resolve_right ?_
    rintro ⟨-, body, same, open_⟩
    obtain rfl := List.append_cancel_left same
    exact open_ ends.isInfix

/-- **By its ending and its length**: a closed text is long enough for the opening and the closing mark. -/
theorem closed_iff_of_length (mark : closing ≠ [])
    (whole : extentThrough closing (part ++ rest) = part.length) :
    Closed opening closing (opening ++ part) ↔
      opening.length + closing.length ≤ (opening ++ part).length ∧ closing <:+ opening ++ part := by
  rw [closed_iff mark whole, List.length_append, Nat.add_le_add_iff_left]
  constructor
  · intro ends
    exact ⟨ends.length_le, ends.trans (List.suffix_append opening part)⟩
  · rintro ⟨room, ends⟩
    exact List.suffix_of_suffix_length_le ends (List.suffix_append opening part) room

/-- The test on the length and the ending finds what is not closed. -/
theorem short_or_unended_iff (mark : closing ≠ [])
    (whole : extentThrough closing (part ++ rest) = part.length) :
    ((opening ++ part).length < opening.length + closing.length ||
      !closing.isSuffixOf (opening ++ part)) = true ↔ ¬ Closed opening closing (opening ++ part) := by
  rw [closed_iff_of_length mark whole, not_and_or, not_le, Bool.or_eq_true, decide_eq_true_iff,
    Bool.not_eq_true', ← Bool.not_eq_true, List.isSuffixOf_iff_suffix]

/-- **By its ending alone**, where the last sign of the opening is none of the closing mark: then the
ending begins behind the opening. -/
theorem closed_iff_of_apart {lead : List Char} {sign : Char} (apart : sign ∉ closing)
    (mark : closing ≠ []) (whole : extentThrough closing (part ++ rest) = part.length) :
    Closed (lead ++ [sign]) closing (lead ++ [sign] ++ part) ↔
      closing <:+ lead ++ [sign] ++ part := by
  rw [closed_iff_of_length mark whole]
  refine ⟨And.right, fun ends => ⟨?_, ends⟩⟩
  by_contra short
  have inside : sign :: part <:+ closing := by
    refine List.suffix_of_suffix_length_le ?_ ends ?_
    · rw [List.append_assoc]
      exact List.suffix_append lead _
    · simp only [List.length_append, List.length_cons] at short ⊢
      omega
  exact apart (inside.subset List.mem_cons_self)

end PageLint.Text
