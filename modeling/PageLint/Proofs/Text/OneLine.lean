/-
# PageLint.Proofs.Text.OneLine — texts of one line

A text lies on one line if no line feed is in it. Parts of such a text do, and so does what is put
together of such parts; runs of characters do that a line feed ends.

Lines that are written one below the other, each with a line feed at its end, are read back as they
were if and only if each of them lies on one line (`splitBy_lines_iff`).
-/
import PageLint.Proofs.Text.Extent

namespace PageLint.Text

set_option autoImplicit false

variable {cs more old new : List Char} {p : Char → Bool} {c : Char} {m n : Nat}

/-! ## Parts of a text -/

theorem notMem_takeWhile (stops : p c = false) (cs : List Char) : c ∉ cs.takeWhile p := by
  intro member
  have goes := List.mem_takeWhile_imp member
  rw [stops] at goes
  cases goes

theorem notMem_take_add (first : c ∉ cs.take m) (second : c ∉ (cs.drop m).take n) :
    c ∉ cs.take (m + n) := by
  rw [List.take_add, List.mem_append, not_or]
  exact ⟨first, second⟩

theorem mem_lowerAscii_newline : '\n' ∈ lowerAscii cs ↔ '\n' ∈ cs := by
  rw [lowerAscii, List.mem_map]
  constructor
  · rintro ⟨c, member, lowered⟩
    have same : c = '\n' := eq_of_toLower_eq lowered (by decide)
    rwa [same] at member
  · exact fun member => ⟨'\n', member, by decide⟩

theorem newline_notMem_toDigits (n : Nat) : '\n' ∉ Nat.toDigits 10 n := fun digit =>
  absurd (Nat.isDigit_of_mem_toDigits (by decide) (by decide) digit) (by decide)

/-- A text of one line between two others is one line with them. -/
theorem newline_notMem_around {lead tail : String} (first : '\n' ∉ lead.toList) (one : '\n' ∉ cs)
    (last : '\n' ∉ tail.toList) : '\n' ∉ (lead ++ String.ofList cs ++ tail).toList := by
  simp [first, one, last]

/-- What a replacement puts in comes from the new text, and the rest was there. -/
theorem mem_replace (some_ : old ≠ []) (member : c ∈ replace old new cs) : c ∈ new ∨ c ∈ cs := by
  cases old with
  | nil => exact absurd rfl some_
  | cons o old =>
      rw [replace] at member
      fun_induction replace.go o old new cs with
      | case1 => cases member
      | case2 d rest found ih =>
          rcases List.mem_append.mp member with inside | later
          · exact .inl inside
          · exact (ih later).imp_right fun kept =>
              List.mem_cons_of_mem d (List.mem_of_mem_drop kept)
      | case3 d rest other ih =>
          rcases List.mem_cons.mp member with rfl | later
          · exact .inr List.mem_cons_self
          · exact (ih later).imp_right (List.mem_cons_of_mem d)

/-! ## Lines, one below the other -/

theorem splitBy_cons_newline (cs : List Char) :
    splitBy (· == '\n') ('\n' :: cs) = [] :: splitBy (· == '\n') cs := by
  rw [splitBy]
  rfl

/-- A line that stands in front of others is the first of the pieces. -/
theorem splitBy_line {line : List Char} (one : '\n' ∉ line) (rest : List Char) :
    splitBy (· == '\n') (line ++ '\n' :: rest) = line :: splitBy (· == '\n') rest := by
  induction line with
  | nil => exact splitBy_cons_newline rest
  | cons c line ih =>
      rw [List.mem_cons, not_or] at one
      have other : (c == '\n') = false := beq_eq_false_iff_ne.mpr (Ne.symm one.1)
      rw [List.cons_append, splitBy, ih one.2]
      simp [other]

theorem newline_notMem_splitBy (cs : List Char) :
    ∀ piece ∈ splitBy (· == '\n') cs, '\n' ∉ piece := by
  induction cs with
  | nil => simp [splitBy]
  | cons c cs ih =>
      by_cases feed : c = '\n'
      · rw [feed, splitBy_cons_newline]
        exact List.forall_mem_cons.mpr ⟨List.not_mem_nil, ih⟩
      · have other : (c == '\n') = false := beq_eq_false_iff_ne.mpr feed
        rw [splitBy]
        obtain ⟨first, others, parted⟩ := List.exists_cons_of_ne_nil (splitBy_ne_nil (· == '\n') cs)
        rw [parted, List.forall_mem_cons] at ih
        simp only [other, parted]
        refine List.forall_mem_cons.mpr ⟨?_, ih.2⟩
        rw [List.mem_cons, not_or]
        exact ⟨Ne.symm feed, ih.1⟩

/-- **Lines are read back if each lies on one line**, and only then. -/
theorem splitBy_lines_iff (lines : List (List Char)) :
    splitBy (· == '\n') (lines.flatMap (· ++ ['\n'])) = lines ++ [[]] ↔
      ∀ line ∈ lines, '\n' ∉ line := by
  constructor
  · intro parted line member
    refine newline_notMem_splitBy (lines.flatMap (· ++ ['\n'])) line ?_
    rw [parted]
    exact List.mem_append_left _ member
  · intro each
    induction lines with
    | nil => rfl
    | cons line lines ih =>
        rw [List.forall_mem_cons] at each
        rw [List.flatMap_cons, List.append_assoc, List.singleton_append, splitBy_line each.1,
          ih each.2, List.cons_append]

/-- As many line feeds are written as there are lines, and those that are in them. -/
theorem count_lines (lines : List (List Char)) :
    (lines.flatMap (· ++ ['\n'])).count '\n' =
      lines.length + (lines.map (List.count '\n')).sum := by
  induction lines with
  | nil => rfl
  | cons line lines ih =>
      rw [List.flatMap_cons, List.count_append, List.count_append, ih, List.length_cons,
        List.map_cons, List.sum_cons, List.count_singleton_self]
      omega

end PageLint.Text
