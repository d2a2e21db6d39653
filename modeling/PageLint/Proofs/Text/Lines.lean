/-
# PageLint.Proofs.Text.Lines — the end of a text, counted from its last line

A text is cut into lines where `lineStarts` says that they begin. The place past its last
character can be reached from any of them; `finish_eq_after_lastLine` reaches it from the
last one, over the text of that line alone.

The number of a line is one more than there are line feeds in front of it (`line_after`), and what stands
between two line feeds is the line of that number (`line?_between`). The lines with the places where they
begin are those in front of a line feed and those behind it (`rows_append`).
-/
import PageLint.Proofs.Text.Place

namespace PageLint

/-- Moving on goes to the next line with every line feed. -/
theorem Position.line_after (p : Position) (cs : List Char) :
    (p.after cs).line = p.line + cs.count '\n' := by
  induction cs generalizing p with
  | nil => rfl
  | cons c cs ih =>
      rw [after_cons, ih, next]
      by_cases feed : c = '\n'
      · rw [if_pos feed, feed, List.count_cons_self, Nat.add_assoc, Nat.add_comm 1]
      · rw [if_neg feed, List.count_cons_of_ne feed]

namespace Source

set_option autoImplicit false

open Text

theorem lineStartsFrom_of_not_mem {cs : List Char} (p : Position) (unbroken : '\n' ∉ cs) :
    lineStartsFrom p cs = [] := by
  induction cs generalizing p with
  | nil => rfl
  | cons c cs ih =>
      have other : c ≠ '\n' := fun same => unbroken (by simp [same])
      rw [lineStartsFrom, if_neg other]
      exact ih _ (fun later => unbroken (List.mem_cons_of_mem c later))

theorem splitBy_of_not_mem {cs : List Char} (unbroken : '\n' ∉ cs) :
    splitBy (· == '\n') cs = [cs] := by
  induction cs with
  | nil => rfl
  | cons c cs ih =>
      have other : (c == '\n') = false := by
        rw [beq_eq_false_iff_ne]
        exact fun same => unbroken (by simp [same])
      simp [splitBy, ih (fun later => unbroken (List.mem_cons_of_mem c later)), other]

theorem getLast?_lineStartsFrom (p : Position) (before : List Char) {last : List Char}
    (unbroken : '\n' ∉ last) :
    (lineStartsFrom p (before ++ '\n' :: last)).getLast? = some (p.after (before ++ ['\n'])) := by
  induction before generalizing p with
  | nil => simp [lineStartsFrom, lineStartsFrom_of_not_mem _ unbroken]
  | cons c before ih =>
      rw [List.cons_append, lineStartsFrom]
      split
      · rw [List.getLast?_cons, ih]
        rfl
      · exact ih _

theorem getLast?_splitBy (before : List Char) {last : List Char} (unbroken : '\n' ∉ last) :
    ∃ first more, splitBy (· == '\n') (before ++ '\n' :: last) = first :: more ∧
      more.getLast? = some last := by
  induction before with
  | nil => exact ⟨[], [last], by simp [splitBy, splitBy_of_not_mem unbroken], rfl⟩
  | cons c before ih =>
      obtain ⟨first, more, pieces, final⟩ := ih
      rw [List.cons_append, splitBy, pieces]
      cases c == '\n' with
      | true => exact ⟨[], first :: more, rfl, by rw [List.getLast?_cons, final]; rfl⟩
      | false => exact ⟨c :: first, more, rfl, final⟩

/-- A text is cut in two at its last line feed. -/
theorem exists_lastBreak {cs : List Char} (broken : '\n' ∈ cs) :
    ∃ before last, cs = before ++ '\n' :: last ∧ '\n' ∉ last := by
  obtain ⟨after, before, reversed, unbroken⟩ :=
    List.eq_append_cons_of_mem (List.mem_reverse.mpr broken)
  refine ⟨before.reverse, after.reverse, ?_, by rwa [List.mem_reverse]⟩
  rw [← List.reverse_reverse cs, reversed]
  simp

/-- The end of a text, counted from the start of its last line. -/
theorem finish_eq_after_lastLine (src : Source) : ∃ p piece,
    src.lineStarts.getLast? = some p ∧ src.pieces.getLast? = some piece ∧
      src.finish = p.after piece := by
  by_cases broken : '\n' ∈ src.text
  · obtain ⟨before, last, text, unbroken⟩ := exists_lastBreak broken
    obtain ⟨first, more, parts, final⟩ := getLast?_splitBy before unbroken
    refine ⟨Position.start.after (before ++ ['\n']), last, ?_, ?_, ?_⟩
    · rw [lineStarts, List.getLast?_cons, text, getLast?_lineStartsFrom _ _ unbroken]
      rfl
    · rw [pieces, text, parts, List.getLast?_cons, final]
      rfl
    · rw [finish, text, ← Position.after_append]
      simp
  · refine ⟨.start, src.text, ?_, ?_, rfl⟩
    · rw [lineStarts, lineStartsFrom_of_not_mem _ broken]
      rfl
    · rw [pieces, splitBy_of_not_mem broken]
      rfl

/-! ## Lines by their numbers -/

/-- There is a piece more than there are line feeds. -/
theorem length_splitBy (cs : List Char) :
    (splitBy (· == '\n') cs).length = cs.count '\n' + 1 := by
  induction cs with
  | nil => rfl
  | cons c cs ih =>
      obtain ⟨first, more, pieces⟩ := List.exists_cons_of_ne_nil (splitBy_ne_nil (· == '\n') cs)
      rw [pieces] at ih
      by_cases feed : c = '\n'
      · simp only [splitBy, pieces, feed, beq_self_eq_true, List.length_cons, List.count_cons_self,
          ← ih]
      · have other : (c == '\n') = false := beq_eq_false_iff_ne.mpr feed
        simp only [splitBy, pieces, other, List.length_cons, List.count_cons_of_ne feed, ← ih]

/-- A line feed separates the pieces before it from those behind it. -/
theorem splitBy_append (front back : List Char) : splitBy (· == '\n') (front ++ '\n' :: back) =
    splitBy (· == '\n') front ++ splitBy (· == '\n') back := by
  induction front with
  | nil => simp [splitBy]
  | cons c front ih =>
      obtain ⟨first, more, pieces⟩ := List.exists_cons_of_ne_nil (splitBy_ne_nil (· == '\n') front)
      rw [pieces, List.cons_append] at ih
      rw [List.cons_append, splitBy, splitBy, ih, pieces]
      cases c == '\n' <;> rfl

theorem line?_eq (src : Source) (n : Nat) :
    src.line? (n + 1) = ((src.pieces.take src.lineCount)[n]?).map content := by
  rw [line?, lineOf?, if_neg (Nat.succ_ne_zero n), lineTable, List.getElem?_toArray,
    Nat.add_sub_cancel, lineContents, List.getElem?_map]

/-- **What stands between two line feeds is a line**, and its number is that of its place. -/
theorem line?_between (front back : List Char) {piece : List Char} (unbroken : '\n' ∉ piece) :
    line? ⟨front ++ '\n' :: (piece ++ '\n' :: back)⟩
      (Position.start.after (front ++ ['\n'])).line = some (content piece) := by
  have number : (Position.start.after (front ++ ['\n'])).line = front.count '\n' + 1 + 1 := by
    rw [Position.line_after, List.count_append, Position.start]
    simp only [List.count_singleton_self]
    omega
  have parted : pieces ⟨front ++ '\n' :: (piece ++ '\n' :: back)⟩ =
      splitBy (· == '\n') front ++ piece :: splitBy (· == '\n') back := by
    rw [pieces, splitBy_append, splitBy_append, splitBy_of_not_mem unbroken]
    rfl
  have some_ := List.length_pos_of_ne_nil (splitBy_ne_nil (· == '\n') back)
  have enough : front.count '\n' + 1 < lineCount ⟨front ++ '\n' :: (piece ++ '\n' :: back)⟩ := by
    rw [lineCount, parted, List.length_append, List.length_cons, length_splitBy front]
    split <;> omega
  rw [number, line?_eq, List.getElem?_take_of_lt enough, parted, ← length_splitBy front,
    List.getElem?_append_right (Nat.le_refl _), Nat.sub_self]
  rfl

/-! ## Lines where they begin -/

/-- The pieces between line feeds, each with the place where it begins, if the first begins at `p`. -/
def rows (p : Position) (cs : List Char) : List (Position × List Char) :=
  (p :: lineStartsFrom p cs).zip (splitBy (· == '\n') cs)

theorem lineStartsFrom_append (p : Position) (front back : List Char) :
    lineStartsFrom p (front ++ '\n' :: back) =
      lineStartsFrom p front ++ p.after (front ++ ['\n']) ::
        lineStartsFrom (p.after (front ++ ['\n'])) back := by
  induction front generalizing p with
  | nil => rfl
  | cons c front ih =>
      rw [List.cons_append, lineStartsFrom, lineStartsFrom, ih]
      split <;> rfl

/-- There is a place for each line feed. -/
theorem length_lineStartsFrom (p : Position) (cs : List Char) :
    (lineStartsFrom p cs).length = cs.count '\n' := by
  induction cs generalizing p with
  | nil => rfl
  | cons c cs ih =>
      rw [lineStartsFrom]
      by_cases feed : c = '\n'
      · rw [if_pos feed, feed, List.length_cons, ih, List.count_cons_self]
      · rw [if_neg feed, ih, List.count_cons_of_ne feed]

theorem rows_of_not_mem {cs : List Char} (p : Position) (unbroken : '\n' ∉ cs) :
    rows p cs = [(p, cs)] := by
  rw [rows, lineStartsFrom_of_not_mem p unbroken, splitBy_of_not_mem unbroken]
  rfl

/-- **A line feed separates the lines before it from those behind it.** -/
theorem rows_append (p : Position) (front back : List Char) :
    rows p (front ++ '\n' :: back) = rows p front ++ rows (p.after (front ++ ['\n'])) back := by
  have lengths : (p :: lineStartsFrom p front).length = (splitBy (· == '\n') front).length := by
    rw [List.length_cons, length_lineStartsFrom, length_splitBy]
  rw [rows, rows, rows, lineStartsFrom_append, splitBy_append, ← List.zip_append lengths]
  rfl

/-- Lines begin on lines that follow each other. -/
theorem line_lineStarts (p : Position) (cs : List Char) :
    (p :: lineStartsFrom p cs).map Position.line = List.range' p.line (cs.count '\n' + 1) := by
  induction cs generalizing p with
  | nil => rfl
  | cons c cs ih =>
      have later := ih (p.next c)
      rw [lineStartsFrom]
      by_cases feed : c = '\n'
      · subst feed
        rw [if_pos rfl, List.map_cons, later, List.count_cons_self]
        exact List.range'_succ.symm
      · have same : (p.next c).line = p.line := by rw [Position.next, if_neg feed]
        rw [List.map_cons, same] at later
        rw [if_neg feed, List.map_cons, later, List.count_cons_of_ne feed]

end Source

end PageLint
