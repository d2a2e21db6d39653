/-
# PageLint.Proofs.Text.LineIndex — places found by line, and places reached by moving on

A place is reached by moving on over all that stands in front of it, character by character. It can also
be reached from where its line begins, which is looked up by the number of the line. Both come to the same,
since the lines begin at the start and behind the line feeds, and the number of a line is one more than
there are line feeds in front of it (`lineStart?_append`).

A line leaves out what ends it (`Leaves`). With that put back, the lines of a text are the text
(`exists_endings`), and there are as many as there are line feeds, and one more for what stands behind the
last of them (`lineCount_eq`). `Source.indexed` puts the two parts together.
-/
import PageLint.Proofs.Text.Lines
import PageLint.Proofs.Text.OneLine
import PageLint.Proofs.Text.Passage

namespace PageLint.Source

set_option autoImplicit false

open Text

variable {front head tail piece : List Char}

/-! ## Where the line of a place begins -/

/-- A text is cut in two where its last line begins. -/
theorem exists_lastLine (front : List Char) : ∃ head tail, front = head ++ tail ∧ '\n' ∉ tail ∧
    (head = [] ∨ ∃ before, head = before ++ ['\n']) := by
  by_cases broken : '\n' ∈ front
  · obtain ⟨before, last, rfl, unbroken⟩ := exists_lastBreak broken
    exact ⟨before ++ ['\n'], last, by simp, unbroken, .inr ⟨before, rfl⟩⟩
  · exact ⟨[], front, rfl, broken, .inl rfl⟩

/-- The place behind a line feed is the first of its line. -/
theorem start_after_head (begins : head = [] ∨ ∃ before, head = before ++ ['\n']) :
    Position.start.after head = ⟨bytes head, 1 + head.count '\n', 1⟩ := by
  have offset : (Position.start.after head).offset = bytes head := by
    rw [Position.offset_after]
    exact Nat.zero_add _
  have line : (Position.start.after head).line = 1 + head.count '\n' := Position.line_after _ _
  have column : (Position.start.after head).column = 1 := by
    rcases begins with rfl | ⟨before, rfl⟩
    · rfl
    · rw [Position.after_append]
      rfl
  rw [← offset, ← line, ← column]

/-- **Where the line of a place begins** is looked up by the line feeds in front of the place. -/
theorem lineStart?_append (begins : head = [] ∨ ∃ before, head = before ++ ['\n'])
    (rest : List Char) :
    lineStart? ⟨head ++ rest⟩ (1 + head.count '\n') = some (Position.start.after head) := by
  rw [lineStart?, if_neg (by omega), Nat.add_sub_cancel_left]
  show (Position.start :: lineStartsFrom .start (head ++ rest))[head.count '\n']? = _
  rcases begins with rfl | ⟨before, rfl⟩
  · rfl
  · have ahead : (lineStartsFrom .start before).length = before.count '\n' :=
      length_lineStartsFrom _ before
    rw [List.append_assoc, List.singleton_append, lineStartsFrom_append, List.count_append,
      List.count_singleton_self, List.getElem?_cons_succ, ← ahead,
      List.getElem?_append_right (Nat.le_refl _), Nat.sub_self]
    rfl

/-! ## What ends a line -/

/-- `ending` is what the content of a line leaves out behind it: a line feed, if there is one, and one
carriage return, if there is one. -/
def Leaves (content ending : List Char) : Prop :=
  '\n' ∉ content ∧ ending ∈ ([[], ['\n'], ['\r'], ['\r', '\n']] : List (List Char)) ∧
    ('\r' ∉ ending → content.getLast? ≠ some '\r')

/-- The carriage return that the content of a piece leaves out. -/
def returned (piece : List Char) : List Char := if ['\r'].isSuffixOf piece then ['\r'] else []

theorem content_append_returned (piece : List Char) : content piece ++ returned piece = piece := by
  rw [content, returned, stripTail]
  split
  next ends =>
    obtain ⟨front, rfl⟩ := List.isSuffixOf_iff_suffix.mp ends
    simp
  next => exact List.append_nil piece

theorem returned_eq_or (piece : List Char) : returned piece = ['\r'] ∨
    returned piece = [] ∧ (content piece).getLast? ≠ some '\r' := by
  have whole := content_append_returned piece
  by_cases ends : ['\r'].isSuffixOf piece
  · exact .inl (if_pos ends)
  · have none_ : returned piece = [] := if_neg ends
    refine .inr ⟨none_, fun last => ends ?_⟩
    rw [none_, List.append_nil] at whole
    rw [whole] at last
    obtain ⟨front, rfl⟩ := List.getLast?_eq_some_iff.mp last
    exact List.isSuffixOf_iff_suffix.mpr (List.suffix_append front ['\r'])

/-- A piece between line feeds is a line, whether a line feed ends it or not. -/
theorem leaves_piece (unbroken : '\n' ∉ piece) {feed : List Char} (ends : feed = [] ∨ feed = ['\n']) :
    Leaves (content piece) (returned piece ++ feed) := by
  have whole := content_append_returned piece
  refine ⟨fun inside => unbroken ?_, ?_, fun none_ => ?_⟩
  · rw [← whole]
    exact List.mem_append_left _ inside
  · rcases returned_eq_or piece with some_ | ⟨none_, -⟩ <;> rcases ends with rfl | rfl
    · simp [some_]
    · simp [some_]
    · simp [none_]
    · simp [none_]
  · rcases returned_eq_or piece with some_ | ⟨-, bare⟩
    · rw [some_] at none_
      exact absurd (List.mem_append_left _ (List.mem_singleton_self '\r')) none_
    · exact bare

/-! ## The lines of a text -/

/-- The pieces of a text: those that a line feed ends, and the last one. -/
theorem exists_pieces (cs : List Char) : ∃ closed last, splitBy (· == '\n') cs = closed ++ [last] ∧
    cs = closed.flatMap (· ++ ['\n']) ++ last := by
  induction cs with
  | nil => exact ⟨[], [], rfl, rfl⟩
  | cons c cs ih =>
      obtain ⟨closed, last, parted, whole⟩ := ih
      by_cases feed : c = '\n'
      · refine ⟨[] :: closed, last, ?_, ?_⟩
        · rw [feed, splitBy_cons_newline, parted]
          rfl
        · rw [feed, whole]
          rfl
      · have other : (c == '\n') = false := beq_eq_false_iff_ne.mpr feed
        cases closed with
        | nil => exact ⟨[], c :: last, by simp [splitBy, parted, other], by simp [whole]⟩
        | cons first closed =>
            exact ⟨(c :: first) :: closed, last, by simp [splitBy, parted, other], by simp [whole]⟩

/-- A line feed ends the text just if nothing stands behind the last of the line feeds. -/
theorem endsLine_iff {closed : List (List Char)} {last : List Char} (unbroken : '\n' ∉ last) :
    endsLine ⟨closed.flatMap (· ++ ['\n']) ++ last⟩ ↔ last = [] ∧ closed ≠ [] := by
  show (closed.flatMap (· ++ ['\n']) ++ last).getLast? == some '\n' ↔ _
  rw [beq_iff_eq]
  rcases List.eq_nil_or_concat last with rfl | ⟨init, c, rfl⟩
  · rcases List.eq_nil_or_concat closed with rfl | ⟨init, piece, rfl⟩
    · simp
    · simp
  · have other : c ≠ '\n' := by
      rintro rfl
      exact unbroken (by simp)
    simp [other]

/-- **How many lines there are**: as many as line feeds, and one more if no line feed ends the text. -/
theorem lineCount_eq (src : Source) :
    src.lineCount = src.text.count '\n' + if src.text.getLast? = some '\n' then 0 else 1 := by
  have pieces : src.pieces.length = src.text.count '\n' + 1 := length_splitBy src.text
  rw [lineCount, pieces, endsLine]
  simp only [beq_iff_eq]
  split <;> rfl

/-- **With what ends them put back, the lines are the text.** Each but the last is ended by a line feed. -/
theorem exists_endings (src : Source) : ∃ endings, List.Forall₂ Leaves src.lineContents endings ∧
    (List.zipWith (· ++ ·) src.lineContents endings).flatten = src.text ∧
    ∀ ending ∈ endings.dropLast, '\n' ∈ ending := by
  obtain ⟨text⟩ := src
  obtain ⟨closed, last, parted, whole⟩ := exists_pieces text
  have unbroken := newline_notMem_splitBy text
  rw [parted, List.forall_mem_append, List.forall_mem_singleton] at unbroken
  obtain ⟨each, final⟩ := unbroken
  have pieces : pieces ⟨text⟩ = closed ++ [last] := parted
  have finished := List.forall₂_map_left_iff.mpr (List.forall₂_map_right_iff.mpr
    (List.forall₂_same.mpr fun piece inside => leaves_piece (each piece inside) (.inr rfl)))
  have joined : (List.zipWith (· ++ ·) (closed.map content)
      (closed.map fun piece => returned piece ++ ['\n'])).flatten = closed.flatMap (· ++ ['\n']) := by
    rw [List.zipWith_map, List.zipWith_self, List.flatMap_def]
    refine congrArg List.flatten (List.map_congr_left fun piece _ => ?_)
    rw [← List.append_assoc, content_append_returned]
  have fed : ∀ ending ∈ closed.map fun piece => returned piece ++ ['\n'], '\n' ∈ ending := by
    intro ending inside
    obtain ⟨piece, -, rfl⟩ := List.mem_map.mp inside
    exact List.mem_append_right _ (List.mem_singleton_self '\n')
  by_cases ends : endsLine ⟨text⟩
  · -- The piece behind the line feed that ends the text is no line.
    have nothing : last = [] := ((endsLine_iff final).mp (whole ▸ ends)).1
    have contents : lineContents ⟨text⟩ = closed.map content := by
      rw [lineContents, lineCount, if_pos ends, pieces, List.length_append, List.length_singleton,
        Nat.add_sub_cancel, List.take_left]
    refine ⟨closed.map fun piece => returned piece ++ ['\n'], ?_, ?_, ?_⟩
    · rw [contents]
      exact finished
    · rw [contents, joined]
      show _ = text
      rw [whole, nothing, List.append_nil]
    · exact fun ending inside => fed ending (List.mem_of_mem_dropLast inside)
  · have contents : lineContents ⟨text⟩ = closed.map content ++ [content last] := by
      rw [lineContents, lineCount, if_neg ends, List.take_length, pieces, List.map_append]
      rfl
    refine ⟨(closed.map fun piece => returned piece ++ ['\n']) ++ [returned last], ?_, ?_, ?_⟩
    · rw [contents]
      refine List.rel_append finished (.cons ?_ .nil)
      have alone := leaves_piece final (.inl rfl)
      rwa [List.append_nil] at alone
    · rw [contents, List.zipWith_append (by simp), List.flatten_append, joined]
      show _ = text
      rw [whole]
      simp [content_append_returned]
    · rw [List.dropLast_concat]
      exact fed

/-- The lines are those that are looked up, each by its number. -/
theorem lines_eq (src : Source) :
    src.lines.map some = (List.range' 1 src.lineCount).map fun n => (src.line? n).map (n, ·) := by
  have length : src.lineContents.length = src.lineCount := by
    rw [lineContents, List.length_map, List.length_take, min_eq_left]
    rw [lineCount]
    split <;> omega
  refine List.ext_getElem ?_ fun i inside inside' => ?_
  · simp [lines, length]
  · simp [lines, line?, lineOf?, lineTable, Nat.add_comm 1]

/-! ## Both together -/

/-- **The lines of a text and its places agree.** -/
structure Indexed (src : Source) : Prop where
  /-- A place that is reached by moving on knows how many bytes and how many line feeds stand in front of
  it, and is reached as well from where its line begins, over text without a line feed. -/
  place : ∀ front rest, src.text = front ++ rest →
    let p := Position.start.after front
    p.offset = bytes front ∧ p.line = 1 + front.count '\n' ∧
      ∃ q, src.lineStart? p.line = some q ∧ q.line = p.line ∧ q.column = 1 ∧ q.offset ≤ p.offset ∧
        q.after (src.slice ⟨q, p⟩) = p ∧ '\n' ∉ src.slice ⟨q, p⟩
  /-- The end is the place behind all of the text, on the last line that begins. -/
  finish : src.finish = Position.start.after src.text ∧ src.finish.offset = src.byteLength ∧
    src.finish.line = src.lineStarts.length
  /-- The lines are numbered from one on, and none is left out. -/
  numbers : src.lines.map some =
    (List.range' 1 src.lineCount).map fun n => (src.line? n).map (n, ·)
  /-- A line feed at the end of the text opens no line. -/
  count : src.lineCount = src.text.count '\n' + if src.text.getLast? = some '\n' then 0 else 1
  /-- The lines are the text, with what ends them put back. -/
  whole : ∃ endings, List.Forall₂ Leaves (src.lines.map Prod.snd) endings ∧
    (List.zipWith (· ++ ·) (src.lines.map Prod.snd) endings).flatten = src.text ∧
    ∀ ending ∈ endings.dropLast, '\n' ∈ ending

theorem indexed (src : Source) : src.Indexed where
  place front rest parted := by
    obtain ⟨text⟩ := src
    obtain rfl : text = front ++ rest := parted
    intro p
    have line : p.line = 1 + front.count '\n' := Position.line_after _ _
    have offset : p.offset = bytes front := by
      rw [Position.offset_after]
      exact Nat.zero_add _
    refine ⟨offset, line, ?_⟩
    obtain ⟨head, tail, rfl, unbroken, begins⟩ := exists_lastLine front
    have place := start_after_head begins
    have counted : (head ++ tail).count '\n' = head.count '\n' := by
      rw [List.count_append, List.count_eq_zero_of_not_mem unbroken, Nat.add_zero]
    have reached : p = (Position.start.after head).after tail := Position.after_append _ _ _
    have shown : slice ⟨head ++ tail ++ rest⟩ ⟨Position.start.after head, p⟩ = tail := by
      rw [reached]
      exact slice_of_holds ⟨head, List.prefix_append _ _, rfl⟩
    refine ⟨Position.start.after head, ?_, ?_, ?_, ?_, ?_, ?_⟩
    · rw [line, counted, List.append_assoc]
      exact lineStart?_append begins (tail ++ rest)
    · rw [line, counted, place]
    · rw [place]
    · rw [offset, place, bytes_append]
      exact Nat.le_add_right _ _
    · rw [shown, reached]
    · rw [shown]
      exact unbroken
  finish := by
    refine ⟨rfl, ?_, ?_⟩
    · rw [finish, Position.offset_after, byteLength_eq]
      exact Nat.zero_add _
    · rw [finish, Position.line_after, lineStarts, List.length_cons, length_lineStartsFrom]
      exact Nat.add_comm _ _
  numbers := lines_eq src
  count := lineCount_eq src
  whole := by
    have contents : src.lines.map Prod.snd = src.lineContents := by
      refine List.ext_getElem (by simp [lines]) fun i inside inside' => ?_
      simp [lines]
    rw [contents]
    exact exists_endings src

end PageLint.Source
