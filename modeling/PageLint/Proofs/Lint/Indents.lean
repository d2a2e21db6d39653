/-
# PageLint.Proofs.Lint.Indents — indents put in order

The rule on indents goes over the lines of a text and tells of an indent with a tab in it, or of an odd number
of spaces (`Rules.mendIndent`). What it suggests has no tab any more. It is in order if the rule tells of
spaces alone, since one of them goes; where tabs make way for two spaces each, what is left is in order just
if the spaces among them are even in number (`Rules.mendIndent_mended`).

An edit at the beginning of a line leaves all other lines as they are (`Source.exists_rows`), and lines on which a
comment goes on stay such lines. So what the rule tells of the other lines stays, each at its place
(`Document.indentation_mended`), unless a byte order mark comes to stand first in the text.
-/
import PageLint.Proofs.Css.Indents
import PageLint.Proofs.Lint.Runs
import PageLint.Proofs.Text.Edit
import PageLint.Lint.StyleGuide

namespace PageLint

set_option autoImplicit false

open Text

/-! ## Lines around an edit -/

namespace Edit

variable {e : Edit} {p : Position}

/-- An edit that stays on its line leaves line and column of a place on another line. -/
theorem move_elsewhere (level : e.finish.line = e.span.finish.line) (other : p.line ≠ e.span.finish.line) :
    (e.move p).line = p.line ∧ (e.move p).column = p.column := by
  rw [move]
  split
  · exact ⟨rfl, rfl⟩
  · rw [Position.rebase, if_neg other, level, Nat.add_sub_cancel]
    exact ⟨rfl, rfl⟩

end Edit

namespace Source

variable {cs : List Char} {p : Position} {row : Position × List Char}

/-- A line lies between line feeds, or at an end of the text. -/
theorem exists_of_mem_rows (member : row ∈ rows p cs) : ∃ passed rest,
    cs = passed ++ (row.2 ++ rest) ∧ row.1 = p.after passed ∧ '\n' ∉ row.2 ∧
      (passed = [] ∨ passed.getLast? = some '\n') ∧ (rest = [] ∨ rest.head? = some '\n') := by
  induction count : cs.length using Nat.strong_induction_on generalizing cs p with
  | _ n ih =>
    by_cases broken : '\n' ∈ cs
    · obtain ⟨piece, back, rfl, unbroken⟩ := List.eq_append_cons_of_mem broken
      rw [rows_append, rows_of_not_mem p unbroken, List.singleton_append, List.mem_cons] at member
      rcases member with rfl | later
      · exact ⟨[], '\n' :: back, rfl, rfl, unbroken, .inl rfl, .inr rfl⟩
      · obtain ⟨passed, rest, rfl, place, plain, begins, ends⟩ := ih _ (by
          rw [← count, List.length_append, List.length_cons]
          omega) later rfl
        refine ⟨piece ++ '\n' :: passed, rest, by simp, ?_, plain, .inr ?_, ends⟩
        · rw [place, ← Position.after_append, List.append_assoc, List.singleton_append]
        · rcases begins with rfl | feed
          · simp
          · rw [List.getLast?_append, List.getLast?_cons, feed]
            rfl
    · rw [rows_of_not_mem p broken, List.mem_singleton] at member
      subst member
      exact ⟨[], [], by simp, rfl, broken, .inl rfl, .inl rfl⟩

/-- What ends with a line feed, or is nothing, stands in lines of its own. -/
theorem exists_rows_append {front : List Char} (begins : front = [] ∨ front.getLast? = some '\n')
    (p : Position) : ∃ above, (∀ back, rows p (front ++ back) = above ++ rows (p.after front) back) ∧
      ∀ row ∈ above, ∃ passed more, front = passed ++ (row.2 ++ '\n' :: more) ∧ row.1 = p.after passed := by
  rcases begins with rfl | feed
  · exact ⟨[], fun back => rfl, by simp⟩
  · obtain ⟨front, rfl⟩ := List.getLast?_eq_some_iff.mp feed
    refine ⟨rows p front, fun back => ?_, fun row member => ?_⟩
    · rw [List.append_assoc, List.singleton_append, rows_append]
    · obtain ⟨passed, rest, rfl, place, -, -, rfl | next⟩ := exists_of_mem_rows member
      · exact ⟨passed, [], by simp, place⟩
      · obtain ⟨rest, rfl⟩ := List.head?_eq_some_iff.mp next
        exact ⟨passed, rest ++ ['\n'], by simp, place⟩

/-- The same piece, where an edit moves it. -/
def moveRow (e : Edit) (row : Position × List Char) : Position × List Char := (e.move row.1, row.2)

theorem map_moveRow (e : Edit) (passed cs : List Char) :
    (rows (e.span.finish.after passed) cs).map (moveRow e) = rows (e.finish.after passed) cs := by
  have starts : (lineStartsFrom (e.span.finish.after passed) cs).map e.move =
      lineStartsFrom (e.finish.after passed) cs := by
    induction cs generalizing passed with
    | nil => rfl
    | cons c cs ih =>
        have later := ih (passed ++ [c])
        have own := e.move_after (passed ++ [c])
        simp only [Position.after_append, Position.after_cons, Position.after_nil] at later own
        rw [lineStartsFrom, lineStartsFrom]
        split
        next => rw [List.map_cons, own, later]
        next => exact later
  rw [rows, rows, ← starts, ← e.move_after, ← List.map_cons, List.zip_map_left]
  rfl

/-- **An edit at the beginning of a line leaves the other lines**: each is moved along, and lies on a line of
another number. -/
theorem exists_rows {e : Edit} (begins : e.before = [] ∨ e.before.getLast? = some '\n') {more rest : List Char}
    (parted : e.after = more ++ rest) (ends : rest = [] ∨ rest.head? = some '\n')
    (plain : '\n' ∉ e.cut ++ more) (plain' : '\n' ∉ e.put ++ more) :
    ∃ above below, rows .start e.old = above ++ (e.start, e.cut ++ more) :: below ∧
      rows .start e.new = above.map (moveRow e) ++ (e.start, e.put ++ more) :: below.map (moveRow e) ∧
      ∀ row ∈ above ++ below, e.Spares row.1 row.2 ∧ row.1.line ≠ e.start.line := by
  obtain ⟨above, split, stands⟩ := exists_rows_append begins .start
  have old : e.old = e.before ++ ((e.cut ++ more) ++ rest) := by simp [Edit.old, parted]
  have new : e.new = e.before ++ ((e.put ++ more) ++ rest) := by simp [Edit.new, parted]
  have ahead : ∀ row ∈ above, e.Spares row.1 row.2 ∧ row.1.line ≠ e.start.line := by
    intro row member
    obtain ⟨passed, left, whole, place⟩ := stands row member
    rw [place]
    refine ⟨.front ⟨'\n' :: left, by rw [whole, List.append_assoc]⟩, ?_⟩
    rw [Edit.start, whole, Position.line_after, Position.line_after, List.count_append,
      List.count_append, List.count_cons_self]
    omega
  have still : above.map (moveRow e) = above := by
    refine List.map_congr_left (g := id) ?_ |>.trans (List.map_id above)
    intro row member
    obtain ⟨passed, left, whole, place⟩ := stands row member
    have stays : e.move (Position.start.after passed) = Position.start.after passed :=
      e.move_before ⟨_, whole.symm⟩
    rw [moveRow, place, stays, ← place]
    rfl
  rw [old, new, split, split]
  rcases ends with rfl | feed
  · rw [List.append_nil, List.append_nil, rows_of_not_mem _ plain, rows_of_not_mem _ plain']
    exact ⟨above, [], rfl, by rw [still]; rfl, by simpa using ahead⟩
  · obtain ⟨rest, rfl⟩ := List.head?_eq_some_iff.mp feed
    rw [rows_append, rows_append, rows_of_not_mem _ plain, rows_of_not_mem _ plain',
      List.append_assoc, List.append_assoc, Position.after_append _ e.cut, Position.after_append _ e.put]
    refine ⟨above, rows (e.span.finish.after (more ++ ['\n'])) rest, rfl, ?_, ?_⟩
    · rw [map_moveRow, still]
      rfl
    · intro row member
      rcases List.mem_append.mp member with front | back
      · exact ahead row front
      · obtain ⟨passed, left, -, place, -⟩ := exists_of_mem_rows back
        have behind : row.1 = e.span.finish.after ((more ++ ['\n']) ++ passed) := by
          rw [place, ← Position.after_append]
        rw [behind]
        refine ⟨.behind _ _, ?_⟩
        rw [Position.line_after, List.count_append, List.count_append, List.count_singleton_self,
          Edit.span, Span.covering_finish, Position.line_after]
        omega

/-- What ends a line stays its end, whatever else the line holds. -/
theorem content_append {rest : List Char} (some_ : rest ≠ []) (front : List Char) :
    content (front ++ rest) = front ++ content rest := by
  rw [content, content]
  cases strip : stripTail ['\r'] rest with
  | some kept =>
      obtain rfl := stripTail_eq_some_iff.mp strip
      rw [← List.append_assoc, stripTail_eq_some_iff.mpr rfl]
      rfl
  | none =>
      cases strip' : stripTail ['\r'] (front ++ rest) with
      | none => rfl
      | some kept =>
          have last := congrArg List.getLast? (stripTail_eq_some_iff.mp strip')
          rw [List.getLast?_append_of_ne_nil _ some_, List.getLast?_concat] at last
          obtain ⟨before, rfl⟩ := List.getLast?_eq_some_iff.mp last
          rw [stripTail_eq_some_iff.mpr rfl] at strip
          cases strip

end Source

/-! ## The rule -/

namespace Rules

variable {cs : List Char} {exempt : List LineRange} {f : Finding} {start : Position}
  {s more : List Char}

/-- A line where it begins. -/
def lineAt (row : Position × List Char) : Line := ⟨row.1.line, row.1, Source.content row.2⟩

/-- What the rule tells of a line. -/
def tellIndent (exempt : List LineRange) (row : Position × List Char) : Option Finding :=
  if exempt.any (·.covers row.1.line) then none
  else
    let indent := (Source.content row.2).takeWhile isSpacing
    if indent.length = (Source.content row.2).length then none else mendIndent row.1 indent

/-- Lines with their numbers are lines where they begin. -/
theorem map_zip_lines {starts : List Position} {n m : Nat}
    (numbers : starts.map Position.line = List.range' n m) (pieces : List (List Char)) :
    (((pieces.map Source.content).mapIdx fun i content => (i + n, content)).zip starts).map
        (fun ((number, content), start) => Line.mk number start content) =
      (starts.zip pieces).map lineAt := by
  induction pieces generalizing starts n m with
  | nil => simp
  | cons piece pieces ih =>
      cases starts with
      | nil => simp
      | cons start starts =>
          cases m with
          | zero => cases numbers
          | succ m =>
              obtain ⟨own, others⟩ := List.cons.inj (numbers.trans List.range'_succ)
              have later := ih others
              simp only [List.map_cons, List.mapIdx_cons, List.zip_cons_cons, Nat.zero_add]
              rw [← later, lineAt, own]
              simp only [Nat.add_right_comm _ 1, Nat.add_assoc]

theorem linesOf_eq (cs : List Char) : linesOf ⟨cs⟩ =
    ((Source.lineStarts ⟨cs⟩).zip ((Source.pieces ⟨cs⟩).take (Source.lineCount ⟨cs⟩))).map lineAt :=
  map_zip_lines (Source.line_lineStarts .start cs) _

/-- **The rule goes over the lines where they begin.** The last one of a text that ends with a line feed is
empty, and nothing is told of it. -/
theorem indentation_ofText (cs : List Char) : indentation (.ofText .css cs) =
    (Source.rows .start cs).filterMap (tellIndent (Css.continuations 1 (Css.lexemes cs))) := by
  have exempt : (Document.ofText .css cs).verbatim ++ (Document.ofText .css cs).commentLines =
      Css.continuations 1 (Css.lexemes cs) := Document.commentLines_ofText cs
  rw [indentation, exempt, onLines, show (Document.ofText .css cs).source = ⟨cs⟩ from rfl, linesOf_eq,
    List.filterMap_map]
  by_cases feed : cs.getLast? = some '\n'
  · obtain ⟨front, rfl⟩ := List.getLast?_eq_some_iff.mp feed
    have parted : Source.pieces ⟨front ++ ['\n']⟩ = splitBy (· == '\n') front ++ [[]] :=
      Source.splitBy_append front []
    have count : Source.lineCount ⟨front ++ ['\n']⟩ = (splitBy (· == '\n') front).length := by
      simp [Source.lineCount, Source.endsLine, parted]
    have starts : Source.lineStarts ⟨front ++ ['\n']⟩ =
        (.start :: Source.lineStartsFrom .start front) ++ [Position.start.after (front ++ ['\n'])] :=
      congrArg (Position.start :: ·) (Source.lineStartsFrom_append .start front [])
    have lengths : (Position.start :: Source.lineStartsFrom .start front).length =
        (splitBy (· == '\n') front).length := by
      rw [List.length_cons, Source.length_lineStartsFrom, Source.length_splitBy]
    have before : (Source.lineStarts ⟨front ++ ['\n']⟩).zip (splitBy (· == '\n') front) =
        Source.rows .start front := by
      rw [starts, ← List.append_nil (splitBy _ front), List.zip_append lengths, List.zip_nil_right,
        List.append_nil]
      rfl
    have last : tellIndent (Css.continuations 1 (Css.lexemes (front ++ ['\n'])))
        (Position.start.after (front ++ ['\n']), []) = none := by
      simp [tellIndent, Source.content, stripTail]
    rw [parted, count, List.take_left, before, Source.rows_append,
      Source.rows_of_not_mem _ List.not_mem_nil, List.filterMap_append, List.filterMap_cons_none last,
      List.filterMap_nil, List.append_nil]
    rfl
  · have all : Source.lineCount ⟨cs⟩ = (Source.pieces ⟨cs⟩).length := by
      simp [Source.lineCount, Source.endsLine, feed]
    rw [all, List.take_length]
    rfl

/-! ### One line -/

/-- A finding where an edit moves it. -/
def moveFinding (e : Edit) (f : Finding) : Finding := { f with span := e.moveSpan f.span }

theorem isIndent_takeWhile (cs : List Char) : IsIndent (cs.takeWhile isSpacing) := by
  intro c member
  have spacing := List.mem_takeWhile_imp member
  simpa [isSpacing] using spacing

theorem isSpacing_of_isIndent (indent : IsIndent s) : ∀ c ∈ s, isSpacing c := by
  intro c member
  rcases indent c member with rfl | rfl <;> rfl

theorem mendIndent_move {e : Edit} (spares : e.Spares start s) :
    mendIndent (e.move start) s = (mendIndent start s).map (moveFinding e) := by
  rw [mendIndent, mendIndent, ← spares.moveSpan]
  split_ifs <;> rfl

/-- A line that an edit moves along is told of as before, if it is still the same line. -/
theorem tellIndent_move {e : Edit} {row : Position × List Char} (spares : e.Spares row.1 row.2)
    (same : (e.move row.1).line = row.1.line) :
    tellIndent exempt (Source.moveRow e row) = (tellIndent exempt row).map (moveFinding e) := by
  have left : e.Spares row.1 ((Source.content row.2).takeWhile isSpacing) := by
    obtain ⟨more, whole⟩ : (Source.content row.2).takeWhile isSpacing <+: row.2 :=
      (List.takeWhile_prefix _).trans (getD_stripTail_leads ['\r'] row.2)
    rw [← whole] at spares
    exact spares.left
  simp only [tellIndent, Source.moveRow, same, mendIndent_move left]
  split_ifs <;> rfl

/-- What is told of an indent covers it. -/
theorem span_of_mendIndent (found : f ∈ mendIndent start s) : f.span = .covering start s ∧ s ≠ [] := by
  rw [mendIndent] at found
  split_ifs at found with tab odd
  · rw [← Option.some.inj found]
    refine ⟨rfl, ?_⟩
    rintro rfl
    cases tab
  · rw [← Option.some.inj found]
    refine ⟨rfl, ?_⟩
    rintro rfl
    cases odd
  · cases found

/-- **What is told of a line** is told of its indent. If another indent stands there, it is told of by
itself. -/
theorem exists_of_tellIndent {piece : List Char} (found : f ∈ tellIndent exempt (start, piece)) :
    exempt.any (·.covers start.line) = false ∧ ∃ s more, piece = s ++ more ∧ IsIndent s ∧
      f ∈ mendIndent start s ∧ ∀ put exempt', IsIndent put → tellIndent exempt' (start, put ++ more) =
        if exempt'.any (·.covers start.line) then none else mendIndent start put := by
  rw [tellIndent] at found
  dsimp only at found
  split_ifs at found with aside whole
  · cases found
  · cases found
  obtain ⟨rest, ends⟩ : Source.content piece <+: piece := getD_stripTail_leads ['\r'] piece
  obtain ⟨c, body, text⟩ : ∃ c body, (Source.content piece).dropWhile isSpacing = c :: body := by
    refine List.exists_cons_of_ne_nil fun none_ => whole ?_
    have parted := List.takeWhile_append_dropWhile (p := isSpacing) (l := Source.content piece)
    rw [none_, List.append_nil] at parted
    rw [parted]
  have solid : isSpacing c = false := by
    have first := List.head?_dropWhile_not isSpacing (Source.content piece)
    rw [text] at first
    exact first
  have parted : piece = (Source.content piece).takeWhile isSpacing ++ (c :: (body ++ rest)) := by
    rw [← List.cons_append, ← text, ← List.append_assoc, List.takeWhile_append_dropWhile, ends]
  have left : Source.content (c :: (body ++ rest)) = c :: body := by
    have both := congrArg Source.content parted
    rw [Source.content_append (List.cons_ne_nil _ _)] at both
    nth_rewrite 1 [← List.takeWhile_append_dropWhile (p := isSpacing) (l := Source.content piece)] at both
    rw [text] at both
    exact (List.append_cancel_left both).symm
  refine ⟨by simpa using aside, _, _, parted, isIndent_takeWhile _, found, ?_⟩
  intro put exempt' indent
  have taken : (put ++ c :: body).takeWhile isSpacing = put :=
    takeWhile_append_stop (isSpacing_of_isIndent indent) (by simpa using solid)
  rw [tellIndent, Source.content_append (List.cons_ne_nil _ _), left, taken]
  simp

theorem replace_tabs (s : List Char) : replace ['\t'] [' ', ' '] s =
    s.flatMap fun c => if c = '\t' then [' ', ' '] else [c] := by
  show replace.go '\t' [] [' ', ' '] s = _
  induction s with
  | nil => rw [replace.go, List.flatMap_nil]
  | cons c s ih =>
      rw [replace.go]
      by_cases same : c = '\t'
      · subst same
        simp [List.isPrefixOf, ih]
      · simp [List.isPrefixOf, Ne.symm same, ih, same]

/-- With two spaces for each tab, an indent is all spaces. -/
theorem replace_tabs_indent (indent : IsIndent s) : replace ['\t'] [' ', ' '] s =
    List.replicate (2 * s.count '\t' + s.count ' ') ' ' := by
  rw [replace_tabs]
  induction s with
  | nil => rfl
  | cons c s ih =>
      obtain ⟨own, others⟩ := List.forall_mem_cons.mp indent
      rw [List.flatMap_cons, ih others]
      rcases own with rfl | rfl
      · simp [List.replicate_succ, ← Nat.add_assoc]
      · simp [List.replicate_succ, Nat.mul_add, Nat.add_right_comm]

theorem isSome_mendIndent_spaces (n : Nat) :
    (mendIndent start (List.replicate n ' ')).isSome ↔ n % 2 = 1 := by
  have none_ : (List.replicate n ' ').contains '\t' = false := by simp
  rw [mendIndent, none_, List.length_replicate]
  by_cases odd : n % 2 = 1
  · simp [odd]
  · simp [odd]

theorem isIndent_replicate (n : Nat) : IsIndent (List.replicate n ' ') := by
  intro c member
  exact .inl (List.eq_of_mem_replicate member)

/-- The indent that takes the place of one that is told of. -/
theorem exists_mended (indent : IsIndent s) (found : f ∈ mendIndent start s) :
    ∃ fix ∈ f.fix, IsIndent fix.replacement.toList ∧
      ((mendIndent start fix.replacement.toList).isSome ↔ '\t' ∈ s ∧ s.count ' ' % 2 = 1) := by
  rw [mendIndent] at found
  split_ifs at found with tab odd
  · rw [← Option.some.inj found]
    refine ⟨_, rfl, ?_, ?_⟩
    · rw [String.toList_ofList, replace_tabs_indent indent]
      exact isIndent_replicate _
    · rw [String.toList_ofList, replace_tabs_indent indent, isSome_mendIndent_spaces]
      rw [List.contains_iff_mem] at tab
      rw [and_iff_right tab]
      omega
  · rw [← Option.some.inj found]
    refine ⟨_, rfl, ?_, ?_⟩
    · rw [String.toList_ofList]
      exact isIndent_replicate _
    · rw [List.contains_iff_mem] at tab
      rw [String.toList_ofList, isSome_mendIndent_spaces]
      refine iff_of_false ?_ fun both => tab both.1
      have some_ : s.length % 2 = 1 := by simpa using odd
      omega
  · cases found

/-! ### All lines -/

theorem start_of_tellIndent {row : Position × List Char} (found : f ∈ tellIndent exempt row) :
    f.span.start = row.1 := by
  obtain ⟨-, s, more, -, -, own, -⟩ := exists_of_tellIndent found
  rw [(span_of_mendIndent own).1]
  rfl

section Told

variable {above below : List (Position × List Char)} {row : Position × List Char}

/-- What is told of other lines than one. -/
theorem filter_tellIndent (apart : ∀ other ∈ above ++ below, other.1.line ≠ row.1.line) :
    ((above ++ row :: below).filterMap (tellIndent exempt)).filter
        (fun f => f.span.start.line ≠ row.1.line) = (above ++ below).filterMap (tellIndent exempt) := by
  have others : ∀ rows ⊆ above ++ below, (rows.filterMap (tellIndent exempt)).filter
      (fun f => f.span.start.line ≠ row.1.line) = rows.filterMap (tellIndent exempt) := by
    intro rows fewer
    refine List.filter_eq_self.mpr fun f told => ?_
    obtain ⟨other, member, found⟩ := List.mem_filterMap.mp told
    simpa [start_of_tellIndent found] using apart other (fewer member)
  have own : ([row].filterMap (tellIndent exempt)).filter (fun f => f.span.start.line ≠ row.1.line) = [] := by
    refine List.filter_eq_nil_iff.mpr fun f told => ?_
    obtain ⟨same, member, found⟩ := List.mem_filterMap.mp told
    simp [start_of_tellIndent found, List.mem_singleton.mp member]
  rw [← List.singleton_append, List.filterMap_append, List.filterMap_append, List.filter_append,
    List.filter_append, own, others above (List.subset_append_left _ _),
    others below (List.subset_append_right _ _), List.nil_append, List.filterMap_append]

/-- What is told of a line. -/
theorem exists_tellIndent (apart : ∀ other ∈ above ++ below, other.1.line ≠ row.1.line) :
    (∃ f ∈ (above ++ row :: below).filterMap (tellIndent exempt), f.span.start.line = row.1.line) ↔
      (tellIndent exempt row).isSome := by
  constructor
  · rintro ⟨f, told, same⟩
    obtain ⟨other, member, found⟩ := List.mem_filterMap.mp told
    rw [start_of_tellIndent found] at same
    rcases eq_or_ne other row with rfl | different
    · rw [found]
      rfl
    · refine absurd same (apart other ?_)
      simp only [List.mem_append, List.mem_cons] at member ⊢
      tauto
  · intro some_
    obtain ⟨f, found⟩ := Option.isSome_iff_exists.mp some_
    exact ⟨f, List.mem_filterMap.mpr ⟨row, by simp, found⟩, by rw [start_of_tellIndent found]⟩

/-- What is told of lines that an edit moves along. -/
theorem filterMap_moveRow {e : Edit} {rows : List (Position × List Char)}
    (spared : ∀ row ∈ rows, e.Spares row.1 row.2 ∧ (e.move row.1).line = row.1.line) :
    (rows.map (Source.moveRow e)).filterMap (tellIndent exempt) =
      (rows.filterMap (tellIndent exempt)).map (moveFinding e) := by
  rw [List.filterMap_map, List.map_filterMap]
  exact List.filterMap_congr fun row member =>
    tellIndent_move (spared row member).1 (spared row member).2

end Told

/-! ### The edit -/

/-- An edit that puts what a fix suggests in the place of the indent at the beginning of a line. -/
structure Reindents (e : Edit) (cs : List Char) (span : Span) (fix : Option Fix) : Prop where
  old : e.old = cs
  begins : e.before = [] ∨ e.before.getLast? = some '\n'
  indent : IsIndent e.cut
  span : e.span = span
  put : fix.map (·.replacement.toList) = some e.put

/-- What is taken away is what stands in the place of the finding. -/
theorem Reindents.slice {e : Edit} {span : Span} {fix : Option Fix} (edit : Reindents e cs span fix) :
    Source.slice ⟨cs⟩ span = e.cut := by
  rw [← edit.old, ← edit.span]
  exact Source.slice_of_holds ⟨e.before, ⟨e.after, by simp [Edit.old, Passage.whole]⟩, rfl⟩

/-- The edit takes away the spacing in front of a byte order mark that then stands first. -/
def Unveils (e : Edit) : Prop := e.before = [] ∧ e.put = [] ∧ e.after.head? = some '\uFEFF'

/-- Lines and columns stay, though bytes may have come or gone. -/
def SamePlaces (s t : Span) : Prop :=
  s.start.line = t.start.line ∧ s.start.column = t.start.column ∧
    s.finish.line = t.finish.line ∧ s.finish.column = t.finish.column

/-- **What the fix of an indent leaves to be told of**: of the line itself, and of the other lines. -/
theorem exists_reindents (found : f ∈ indentation (.ofText .css cs)) : ∃ e, Reindents e cs f.span f.fix ∧
    ((∃ f' ∈ indentation (.ofText .css e.new), f'.span.start.line = f.span.start.line) ↔
      '\t' ∈ e.cut ∧ e.cut.count ' ' % 2 = 1) ∧
    (¬ Unveils e →
      (indentation (.ofText .css e.new)).filter (fun f' => f'.span.start.line ≠ f.span.start.line) =
        ((indentation (.ofText .css cs)).filter fun f' => f'.span.start.line ≠ f.span.start.line).map
          (moveFinding e)) ∧
    ∀ f' ∈ indentation (.ofText .css cs), f'.span.start.line ≠ f.span.start.line →
      SamePlaces (e.moveSpan f'.span) f'.span := by
  rw [indentation_ofText] at found
  obtain ⟨⟨start, piece⟩, member, own⟩ := List.mem_filterMap.mp found
  obtain ⟨passed, rest, whole, place, plain, begins, ends⟩ := Source.exists_of_mem_rows member
  obtain ⟨heard, s, more, rfl, indent, ofIndent, others⟩ := exists_of_tellIndent own
  obtain ⟨fix, fixed, indent', again⟩ := exists_mended indent ofIndent
  obtain ⟨span, some_⟩ := span_of_mendIndent ofIndent
  dsimp only at whole place plain
  subst place
  let e : Edit := ⟨passed, s, fix.replacement.toList, more ++ rest, some_⟩
  obtain rfl : e.old = cs := by simp [e, Edit.old, whole]
  have line : f.span.start.line = e.start.line := by rw [span]; rfl
  have level : e.finish.line = e.start.line ∧ e.span.finish.line = e.start.line := by
    rw [Edit.finish, Edit.span, Span.covering_finish, Position.line_after, Position.line_after,
      List.count_eq_zero_of_not_mem indent'.newline_notMem,
      List.count_eq_zero_of_not_mem indent.newline_notMem]
    exact ⟨rfl, rfl⟩
  have plain' : '\n' ∉ e.put ++ more := by
    simp only [List.mem_append, not_or] at plain ⊢
    exact ⟨indent'.newline_notMem, plain.2⟩
  obtain ⟨above, below, oldRows, newRows, apart⟩ :=
    Source.exists_rows (e := e) begins rfl ends plain plain'
  have elsewhere : ∀ {p : Position}, p.line ≠ e.start.line →
      (e.move p).line = p.line ∧ (e.move p).column = p.column := by
    intro p other
    exact Edit.move_elsewhere (level.1.trans level.2.symm) (by rwa [level.2])
  have away : ∀ row ∈ above.map (Source.moveRow e) ++ below.map (Source.moveRow e),
      row.1.line ≠ e.start.line := by
    rw [← List.map_append]
    intro row member
    obtain ⟨row, inside, rfl⟩ := List.mem_map.mp member
    rw [Source.moveRow, (elsewhere (apart row inside).2).1]
    exact (apart row inside).2
  have exempt : ¬ Unveils e → Css.continuations 1 (Css.lexemes e.new) =
      Css.continuations 1 (Css.lexemes e.old) := by
    intro kept
    refine Css.continuations_reindented begins indent' indent fun first none_ => ?_
    exact fun mark => kept ⟨first, none_.resolve_right some_, mark⟩
  rw [line]
  refine ⟨e, ⟨rfl, begins, indent, span.symm, by rw [fixed]; rfl⟩, ?_, fun kept => ?_, ?_⟩
  · rw [indentation_ofText, newRows]
    refine Iff.trans (exists_tellIndent away) ?_
    refine Iff.trans ?_ again
    rw [show tellIndent _ (e.start, e.put ++ more) = _ from others e.put _ indent']
    by_cases unveils : Unveils e
    · rw [show fix.replacement.toList = [] from unveils.2.1, show e.put = [] from unveils.2.1]
      split <;> rfl
    · rw [exempt unveils, heard]
      rfl
  · rw [indentation_ofText, indentation_ofText, newRows, oldRows, exempt kept]
    have apart' : ∀ row ∈ above ++ below, row.1.line ≠ (e.start, e.cut ++ more).1.line :=
      fun row member => (apart row member).2
    have away' : ∀ row ∈ above.map (Source.moveRow e) ++ below.map (Source.moveRow e),
        row.1.line ≠ (e.start, e.put ++ more).1.line := away
    refine Eq.trans (filter_tellIndent away') ?_
    rw [filter_tellIndent apart', ← List.map_append, filterMap_moveRow fun row member =>
      ⟨(apart row member).1, (elsewhere (apart row member).2).1⟩]
  · intro f' told other
    rw [indentation_ofText] at told
    obtain ⟨⟨place, _⟩, -, found'⟩ := List.mem_filterMap.mp told
    obtain ⟨-, s', _, rfl, indent'', ofIndent', -⟩ := exists_of_tellIndent found'
    obtain ⟨span', -⟩ := span_of_mendIndent ofIndent'
    rw [span'] at other ⊢
    have same : (place.after s').line = place.line := by
      rw [Position.line_after, List.count_eq_zero_of_not_mem indent''.newline_notMem, Nat.add_zero]
    obtain ⟨startLine, startColumn⟩ := elsewhere other
    obtain ⟨finishLine, finishColumn⟩ := elsewhere (p := place.after s') (by rwa [same])
    exact ⟨startLine, startColumn, finishLine, finishColumn⟩

end Rules

/-! ## Diagnostics -/

theorem Css.source_notMem_blockSubjects {block : Block Item}
    (nested : ∀ item ∈ block.nested, .source ∉ item.subjects) : .source ∉ blockSubjects block := by
  intro member
  rcases mem_blockSubjects.mp member with same | ⟨d, -, same⟩ | ⟨c, -, same⟩ | ⟨item, found, inside⟩
  · cases same
  · cases same
  · cases same
  · exact nested item found inside

theorem Css.source_notMem_itemsSubjects {items : List Item} (each : ∀ item ∈ items, .source ∉ item.subjects) :
    .source ∉ itemsSubjects items := by
  intro member
  obtain ⟨item, found, inside⟩ := mem_itemsSubjects.mp member
  exact each item found inside

theorem Css.Item.source_notMem_subjects (item : Item) : .source ∉ item.subjects := by
  refine Item.of_children (P := fun item => .source ∉ item.subjects) (fun item children => ?_) item
  cases item with
  | style rule =>
      rw [Item.subjects]
      exact List.not_mem_cons_of_ne_of_not_mem nofun (source_notMem_blockSubjects children)
  | atRule rule =>
      obtain ⟨name, nameSpan, prelude, preludeSpan, preludeTokens, body, span⟩ := rule
      rw [Item.subjects]
      refine List.not_mem_cons_of_ne_of_not_mem nofun ?_
      cases body with
      | statement => simp [bodySubjects]
      | declarations block =>
          rw [bodySubjects]
          exact source_notMem_blockSubjects children
      | rules opening closing items =>
          rw [bodySubjects]
          exact List.not_mem_cons_of_ne_of_not_mem nofun (source_notMem_itemsSubjects children)
  | declarations block =>
      rw [Item.subjects]
      exact source_notMem_blockSubjects children
  | comment c => simp [Item.subjects]

/-- The source is no piece of a stylesheet. -/
theorem Css.Sheet.source_notMem_subjects (sheet : Sheet) : .source ∉ sheet.subjects :=
  List.not_mem_cons_of_ne_of_not_mem nofun
    (source_notMem_itemsSubjects fun item _ => item.source_notMem_subjects)

theorem StyleGuide.indentation_of_id : ∀ r ∈ rules, r.id = "indentation" →
    r.check = Rules.onSource Rules.indentation ∧ r.targets = [.source] ∧ r.languages = [.html, .css] := by
  simp [rules, sharedRules, htmlRules, cssRules]

theorem Checker.runRule_indentation {r : Rule} (isRule : r ∈ StyleGuide.rules)
    (named : r.id = "indentation") (c : Checker) (file : Path) (cs : List Char) :
    (c.runRule file (.ofText .css cs) r).diagnostics =
      (Rules.indentation (.ofText .css cs)).map (r.diagnostic (c.severityOf r) file) := by
  obtain ⟨check, targets, languages⟩ := StyleGuide.indentation_of_id r isRule named
  have answer : ∀ s, ∃ findings, r.check (.ofText .css cs) s = .ok findings := by
    intro s
    rw [check]
    exact ⟨_, rfl⟩
  have aside : ∀ s ∈ (Document.ofText .css cs).subjects,
      r.found (c.severityOf r) file (.ofText .css cs) s = [] := by
    intro s member
    refine Rule.found_of_not_appliesTo (Bool.eq_false_iff.mpr fun applies => ?_)
    have isSource : s = .source := by
      cases s <;> simp_all [Rule.appliesTo, Subject.target]
    exact Css.Sheet.source_notMem_subjects _ (isSource ▸ member)
  rw [runRule, Rule.diagnostics_runOver fun s _ => answer s, List.flatMap_cons,
    List.flatMap_eq_nil_iff.mpr aside, List.append_nil, Rule.found_total check]
  simp [Rule.appliesTo, targets, languages, Subject.target, Target.language?, Document.language,
      Document.ofText]

/-- **Indents put in order.** What the rule tells of lies at the beginning of a line, which it has from spaces and
tabs, and its fix is an edit there. When it is made, the rule tells of that line again just if there was a
tab in the indent and the spaces in it were odd in number. What it tells of the other lines it told of them
before, on the same lines and in the same columns, unless the edit takes away the only space in front of a byte
order mark that then stands first. -/
theorem Document.indentation_mended {r : Rule} (isRule : r ∈ StyleGuide.rules)
    (named : r.id = "indentation") (c : Checker) (file : Path) {cs : List Char} {d : Diagnostic}
    (reported : d ∈ (c.runRule file (.ofText .css cs) r).diagnostics) :
    let told := fun text => (c.runRule file (.ofText .css text) r).diagnostics
    ∃ e, Rules.Reindents e cs d.span d.fix ∧
      let new := Source.splice ⟨cs⟩ d.span e.put
      ((∃ d' ∈ told new, d'.line = d.line) ↔ '\t' ∈ e.cut ∧ e.cut.count ' ' % 2 = 1) ∧
      (¬ Rules.Unveils e →
        (told new).filter (·.line ≠ d.line) = ((told cs).filter (·.line ≠ d.line)).map fun d' =>
          { d' with span := e.moveSpan d'.span }) ∧
      ∀ d' ∈ told cs, d'.line ≠ d.line → Rules.SamePlaces (e.moveSpan d'.span) d'.span := by
  intro told
  have tells : ∀ text, told text =
      (Rules.indentation (.ofText .css text)).map (r.diagnostic (c.severityOf r) file) :=
    Checker.runRule_indentation isRule named c file
  rw [show (c.runRule file (.ofText .css cs) r).diagnostics = told cs from rfl, tells] at reported
  obtain ⟨f, found, rfl⟩ := List.mem_map.mp reported
  obtain ⟨e, edit, again, others, places⟩ := Rules.exists_reindents found
  have spliced : Source.splice ⟨cs⟩ f.span e.put = e.new := by
    rw [← edit.old, ← edit.span]
    exact Source.splice_span e
  refine ⟨e, edit, ?_⟩
  intro new
  rw [show new = e.new from spliced, tells, tells]
  refine ⟨?_, fun kept => ?_, ?_⟩
  · rw [← again]
    simp only [List.mem_map, exists_exists_and_eq_and]
    rfl
  · rw [List.filter_map, List.filter_map, List.map_map]
    refine (congrArg (List.map (r.diagnostic (c.severityOf r) file)) (others kept)).trans ?_
    rw [List.map_map]
    rfl
  · intro d' told' other
    obtain ⟨f', found', rfl⟩ := List.mem_map.mp told'
    exact places f' found' other

/-- A tab in front of a selector makes way for two spaces, and its line is in order. -/
theorem Document.indentation_mended_tab :
    let text := "\ta\x7b\n b:c\x7d".toList
    let new := "  a\x7b\n b:c\x7d".toList
    ∃ r ∈ StyleGuide.rules, r.id = "indentation" ∧
      ∃ d ∈ (Checker.runRule {} ⟨"a.css"⟩ (.ofText .css text) r).diagnostics, d.line = 1 ∧
        ∃ e, Rules.Reindents e text d.span d.fix ∧ Source.splice ⟨text⟩ d.span e.put = new ∧
          ¬ ∃ d' ∈ (Checker.runRule {} ⟨"a.css"⟩ (.ofText .css new) r).diagnostics, d'.line = 1 := by
  intro text new
  let r := StyleGuide.sharedRules[1]
  have isRule : r ∈ StyleGuide.rules :=
    List.mem_append_left _ (List.mem_append_left _ (List.getElem_mem _))
  let d := r.diagnostic (Checker.severityOf {} r) ⟨"a.css"⟩
    ((Finding.saying ⟨⟨0, 1, 1⟩, ⟨1, 1, 2⟩⟩ "Indent with spaces, not tabs").suggest
      "Replace each tab with two spaces" [' ', ' '])
  have told : d ∈ (Checker.runRule {} ⟨"a.css"⟩ (.ofText .css text) r).diagnostics := by
    decide +kernel
  obtain ⟨e, edit, again, -, -⟩ := Document.indentation_mended isRule rfl {} ⟨"a.css"⟩ told
  have put : e.put = [' ', ' '] := (Option.some.inj edit.put).symm
  have spliced : Source.splice ⟨text⟩ d.span e.put = new := by
    rw [put]
    decide +kernel
  rw [spliced] at again
  have cut : e.cut = ['\t'] := by
    rw [← edit.slice]
    decide +kernel
  refine ⟨r, isRule, rfl, d, told, rfl, e, edit, spliced, fun reported => ?_⟩
  have odd := (again.mp reported).2
  rw [cut] at odd
  cases odd

/-- **Two spaces for a tab behind a space** are three spaces, and the rule tells of them again. Where the space
in front of a byte order mark goes, what was a function becomes an address, the comment in it is none any
more, and the rule tells of the line below. -/
theorem Document.indentation_misjudged :
    let text := " \tx\x7b\x7d".toList
    let marked := " \uFEFFurl(/*\n\tx*/)".toList
    ∃ r ∈ StyleGuide.rules, r.id = "indentation" ∧
      (∃ d ∈ (Checker.runRule {} ⟨"a.css"⟩ (.ofText .css text) r).diagnostics, ∃ fix ∈ d.fix,
        Source.splice ⟨text⟩ d.span fix.replacement.toList = "   x\x7b\x7d".toList ∧
        ∃ d' ∈ (Checker.runRule {} ⟨"a.css"⟩ (.ofText .css "   x\x7b\x7d".toList) r).diagnostics,
          d'.line = d.line) ∧
      (∀ d ∈ (Checker.runRule {} ⟨"a.css"⟩ (.ofText .css marked) r).diagnostics, d.line ≠ 2) ∧
      ∃ d ∈ (Checker.runRule {} ⟨"a.css"⟩ (.ofText .css marked) r).diagnostics, d.line = 1 ∧
        ∃ fix ∈ d.fix, ∃ d' ∈ (Checker.runRule {} ⟨"a.css"⟩ (.ofText .css
          (Source.splice ⟨marked⟩ d.span fix.replacement.toList)) r).diagnostics, d'.line = 2 := by
  refine ⟨StyleGuide.sharedRules[1],
    List.mem_append_left _ (List.mem_append_left _ (List.getElem_mem _)), rfl, ?_⟩
  decide +kernel

end PageLint
