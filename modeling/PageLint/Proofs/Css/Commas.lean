/-
# PageLint.Proofs.Css.Commas — what stands between two selectors

The parts that a prelude is cut into end with commas, all but the last (`isChain_splitAtCommas`). If
none of them is empty, each is a selector with trivia around it, so that between a selector and the
next one there stand trivia, one comma and trivia again (`Parted`, `exists_parted`).
-/
import PageLint.Proofs.Css.Selectors
import PageLint.Proofs.Css.Splice

namespace PageLint

set_option autoImplicit false

open Text

theorem notMem_textOf {κ : Type} {c : Char} {ts : List (Token κ)} (each : ∀ t ∈ ts, c ∉ t.text) :
    c ∉ textOf ts := by
  intro inside
  obtain ⟨text, isText, here⟩ := List.mem_flatten.mp inside
  obtain ⟨t, member, rfl⟩ := List.mem_map.mp isText
  exact each t member here

namespace Css

variable {cs : List Char} {origin : Position} {ts prelude front before after back : Tokens}
  {comma : Token TokenKind} {s s' : Selector} {span : Span}

/-- Where tokens stand that follow each other. -/
theorem spanOf_split (split : tokenize cs origin = front ++ (ts ++ back)) (some_ : spanOf? ts = some span) :
    span = .covering (origin.after (textOf front)) (textOf ts) := by
  rw [spanOf?] at some_
  split at some_
  next first last head final =>
    obtain ⟨more, rfl⟩ := List.head?_eq_some_iff.mp head
    obtain ⟨init, whole⟩ := List.getLast?_eq_some_iff.mp final
    have begins : tokenize cs origin = front ++ first :: (more ++ back) := split
    have ends : tokenize cs origin = (front ++ init) ++ last :: back := by
      rw [split, whole]
      simp
    rw [← Option.some.inj some_, span_of_split begins, span_of_split ends, whole]
    simp only [Span.covering, textOf_append, Position.after_append]
    simp [textOf]
  next => cases some_

/-- **A comma with trivia around it stands between two selectors.** -/
structure Parted (ts : Tokens) (s s' : Selector) (front before : Tokens) (comma : Token TokenKind)
    (after back : Tokens) : Prop where
  split : ts = front ++ (s.tokens ++ (before ++ comma :: (after ++ (s'.tokens ++ back))))
  isComma : comma.kind = .comma
  before : ∀ t ∈ before, isTrivia t
  after : ∀ t ∈ after, isTrivia t
  first : spanOf? s.tokens = some s.span
  second : spanOf? s'.tokens = some s'.span

/-- Each part but the last ends with a comma. -/
theorem isChain_splitAtCommas (depth : Nat) (ts : Tokens) :
    (splitAtCommas depth ts).IsChain fun part _ => ∃ comma ∈ part.2, comma.kind = .comma := by
  induction ts generalizing depth with
  | nil => exact .singleton _
  | cons t ts ih =>
      rw [splitAtCommas]
      split
      next comma =>
        have later := ih depth
        cases parts : splitAtCommas depth ts with
        | nil => exact .singleton _
        | cons part parts =>
            rw [parts] at later
            exact .cons_cons ⟨t, rfl, comma.1⟩ later
      next =>
        dsimp only
        generalize (if opensBracket t then depth + 1 else if closesBracket t then depth - 1
          else depth) = level
        have later := ih level
        split
        next part comma parts split =>
          rw [split] at later
          cases parts with
          | nil => exact .singleton _
          | cons other parts =>
              obtain ⟨ends, others⟩ := List.isChain_cons_cons.mp later
              exact .cons_cons ends others
        next => exact .singleton _

/-- An empty part is all that can be wrong with a prelude. -/
theorem fault_readSelectors (prelude : Tokens) :
    ∀ issue ∈ (readSelectors prelude).2, issue.fault = .emptySelector := by
  rw [readSelectors_eq]
  split
  · simp
  next last _ => exact (foldr_addPart last (splitAtCommas 0 prelude)).2.2.1

/-- Where no part is empty, each one is a selector. -/
theorem tokens_of_whole (some_ : prelude ≠ []) (whole : (readSelectors prelude).2 = []) :
    (readSelectors prelude).1.map Selector.tokens =
        (splitAtCommas 0 prelude).map (fun part => trimTrivia part.1) ∧
      ∀ s ∈ (readSelectors prelude).1, spanOf? s.tokens = some s.span := by
  rw [readSelectors_eq, List.getLast?_eq_getLast_of_ne_nil some_] at whole ⊢
  obtain ⟨tokens, made, -, count⟩ :=
    foldr_addPart (prelude.getLast some_) (splitAtCommas 0 prelude)
  have lengths := congrArg List.length tokens
  rw [List.length_map] at lengths
  rw [whole, List.length_nil, Nat.add_zero, lengths,
    ← List.length_map fun part : Tokens × Option (Token TokenKind) => trimTrivia part.1] at count
  exact ⟨tokens.trans (List.filter_eq_self.mpr (List.length_filter_eq_length_iff.mp count)),
    fun s member => (made s member).2⟩

theorem exists_of_mem_neighbours {α : Type} {x y : α} {xs : List α} (pair : (x, y) ∈ xs.zip xs.tail) :
    ∃ front back, xs = front ++ x :: y :: back := by
  induction xs with
  | nil => cases pair
  | cons z zs ih =>
      cases zs with
      | nil => cases pair
      | cons w ws =>
          rcases List.mem_cons.mp pair with same | later
          · obtain ⟨rfl, rfl⟩ := Prod.mk.inj same
            exact ⟨[], ws, rfl⟩
          · obtain ⟨front, back, whole⟩ := ih later
            exact ⟨z :: front, back, congrArg (z :: ·) whole⟩

/-- **Between two selectors stands one comma**, if no part of the prelude is empty. -/
theorem exists_parted (inside : prelude <:+: ts) (whole : (readSelectors prelude).2 = [])
    (pair : (s, s') ∈ (readSelectors prelude).1.zip (readSelectors prelude).1.tail) :
    ∃ front before comma after back, Parted ts s s' front before comma after back := by
  obtain ⟨earlier, later, selectors⟩ := exists_of_mem_neighbours pair
  have some_ : prelude ≠ [] := by
    rintro rfl
    cases pair
  obtain ⟨tokens, made⟩ := tokens_of_whole some_ whole
  rw [selectors, List.map_append, List.map_cons, List.map_cons, eq_comm] at tokens
  obtain ⟨lead, rest, parts, -, rest'⟩ := List.map_eq_append_iff.mp tokens
  obtain ⟨part, others, rfl, own, others'⟩ := List.map_eq_cons_iff.mp rest'
  obtain ⟨next, trail, rfl, own', -⟩ := List.map_eq_cons_iff.mp others'
  have chain := isChain_splitAtCommas 0 prelude
  rw [parts] at chain
  obtain ⟨comma, ends, kind⟩ := (List.isChain_cons_cons.mp chain.right_of_append).1
  obtain ⟨⟨front, before, around, inFront, inBefore⟩, -⟩ := own ▸ trims_trimTrivia part.1
  obtain ⟨⟨after, back, around', inAfter, inBack⟩, -⟩ := own' ▸ trims_trimTrivia next.1
  have text := flatMap_splitAtCommas 0 prelude
  obtain ⟨first, last, rfl⟩ := inside
  rw [parts, List.flatMap_append, List.flatMap_cons, List.flatMap_cons, around, around',
    show part.2 = some comma from ends] at text
  refine ⟨first ++ (lead.flatMap (fun part => part.1 ++ part.2.toList) ++ front), before, comma, after,
    back ++ next.2.toList ++ trail.flatMap (fun part => part.1 ++ part.2.toList) ++ last,
    ?_, kind, inBefore, inAfter, made s ?_, made s' ?_⟩
  · rw [← text]
    simp
  · rw [selectors]
    simp
  · rw [selectors]
    simp

namespace Parted

variable (parted : Parted (tokenize cs origin) s s' front before comma after back)
include parted

theorem finish_first : s.span.finish = origin.after (textOf (front ++ s.tokens)) := by
  have split := parted.split
  rw [spanOf_split split parted.first, Span.covering_finish, textOf_append, Position.after_append]

theorem start_second : s'.span.start =
    s.span.finish.after (textOf (before ++ comma :: after)) := by
  have split : tokenize cs origin =
      (front ++ (s.tokens ++ (before ++ comma :: after))) ++ (s'.tokens ++ back) := by
    simp [parted.split]
  rw [spanOf_split split parted.second, parted.finish_first, Span.covering_start]
  simp only [textOf_append, Position.after_append]

theorem textOf_comma : comma.text = [','] := by
  have member : comma ∈ tokenize cs origin := by simp [parted.split]
  exact text_of_sign (d := ',') (by decide) (mem_of_mem_locate member) parted.isComma

/-- The comma stands behind the trivia after the first selector. -/
theorem span_comma : comma.span = .covering (s.span.finish.after (textOf before)) [','] := by
  have split : tokenize cs origin =
      (front ++ (s.tokens ++ before)) ++ comma :: (after ++ (s'.tokens ++ back)) := by
    simp [parted.split]
  rw [span_of_split split, parted.textOf_comma, parted.finish_first]
  simp only [textOf_append, Position.after_append]

end Parted

/-- What stands between the two selectors. -/
theorem Parted.slice (parted : Parted (tokenize cs .start) s s' front before comma after back) :
    Source.slice ⟨cs⟩ ⟨s.span.finish, s'.span.start⟩ = textOf (before ++ comma :: after) := by
  have split : tokenize cs .start =
      (front ++ s.tokens) ++ ((before ++ comma :: after) ++ (s'.tokens ++ back)) := by
    simp [parted.split]
  have holds : (Passage.whole cs).Holds s.span.finish (textOf (before ++ comma :: after)) := by
    refine ⟨textOf (front ++ s.tokens), ⟨textOf (s'.tokens ++ back), ?_⟩, parted.finish_first⟩
    conv_rhs => rw [show (Passage.whole cs).text = cs from rfl, textOf_split split]
    rw [textOf_append, textOf_append (before ++ comma :: after)]
    simp
  rw [parted.start_second]
  exact Source.slice_of_holds holds

end Css

end PageLint
