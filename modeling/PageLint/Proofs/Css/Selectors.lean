/-
# PageLint.Proofs.Css.Selectors — a prelude is cut exactly at its commas

`splitAtCommas` walks over the tokens of a prelude and keeps count of the brackets. What it answers
is said here by places alone: `outerCommas` are the commas before which no bracket is open, and
`segments` are the stretches between them (`map_fst_splitAtCommas`). The selectors of a prelude are
those of its segments that hold more than trivia, and each of the others is a fault
(`readSelectors_exact`), whether its brackets match or not.
-/
import PageLint.Proofs.Css.Layout
import PageLint.Proofs.Css.Segments

namespace PageLint.Css

set_option autoImplicit false

open Text

variable {t : Token TokenKind} {ts part : Tokens} {depth : Nat}

/-! ## Commas outside brackets -/

/-- The places of the commas of `ts` before which no bracket is open, `depth` of which are open
before `ts`. -/
def outerCommas (depth : Nat) (ts : Tokens) : List Nat :=
  (List.range ts.length).filter fun i =>
    ts[i]?.any (·.kind == .comma) && depthAfter opensBracket closesBracket depth (ts.take i) == 0

/-- What stands before, between and behind the tokens at `cuts`. -/
def segments (ts : Tokens) (cuts : List Nat) : List Tokens :=
  List.zipWith (fun start stop => (ts.take stop).drop start)
    (0 :: cuts.map (· + 1)) (cuts ++ [ts.length])

theorem outerCommas_cons (depth : Nat) (t : Token TokenKind) (ts : Tokens) :
    outerCommas depth (t :: ts) = (if t.kind = .comma ∧ depth = 0 then [0] else []) ++
      (outerCommas (if opensBracket t then depth + 1 else if closesBracket t then depth - 1
        else depth) ts).map (· + 1) := by
  have later : ((List.range ts.length).map Nat.succ).filter (fun i =>
      (t :: ts)[i]?.any (·.kind == .comma) &&
        depthAfter opensBracket closesBracket depth ((t :: ts).take i) == 0) =
      (outerCommas (if opensBracket t then depth + 1 else if closesBracket t then depth - 1
        else depth) ts).map (· + 1) := by
    rw [List.filter_map]
    rfl
  rw [outerCommas, List.length_cons, List.range_succ_eq_map, List.filter_cons, later]
  by_cases comma : t.kind = .comma ∧ depth = 0
  · simp [comma]
  · rw [if_neg comma, if_neg (by simpa using comma), List.nil_append]

/-- Without a comma outside brackets is just what has no place to cut. -/
theorem outerCommas_eq_nil : outerCommas depth ts = [] ↔
    ∀ front t back, ts = front ++ t :: back → t.kind = .comma →
      depthAfter opensBracket closesBracket depth front ≠ 0 := by
  rw [outerCommas, List.filter_eq_nil_iff]
  constructor
  · rintro nowhere front t back rfl comma none_
    refine nowhere front.length (List.mem_range.mpr (by simp)) ?_
    simp [comma, none_]
  · intro nowhere i inside cut
    rw [List.mem_range] at inside
    have split : ts = ts.take i ++ ts[i] :: ts.drop (i + 1) := by
      rw [List.getElem_cons_drop, List.take_append_drop]
    rw [List.getElem?_eq_getElem inside, Bool.and_eq_true] at cut
    exact nowhere _ _ _ split (by simpa using cut.1) (by simpa using cut.2)

theorem depthAfter_of_trivia (trivia : ∀ t ∈ ts, isTrivia t) :
    depthAfter opensBracket closesBracket depth ts = depth := by
  induction ts with
  | nil => rfl
  | cons t ts ih =>
      obtain ⟨own, later⟩ := List.forall_mem_cons.mp trivia
      have aside : opensBracket t = false ∧ closesBracket t = false := by
        rcases Bool.or_eq_true_iff.mp own with kind | kind <;>
          simp [opensBracket, closesBracket, eq_of_beq kind]
      rw [depthAfter_cons, aside.1, aside.2]
      exact ih later

/-- What is trimmed off at the front opens no bracket. -/
theorem Trims.outerCommas_eq_nil {kept : Tokens} (trims : Trims part kept)
    (none_ : outerCommas 0 part = []) : outerCommas 0 kept = [] := by
  obtain ⟨before, after, rfl, trivia, -⟩ := trims.around
  refine Css.outerCommas_eq_nil.mpr fun front t back split comma open_ => ?_
  subst split
  refine Css.outerCommas_eq_nil.mp none_ (before ++ front) t (back ++ after) (by simp) comma ?_
  rwa [depthAfter_append, depthAfter_of_trivia trivia]

/-! ## The cut -/

theorem segments_after (t : Token TokenKind) (ts : Tokens) (cuts : List Nat) :
    segments (t :: ts) (0 :: cuts.map (· + 1)) = [] :: segments ts cuts := by
  rw [segments, List.cons_append, List.map_cons, List.zipWith_cons_cons, segments]
  congr 1
  have stops : cuts.map (· + 1) ++ [(t :: ts).length] = (cuts ++ [ts.length]).map (· + 1) := by simp
  have starts : (0 + 1) :: (cuts.map (· + 1)).map (· + 1) = (0 :: cuts.map (· + 1)).map (· + 1) :=
    rfl
  rw [stops, starts, List.zipWith_map]
  rfl

theorem segments_cons (t : Token TokenKind) (ts : Tokens) (cuts : List Nat) :
    ∃ first others, segments ts cuts = first :: others ∧
      segments (t :: ts) (cuts.map (· + 1)) = (t :: first) :: others := by
  cases cuts with
  | nil => exact ⟨ts, [], by simp [segments], by simp [segments]⟩
  | cons cut cuts =>
      refine ⟨_, _, rfl, ?_⟩
      have stops : cuts.map (· + 1) ++ [(t :: ts).length] = (cuts ++ [ts.length]).map (· + 1) := by
        simp
      rw [segments, List.map_cons, List.cons_append, List.zipWith_cons_cons, stops, List.zipWith_map]
      rfl

/-- **Tokens are cut at just the commas outside brackets**: the parts are what lies between them. -/
theorem map_fst_splitAtCommas (depth : Nat) (ts : Tokens) :
    (splitAtCommas depth ts).map Prod.fst = segments ts (outerCommas depth ts) := by
  induction ts generalizing depth with
  | nil => rfl
  | cons t ts ih =>
      rw [splitAtCommas, outerCommas_cons]
      by_cases comma : t.kind = .comma ∧ depth = 0
      · have level : (if opensBracket t then depth + 1 else if closesBracket t then depth - 1
            else depth) = depth := by
          simp [opensBracket, closesBracket, comma.1]
        rw [if_pos comma, if_pos comma, level, List.map_cons, ih, List.singleton_append,
          segments_after]
      · rw [if_neg comma, if_neg comma, List.nil_append]
        dsimp only
        generalize (if opensBracket t then depth + 1 else if closesBracket t then depth - 1
          else depth) = level
        obtain ⟨first, others, segmented, longer⟩ := segments_cons t ts (outerCommas level ts)
        have parts := ih level
        rw [segmented] at parts
        rw [longer]
        obtain ⟨part, rest, split, rfl, rfl⟩ := List.map_eq_cons_iff.mp parts
        rw [split]
        rfl

/-- No part holds a comma outside brackets: those of the first one count from `depth`, all others
begin with no bracket open. -/
theorem outerCommas_splitAtCommas (depth : Nat) (ts : Tokens) :
    ∃ first others, splitAtCommas depth ts = first :: others ∧ outerCommas depth first.1 = [] ∧
      ∀ part ∈ others, outerCommas 0 part.1 = [] := by
  induction ts generalizing depth with
  | nil => exact ⟨_, _, rfl, rfl, by simp⟩
  | cons t ts ih =>
      rw [splitAtCommas]
      by_cases comma : t.kind = .comma ∧ depth = 0
      · obtain ⟨first, others, split, own, later⟩ := ih depth
        rw [if_pos comma]
        refine ⟨_, _, rfl, rfl, ?_⟩
        rw [split]
        exact List.forall_mem_cons.mpr ⟨comma.2 ▸ own, later⟩
      · rw [if_neg comma]
        dsimp only
        generalize level : (if opensBracket t then depth + 1 else if closesBracket t then depth - 1
          else depth) = depth'
        obtain ⟨first, others, split, own, later⟩ := ih depth'
        rw [split]
        refine ⟨_, _, rfl, ?_, later⟩
        rw [outerCommas_cons, if_neg comma, level, own]
        rfl

/-! ## Selectors -/

/-- What the parts of a prelude add up to. -/
theorem foldr_addPart (last : Token TokenKind)
    (parts : List (Tokens × Option (Token TokenKind))) :
    let read := parts.foldr (addPart last) ([], [])
    read.1.map Selector.tokens = (parts.map (trimTrivia ·.1)).filter (· ≠ []) ∧
      (∀ s ∈ read.1, s.text = textOf s.tokens ∧ spanOf? s.tokens = some s.span) ∧
      (∀ issue ∈ read.2, issue.fault = .emptySelector) ∧
      read.1.length + read.2.length = parts.length := by
  induction parts with
  | nil => exact ⟨rfl, by simp, by simp, rfl⟩
  | cons part parts ih =>
      obtain ⟨tokens, made, faults, count⟩ := ih
      rw [List.foldr_cons, addPart]
      cases span : spanOf? (trimTrivia part.1) with
      | none =>
          refine ⟨?_, made, List.forall_mem_cons.mpr ⟨rfl, faults⟩, ?_⟩
          · rw [tokens, List.map_cons, List.filter_cons_of_neg (by simpa using spanOf?_eq_none.mp span)]
          · rw [List.length_cons, List.length_cons, ← Nat.add_assoc, count]
      | some own =>
          have some_ : trimTrivia part.1 ≠ [] := fun nothing => by
            rw [spanOf?_eq_none.mpr nothing] at span
            cases span
          refine ⟨?_, List.forall_mem_cons.mpr ⟨⟨rfl, span⟩, made⟩, faults, ?_⟩
          · rw [List.map_cons, List.map_cons, List.filter_cons_of_pos (by simpa using some_), tokens]
          · exact (Nat.succ_add ..).trans (congrArg (· + 1) count)

/-- **Selector lists are cut exactly.** The selectors of a prelude are, in order, what is left of its
segments without trivia, where anything is; each has the text and the stretch of its tokens and holds
no comma outside brackets. Each segment of which nothing is left is told as a fault, so that selectors
and faults are one more than the commas outside brackets. -/
theorem readSelectors_exact {prelude : Tokens} (some_ : prelude ≠ []) :
    ∃ parts, List.Forall₂ Trims (segments prelude (outerCommas 0 prelude)) parts ∧
      (readSelectors prelude).1.map Selector.tokens = parts.filter (· ≠ []) ∧
      (∀ s ∈ (readSelectors prelude).1, s.text = textOf s.tokens ∧
        spanOf? s.tokens = some s.span ∧ outerCommas 0 s.tokens = []) ∧
      (∀ issue ∈ (readSelectors prelude).2, issue.fault = .emptySelector) ∧
      (readSelectors prelude).1.length + (readSelectors prelude).2.length =
        (outerCommas 0 prelude).length + 1 := by
  have read : readSelectors prelude =
      (splitAtCommas 0 prelude).foldr (addPart (prelude.getLast some_)) ([], []) := by
    rw [readSelectors_eq, List.getLast?_eq_getLast_of_ne_nil some_]
  obtain ⟨tokens, made, faults, count⟩ :=
    foldr_addPart (prelude.getLast some_) (splitAtCommas 0 prelude)
  rw [read]
  refine ⟨(splitAtCommas 0 prelude).map (trimTrivia ·.1), ?_, tokens, ?_, faults, ?_⟩
  · rw [← map_fst_splitAtCommas, List.forall₂_map_left_iff, List.forall₂_map_right_iff]
    exact List.forall₂_same.mpr fun part _ => trims_trimTrivia part.1
  · intro s member
    obtain ⟨text, span⟩ := made s member
    refine ⟨text, span, ?_⟩
    have own : s.tokens ∈ ((splitAtCommas 0 prelude).map (trimTrivia ·.1)).filter (· ≠ []) :=
      tokens ▸ List.mem_map_of_mem member
    obtain ⟨part, inParts, same⟩ := List.mem_map.mp (List.mem_of_mem_filter own)
    obtain ⟨first, others, split, front, later⟩ := outerCommas_splitAtCommas 0 prelude
    have uncut : outerCommas 0 part.1 = [] := by
      rw [split] at inParts
      rcases List.mem_cons.mp inParts with rfl | member
      exacts [front, later part member]
    exact same ▸ (trims_trimTrivia part.1).outerCommas_eq_nil uncut
  · have parts := congrArg List.length (map_fst_splitAtCommas 0 prelude)
    rw [List.length_map, segments, List.length_zipWith] at parts
    rw [count, parts]
    simp

/-- A bracket that is ended by the wrong sign, one too many, a segment of a comment alone, and a
bracket that is left open. -/
theorem readSelectors_exact_unmatched :
    let prelude := tokenize "a[b,c)]d, /**/,e(,".toList .start
    prelude ≠ [] ∧ outerCommas 0 prelude = [8, 11] ∧
      (readSelectors prelude).1.map (fun s => String.ofList s.text) = ["a[b,c)]d", "e(,"] ∧
      (readSelectors prelude).2.length = 1 ∧
      ∃ parts, List.Forall₂ Trims (segments prelude [8, 11]) parts ∧
        (readSelectors prelude).1.map Selector.tokens = parts.filter (· ≠ []) := by
  intro prelude
  have some_ : prelude ≠ [] := by decide +kernel
  have commas : outerCommas 0 prelude = [8, 11] := by decide +kernel
  have texts : (readSelectors prelude).1.map (fun s => String.ofList s.text) =
      ["a[b,c)]d", "e(,"] := by decide +kernel
  obtain ⟨parts, trims, tokens, -, -, count⟩ := readSelectors_exact some_
  rw [commas] at trims count
  refine ⟨some_, commas, texts, ?_, parts, trims, tokens⟩
  have two := congrArg List.length texts
  rw [List.length_map] at two
  rw [two] at count
  exact Nat.add_left_cancel count

end PageLint.Css
