/-
# PageLint.Proofs.Css.Recovery — going on after stray tokens

Tokens up to a `;` that begin neither a declaration nor an at-rule are `Malformed`. They are skipped
with one issue, and the question is where reading goes on.

In a block of declarations it goes on behind the `;`: the scan that skips an entry counts braces
alone, so brackets that are left open there do no harm (`Shell.Fine.build_malformed`).

Outside of blocks stray tokens end where a prelude would, and that scan counts brackets over all the
tokens that are left. Where the stray tokens close what they open, reading goes on behind the `;`;
where they leave a bracket open, all is skipped until one closes it (`buildItems_malformed`).
-/
import PageLint.Proofs.Css.Spelling

namespace PageLint.Css

set_option autoImplicit false

open Text

/-! ## Brackets left open -/

/-- How many brackets are open after a token, if `depth` were before. One too many that closes is
ignored. -/
def bracketsAfter (depth : Nat) (t : Token TokenKind) : Nat :=
  if opensBracket t then depth + 1 else if closesBracket t then depth - 1 else depth

/-- How many brackets are open after some tokens, if `depth` were before. -/
def openBrackets (depth : Nat) (ts : Tokens) : Nat := ts.foldl bracketsAfter depth

section Scans

variable {t first ending : Token TokenKind} {ts more rest : Tokens} {depth : Nat}

theorem preludeExtent_cons (goesOn : endsPrelude t → 0 < depth) (ts : Tokens) :
    preludeExtent depth (t :: ts) = preludeExtent (bracketsAfter depth t) ts + 1 := by
  rw [preludeExtent, bracketsAfter]
  split_ifs with opens closes ends
  · rfl
  · rfl
  · have positive := goesOn ends.1
    omega
  · rfl

/-- **The look ahead for a rule goes on** to the first brace or `;` at which no bracket is open. -/
theorem preludeExtent_append_open
    (goesOn : ∀ front t back, ts = front ++ t :: back → endsPrelude t → 0 < openBrackets depth front)
    (rest : Tokens) :
    preludeExtent depth (ts ++ rest) = ts.length + preludeExtent (openBrackets depth ts) rest := by
  induction ts generalizing depth with
  | nil => exact (Nat.zero_add _).symm
  | cons t ts ih =>
      have later : ∀ front u back, ts = front ++ u :: back → endsPrelude u →
          0 < openBrackets (bracketsAfter depth t) front :=
        fun front u back parted => goesOn (t :: front) u back (by rw [parted, List.cons_append])
      have here : preludeExtent depth (t :: (ts ++ rest)) =
          preludeExtent (bracketsAfter depth t) (ts ++ rest) + 1 :=
        preludeExtent_cons (goesOn [] t ts rfl) _
      rw [List.cons_append, here, ih later, List.length_cons, openBrackets, openBrackets,
        List.foldl_cons]
      omega

theorem preludeExtent_append_unparted (unparted : ∀ t ∈ ts, endsPrelude t = false) (rest : Tokens) :
    preludeExtent depth (ts ++ rest) = ts.length + preludeExtent (openBrackets depth ts) rest := by
  refine preludeExtent_append_open (fun front t back parted ends => ?_) rest
  have none_ := unparted t (by simp [parted])
  rw [ends] at none_
  cases none_

end Scans

/-! ## Malformed entries -/

/-- An identifier that a colon follows, with trivia between them. -/
def BeginsDeclaration (first : Token TokenKind) (more : Tokens) : Prop :=
  first.kind = .ident ∧ (more.dropWhile isTrivia).head?.any (·.kind == .colon)

instance (first : Token TokenKind) (more : Tokens) : Decidable (BeginsDeclaration first more) :=
  inferInstanceAs (Decidable (_ ∧ _))

/-- **A malformed entry**, up to its `;`: tokens without braces and `;` that begin neither trivia nor
a declaration nor an at-rule. -/
structure Malformed (first : Token TokenKind) (more : Tokens) : Prop where
  unparted : ∀ t ∈ first :: more, endsPrelude t = false
  solid : isTrivia first = false
  noKeyword : first.kind ≠ .atKeyword
  undeclared : ¬BeginsDeclaration first more

namespace Malformed

variable {first ending : Token TokenKind} {more rest : Tokens}

/-- It is read as no declaration. -/
theorem read?_eq_none (malformed : Malformed first more) (ends : ending.kind = .semicolon)
    (rest : Tokens) : Declaration.read? first (more ++ ending :: rest) = none := by
  have solid : isTrivia ending = false := by simp [isTrivia, ends]
  have undeclared := malformed.undeclared
  rw [BeginsDeclaration] at undeclared
  simp only [Declaration.read?, drop_length_takeWhile, List.dropWhile_append,
    List.dropWhile_cons_of_neg (Bool.eq_false_iff.mp solid)]
  cases left : more.dropWhile isTrivia with
  | nil => simp [ends]
  | cons u us =>
      rw [left] at undeclared
      have other : ¬(first.kind = .ident ∧ u.kind = .colon) := by simpa using undeclared
      simp [other]

/-- What it begins with is no brace, no `;` and no trivia. -/
theorem first_other (malformed : Malformed first more) :
    first.kind ∉ [TokenKind.blank, .semicolon, .comment, .braceClose, .atKeyword] ∧
      first.kind ≠ .braceOpen := by
  have unparted := malformed.unparted first List.mem_cons_self
  have solid := malformed.solid
  simp only [endsPrelude, isTrivia, Bool.or_eq_false_iff, beq_eq_false_iff_ne] at unparted solid
  simp only [List.mem_cons, List.not_mem_nil, or_false, not_or]
  exact ⟨⟨solid.1, unparted.1.2, solid.2, unparted.2, malformed.noKeyword⟩, unparted.1.1⟩

/-- The scan that skips an entry stops behind the `;`, whatever brackets are open. -/
theorem entryExtent_eq (malformed : Malformed first more) (ends : ending.kind = .semicolon)
    (rest : Tokens) : entryExtent 0 (first :: (more ++ ending :: rest)) = more.length + 2 := by
  have skips : ∀ ts : Tokens, (∀ t ∈ ts, endsPrelude t = false) →
      entryExtent 0 (ts ++ ending :: rest) = ts.length + 1 := by
    intro ts unparted
    induction ts with
    | nil => simp [entryExtent, ends]
    | cons t ts ih =>
        obtain ⟨first, others⟩ := List.forall_mem_cons.mp unparted
        simp only [endsPrelude, Bool.or_eq_false_iff, beq_eq_false_iff_ne] at first
        rw [List.cons_append, entryExtent, if_neg first.1.1, if_neg first.2,
          if_neg (fun stops => first.1.2 stops.1), ih others, List.length_cons]
  exact skips (first :: more) malformed.unparted

/-- It begins no rule, if what follows ends no prelude while a bracket is open. -/
theorem startsNestedRule_eq_false (malformed : Malformed first more)
    (ends : ending.kind = .semicolon)
    (goesOn : ∀ depth, 0 < depth → preludeExtent depth rest = rest.length) :
    startsNestedRule (first :: (more ++ ending :: rest)) = false := by
  have here : first :: (more ++ ending :: rest) = (first :: more) ++ ending :: rest := rfl
  rw [startsNestedRule, here, preludeExtent_append_unparted malformed.unparted]
  generalize openBrackets 0 (first :: more) = depth
  cases depth with
  | zero =>
      rw [preludeExtent_stop (by simp [endsPrelude, ends]), Nat.add_zero,
        List.getElem?_append_right (Nat.le_refl _), Nat.sub_self]
      simp [ends]
  | succ depth =>
      have plain : Plain ending := plain_of_kind (by simp [ends])
      rw [preludeExtent_plain plain (by omega), goesOn _ (Nat.succ_pos depth),
        List.getElem?_eq_none (by simp)]
      simp

/-- There is something to tell of it. -/
theorem exists_span (malformed : Malformed first more) (skipped : Tokens) :
    ∃ span, spanOf? (trimTrivia (first :: skipped)) = some span := by
  obtain ⟨-, span, -, covered⟩ := Builder.some_left skipped malformed.solid
    (Nat.succ_pos skipped.length)
  rw [List.take_succ_cons, List.take_length] at covered
  exact ⟨span, covered⟩

end Malformed

namespace Builder

variable {cap : Nat} {last : Position} {b : Builder} {first ending : Token TokenKind}
  {more rest : Tokens}

/-- **In a block, a malformed entry is skipped** through its `;`, with one issue. -/
theorem step_malformed_inBlock (malformed : Malformed first more) (inBlock : b.inBlock)
    (ends : ending.kind = .semicolon)
    (goesOn : ∀ depth, 0 < depth → preludeExtent depth rest = rest.length) :
    b.step cap last first (more ++ ending :: rest) =
      ⟨b, [⟨.strayInBlock first.text, ⟨first.span.start, ending.span.finish⟩⟩], more.length + 1⟩ := by
  have solid : isTrivia ending = false := by simp [isTrivia, ends]
  have taken : (first :: (more ++ ending :: rest)).take (more.length + 2) =
      first :: (more ++ [ending]) := by
    rw [List.take_succ_cons, List.take_length_add_append, List.take_succ_cons, List.take_zero]
  have trimmed : trimTrivia (first :: (more ++ [ending])) = first :: (more ++ [ending]) := by
    have final : ∀ t ∈ (first :: (more ++ [ending])).getLast?, isTrivia t = false := by
      rw [← List.cons_append, List.getLast?_concat]
      simp [solid]
    have kept : trimTrivia ([] ++ (first :: (more ++ [ending]) ++ [])) =
        first :: (more ++ [ending]) :=
      trimTrivia_between (by simp [malformed.solid]) final (List.cons_ne_nil _ _)
        (List.forall_mem_nil _) (List.forall_mem_nil _)
    rwa [List.nil_append, List.append_nil] at kept
  have span : spanOf? (first :: (more ++ [ending])) = some ⟨first.span.start, ending.span.finish⟩ := by
    rw [spanOf?, ← List.cons_append, List.getLast?_concat]
    rfl
  rw [step_other malformed.first_other.1, if_pos inBlock, takeEntry]
  simp only [malformed.startsNestedRule_eq_false ends goesOn, malformed.read?_eq_none ends,
    malformed.entryExtent_eq ends, taken, trimmed, span, List.head?_cons, Bool.false_eq_true, if_false]
  rfl

/-- **Outside of blocks, malformed tokens are skipped** up to where the look ahead for a rule ends,
with one issue, and a `;` there with them. -/
theorem step_malformed_outside (malformed : Malformed first more)
    (outside : first.kind ∉ [TokenKind.cdo, .cdc, .byteOrderMark]) (inBlock : b.inBlock = false)
    {skipped left : Tokens} {span : Span} (covered : spanOf? (trimTrivia (first :: skipped)) = some span)
    (none_ : Declaration.read? first (skipped ++ left) = none)
    (extent : preludeExtent 0 (first :: (skipped ++ left)) = skipped.length + 1)
    (ends : ∀ e ∈ left.head?, e.kind = .semicolon) :
    b.step cap last first (skipped ++ left) =
      ⟨b, [⟨.strayTokens, span⟩], skipped.length + left.head?.toList.length⟩ := by
  have taken : (first :: (skipped ++ left)).take (skipped.length + 1) = first :: skipped := by
    rw [List.take_succ_cons, List.take_left]
  have ended : (first :: (skipped ++ left))[skipped.length + 1]? = left.head? := by
    rw [List.getElem?_cons_succ, List.getElem?_append_right (Nat.le_refl _), Nat.sub_self,
      List.head?_eq_getElem?]
  have other : ¬(first.kind = .cdo ∨ first.kind = .cdc ∨ first.kind = .byteOrderMark) := by
    simpa using outside
  rw [step_other malformed.first_other.1, if_neg (by simp [inBlock]), if_neg other, takeRule]
  simp only [extent, ended, none_, taken, covered]
  cases left with
  | nil => simp
  | cons e left =>
      have kind := ends e rfl
      simp [kind]

end Builder

/-! ## In a block -/

section Blocks

variable {shell : Shell} {cap : Nat} {last : Position} {lead tail more : Tokens}
  {first ending : Token TokenKind} {before after : List Spelling}

/-- The comments among some tokens. -/
def commentsIn (ts : Tokens) : List Comment :=
  (ts.filter (·.kind == .comment)).map fun t => ⟨t.text, t.span⟩

theorem Shell.run_trivia {declarations : List Declaration} {comments : List Comment}
    (trivia : ∀ t ∈ lead, isTrivia t) (rest : Tokens) :
    (shell.holding declarations comments).run cap last (lead ++ rest) =
      (shell.holding declarations (comments ++ commentsIn lead)).run cap last rest := by
  induction lead generalizing comments with
  | nil => simp [commentsIn]
  | cons t lead ih =>
      obtain ⟨first, others⟩ := List.forall_mem_cons.mp trivia
      rw [List.cons_append, Builder.run_cons]
      simp only [isTrivia, Bool.or_eq_true, beq_iff_eq] at first
      rcases first with kind | kind
      · have step : Builder.step cap last (shell.holding declarations comments) t (lead ++ rest) =
            ⟨shell.holding declarations comments, [], 0⟩ := by simp [Builder.step, kind]
        have none_ : commentsIn (t :: lead) = commentsIn lead := by simp [commentsIn, kind]
        rw [step, none_]
        exact ih others
      · have step : Builder.step cap last (shell.holding declarations comments) t (lead ++ rest) =
            ⟨shell.holding declarations (comments ++ [⟨t.text, t.span⟩]), [], 0⟩ := by
          simp [Builder.step, kind, Shell.holding, Builder.push, Builder.addComment]
        have one : commentsIn (t :: lead) = ⟨t.text, t.span⟩ :: commentsIn lead := by
          simp [commentsIn, kind]
        have later := @ih (comments ++ [⟨t.text, t.span⟩]) others
        rw [step, one, List.append_cons]
        simpa using later

/-- **An error in a block of declarations stays local.** Between two lists of fine spellings a
malformed entry stands, with trivia before it: the rule keeps the declarations of both lists, and
beside faults of single tokens of the entry one issue is told, from its first token through the `;`.
Brackets that the entry leaves open do not matter. -/
theorem Shell.Fine.build_malformed (fine : shell.Fine) (room : 0 < cap)
    (fineBefore : ∀ s ∈ before, s.Fine) (trivia : ∀ t ∈ lead, isTrivia t)
    (malformed : Malformed first more) (ends : ending.kind = .semicolon)
    (fineAfter : ∀ s ∈ after, s.Fine) (blank : ∀ t ∈ tail, t.kind = .blank) :
    buildItems cap (shell.around (before.flatMap Spelling.tokens ++ (lead ++ (first :: more ++
        ending :: (after.flatMap Spelling.tokens ++ tail))))) =
      ([.style (shell.rule ((before ++ after).map Spelling.declaration) (commentsIn lead))],
        tokenIssues (lead ++ first :: more) ++
          [⟨.strayInBlock first.text, ⟨first.span.start, ending.span.finish⟩⟩]) := by
  have lexical : tokenIssues (before.flatMap Spelling.tokens ++ (lead ++ (first :: more ++
      ending :: (after.flatMap Spelling.tokens ++ tail)))) = tokenIssues (lead ++ first :: more) := by
    have afterwards : tokenIssues (ending :: (after.flatMap Spelling.tokens ++ tail)) = [] :=
      tokenIssues_eq_nil <| List.forall_mem_cons.mpr ⟨tokenFault?_eq_none (by simp [ends]),
        List.forall_mem_append.mpr
          ⟨List.forall_mem_flatMap.mpr fun s member => (fineAfter s member).sound,
            fun t member => tokenFault?_eq_none (by simp [blank t member])⟩⟩
    simp only [Builder.tokenIssues_append, Spelling.tokenIssues_spellings fineBefore, afterwards,
      List.nil_append, List.append_nil]
  -- With a bracket open, nothing up to the end of the block ends a prelude, nor does its brace.
  have goesOn : ∀ depth, 0 < depth →
      preludeExtent depth (after.flatMap Spelling.tokens ++ (tail ++ [shell.closing])) =
        (after.flatMap Spelling.tokens ++ (tail ++ [shell.closing])).length := by
    intro depth held
    have spaces : ∀ t ∈ tail, Plain t ∧ t.kind ≠ .semicolon :=
      fun t member => plain_of_isTrivia (by simp [isTrivia, blank t member])
    have nests : Nests false false tail := nests_of_plain spaces
    obtain ⟨depth, rfl⟩ := Nat.exists_eq_succ_of_ne_zero held.ne'
    rw [Spelling.preludeExtent_append_all held fineAfter,
      nests.preludeExtent_append (fun _ => held), preludeExtent_brace (.inr fine.closing), List.length_append,
      List.length_append]
    rfl
  rw [← lexical]
  refine fine.build room fun last => ?_
  have skips : (shell.holding (before.map Spelling.declaration) (commentsIn lead)).step cap last
      first (more ++ ending :: (after.flatMap Spelling.tokens ++ (tail ++ [shell.closing]))) = _ :=
    Builder.step_malformed_inBlock malformed rfl ends goesOn
  have left : (more ++ ending :: (after.flatMap Spelling.tokens ++ (tail ++ [shell.closing]))).drop
      (more.length + 1) = after.flatMap Spelling.tokens ++ (tail ++ [shell.closing]) := by
    rw [List.drop_length_add_append]
    rfl
  simp only [List.append_assoc, List.cons_append]
  rw [Shell.run_spellings fineBefore, Shell.run_trivia trivia, List.nil_append, List.nil_append,
    Builder.run_cons, skips]
  simp only [left]
  rw [Shell.run_spellings fineAfter, Builder.run_blanks blank, ← List.map_append]
  rfl

/-- An entry that leaves three brackets open, with a comment before it, between a declaration and
one whose value nests. -/
theorem build_malformed_threeOpen :
    let shell : Shell :=
      ⟨tokenAt .ident "x" 0, [], tokenAt .braceOpen "\x7b" 1, tokenAt .braceClose "\x7d" 25⟩
    let before := Spelling.ofWords "a" "b" 2
    let comment := tokenAt .comment "/**/" 6
    let first := tokenAt .delim "!" 10
    let more := [tokenAt .function "f(" 11, tokenAt .parenOpen "(" 13, tokenAt .bracketOpen "[" 14]
    let after : Spelling :=
      ⟨[], tokenAt .ident "d" 16, [], tokenAt .colon ":" 17, [tokenAt .function "e(" 18,
        tokenAt .braceOpen "\x7b" 20, tokenAt .semicolon ";" 21, tokenAt .braceClose "\x7d" 22,
        tokenAt .parenClose ")" 23], tokenAt .semicolon ";" 24⟩
    shell.Fine ∧ before.Fine ∧ after.Fine ∧ Malformed first more ∧
      buildItems depthCap (tokenize "x\x7ba:b;/**/!f(([;d:e(\x7b;\x7d);\x7d".toList .start) =
        ([.style (shell.rule [before.declaration, after.declaration]
            [⟨comment.text, comment.span⟩])],
          [⟨.strayInBlock ['!'], ⟨⟨10, 1, 11⟩, ⟨16, 1, 17⟩⟩⟩]) := by
  intro shell before comment first more after
  have shellFine : shell.Fine := ⟨rfl, by decide, rfl, rfl⟩
  have beforeFine : before.Fine := Spelling.fine_ofWords "a" "b" 2
  have afterFine : after.Fine := by
    refine ⟨by decide, rfl, by decide, rfl, ?_, rfl, by decide⟩
    refine .group (by decide) (by decide) (.group (by decide) (fun _ => .inr rfl)
      (.plain (plain_of_kind (by decide)) (fun _ => rfl) .nil) .nil) .nil
  have malformed : Malformed first more := ⟨by decide, rfl, by decide, by decide⟩
  have same : tokenize "x\x7ba:b;/**/!f(([;d:e(\x7b;\x7d);\x7d".toList .start = shell.around
      ([before].flatMap Spelling.tokens ++ ([comment] ++ (first :: more ++
        tokenAt .semicolon ";" 15 :: ([after].flatMap Spelling.tokens ++ [])))) := by decide +kernel
  refine ⟨shellFine, beforeFine, afterFine, malformed, ?_⟩
  rw [same]
  exact shellFine.build_malformed (by decide) (List.forall_mem_singleton.mpr beforeFine)
    (List.forall_mem_singleton.mpr rfl) malformed rfl (List.forall_mem_singleton.mpr afterFine)
    (List.forall_mem_nil _)

end Blocks

/-! ## Outside of blocks -/

section Top

variable {cap : Nat} {more rest : Tokens} {first ending : Token TokenKind}

theorem buildItems_nil : buildItems cap [] = ([], []) := by
  simp [buildItems, Builder.run, Builder.finish, Builder.closeMany, Builder.empty, tokenIssues]

/-- Tokens that are only skipped, in front of others that have no fault, add what is wrong with
them. -/
theorem buildItems_append {skipped : Tokens} {items : List Item} {issues : List Issue}
    (some_ : rest ≠ []) (alone : buildItems cap rest = (items, []))
    (skips : ∀ last, Builder.empty.run cap last (skipped ++ rest) =
      let done := Builder.empty.run cap last rest
      (done.1, issues ++ done.2)) :
    buildItems cap (skipped ++ rest) = (items, tokenIssues skipped ++ issues) := by
  have sameLast : (skipped ++ rest).getLast? = rest.getLast? :=
    List.getLast?_append_of_ne_nil skipped some_
  simp only [buildItems, Prod.mk.injEq, List.append_eq_nil_iff] at alone
  obtain ⟨read, ⟨lexical, run⟩, unclosed⟩ := alone
  simp only [buildItems, sameLast, skips, Builder.tokenIssues_append, lexical, run, unclosed, read,
    List.append_nil]

variable (malformed : Malformed first more)
  (outside : first.kind ∉ [TokenKind.cdo, .cdc, .byteOrderMark]) (ends : ending.kind = .semicolon)
include malformed outside ends

/-- Stray tokens that leave no bracket open end at their `;`. -/
theorem buildItems_of_closed (closed : openBrackets 0 (first :: more) = 0) {items : List Item}
    (some_ : rest ≠ []) (alone : buildItems cap rest = (items, [])) :
    ∃ span, spanOf? (trimTrivia (first :: more)) = some span ∧
      buildItems cap (first :: more ++ ending :: rest) =
        (items, tokenIssues (first :: more) ++ [⟨.strayTokens, span⟩]) := by
  have none_ := malformed.read?_eq_none ends rest
  have extent : preludeExtent 0 (first :: more ++ ending :: rest) = _ :=
    preludeExtent_append_unparted malformed.unparted (ending :: rest)
  rw [closed, preludeExtent_stop (by simp [endsPrelude, ends]), Nat.add_zero] at extent
  have quiet : tokenIssues (first :: more ++ [ending]) = tokenIssues (first :: more) := by
    have single : tokenIssues [ending] = [] := tokenIssues_eq_nil <|
      List.forall_mem_singleton.mpr (tokenFault?_eq_none (by simp [ends]))
    rw [Builder.tokenIssues_append, single, List.append_nil]
  obtain ⟨span, covered⟩ := malformed.exists_span more
  refine ⟨span, covered, ?_⟩
  rw [List.append_cons, ← quiet]
  refine buildItems_append some_ alone fun last => ?_
  rw [← List.append_cons, List.cons_append, Builder.run_cons,
    Builder.step_malformed_outside malformed outside rfl covered none_ extent (by simpa using ends)]
  simp only [List.head?_cons, Option.toList_some, List.length_singleton, List.drop_length_add_append,
    List.drop_succ_cons, List.drop_zero]

/-- Stray tokens that leave a bracket open take all with them, as long as nothing closes it. -/
theorem buildItems_of_open
    (held : ∀ front, front <+: rest → 0 < openBrackets 0 (first :: more ++ front)) :
    ∃ span, spanOf? (trimTrivia (first :: more ++ ending :: rest)) = some span ∧
      buildItems cap (first :: more ++ ending :: rest) =
        ([], tokenIssues (first :: more ++ ending :: rest) ++ [⟨.strayTokens, span⟩]) := by
  have none_ := malformed.read?_eq_none ends rest
  have extent : preludeExtent 0 (first :: more ++ ending :: rest) = _ :=
    preludeExtent_append_unparted malformed.unparted (ending :: rest)
  have positive := held [] List.nil_prefix
  have goesOn : ∀ front t back, rest = front ++ t :: back → endsPrelude t →
      0 < openBrackets (openBrackets 0 (first :: more)) front := fun front t back parted _ => by
    have positive := held front ⟨t :: back, parted.symm⟩
    rwa [openBrackets, List.foldl_append] at positive
  have past := preludeExtent_append_open goesOn []
  rw [List.append_nil] at positive past
  rw [preludeExtent, Nat.add_zero] at past
  rw [preludeExtent_plain (plain_of_kind (by simp [ends])) (by omega), past] at extent
  have whole : preludeExtent 0 (first :: (more ++ ending :: rest ++ [])) =
      (more ++ ending :: rest).length + 1 := by
    rw [List.append_nil, ← List.cons_append, extent]
    simp only [List.length_cons, List.length_append]
    omega
  obtain ⟨span, covered⟩ := malformed.exists_span (more ++ ending :: rest)
  rw [← List.append_nil (more ++ ending :: rest)] at none_
  have run : ∀ last, Builder.empty.run cap last (first :: (more ++ ending :: rest)) =
      (.empty, [⟨.strayTokens, span⟩]) := by
    intro last
    have step : Builder.empty.step cap last first (more ++ ending :: rest ++ []) = _ :=
      Builder.step_malformed_outside malformed outside rfl covered none_ whole (by simp)
    rw [List.append_nil] at step
    rw [Builder.run_cons, step]
    simp [Builder.run]
  refine ⟨span, covered, ?_⟩
  rw [List.cons_append]
  simp only [buildItems, run]
  simp [Builder.finish, Builder.closeMany, Builder.empty]

/-- **Where reading goes on after stray tokens.** If they close each bracket that they open, what
follows their `;` is read as if it stood alone: here a rule, without a fault. If they leave a bracket
open, and nothing that follows closes it, there is no item at all: one issue covers all the tokens. -/
theorem buildItems_malformed :
    (openBrackets 0 (first :: more) = 0 → ∀ rule, buildItems cap rest = ([.style rule], []) →
      ∃ span, spanOf? (trimTrivia (first :: more)) = some span ∧
        buildItems cap (first :: more ++ ending :: rest) =
          ([.style rule], tokenIssues (first :: more) ++ [⟨.strayTokens, span⟩])) ∧
    ((∀ front, front <+: rest → 0 < openBrackets 0 (first :: more ++ front)) →
      ∃ span, spanOf? (trimTrivia (first :: more ++ ending :: rest)) = some span ∧
        buildItems cap (first :: more ++ ending :: rest) =
          ([], tokenIssues (first :: more ++ ending :: rest) ++ [⟨.strayTokens, span⟩])) := by
  refine ⟨fun closed rule alone => ?_, buildItems_of_open malformed outside ends⟩
  have some_ : rest ≠ [] := by
    rintro rfl
    rw [buildItems_nil] at alone
    cases alone
  exact buildItems_of_closed malformed outside ends closed some_ alone

end Top

/-- Stray tokens that close their bracket, and such that do not, before one and the same rule. -/
theorem buildItems_malformed_parentheses :
    let first := tokenAt .parenOpen "(" 0
    let shell : Shell :=
      ⟨tokenAt .ident "a" 3, [], tokenAt .braceOpen "\x7b" 4, tokenAt .braceClose "\x7d" 9⟩
    let inside := Spelling.ofWords "b" "c" 5
    (Malformed first [tokenAt .parenClose ")" 1] ∧
      buildItems depthCap (tokenize "();a\x7bb:c;\x7d".toList .start) =
        ([.style (shell.rule [inside.declaration] [])],
          [⟨.strayTokens, ⟨⟨0, 1, 1⟩, ⟨2, 1, 3⟩⟩⟩])) ∧
      Malformed first [tokenAt .parenOpen "(" 1] ∧
        buildItems depthCap (tokenize "((;a\x7bb:c;\x7d".toList .start) =
          ([], [⟨.strayTokens, ⟨⟨0, 1, 1⟩, ⟨10, 1, 11⟩⟩⟩]) := by
  intro first shell inside
  have shellFine : shell.Fine := ⟨rfl, List.forall_mem_nil _, rfl, rfl⟩
  have insideFine : inside.Fine := Spelling.fine_ofWords "b" "c" 5
  have alone : buildItems depthCap _ = _ := shellFine.build_spellings (by decide)
    (List.forall_mem_singleton.mpr insideFine)
  have closed : Malformed first [tokenAt .parenClose ")" 1] := ⟨by decide, rfl, by decide, by decide⟩
  have opened : Malformed first [tokenAt .parenOpen "(" 1] := ⟨by decide, rfl, by decide, by decide⟩
  have semicolon : (tokenAt .semicolon ";" 2).kind = .semicolon := rfl
  refine ⟨⟨closed, ?_⟩, opened, ?_⟩
  · obtain ⟨span, covered, built⟩ := (buildItems_malformed closed (by decide)
      semicolon).1 (by decide) _ alone
    have same : tokenize "();a\x7bb:c;\x7d".toList .start = first :: [tokenAt .parenClose ")" 1] ++
      tokenAt .semicolon ";" 2 :: shell.around ([inside].flatMap Spelling.tokens) := by decide +kernel
    obtain rfl := Option.some.inj covered
    rw [same]
    exact built
  · have held : ∀ front ∈ (shell.around ([inside].flatMap Spelling.tokens)).inits,
        0 < openBrackets 0 (first :: [tokenAt .parenOpen "(" 1] ++ front) := by decide
    obtain ⟨span, covered, built⟩ : ∃ span, _ ∧ buildItems depthCap _ = _ :=
      (buildItems_malformed opened (by decide) semicolon).2 fun front leads =>
        held front ((List.mem_inits front _).mpr leads)
    have same : tokenize "((;a\x7bb:c;\x7d".toList .start = first :: [tokenAt .parenOpen "(" 1] ++
      tokenAt .semicolon ";" 2 :: shell.around ([inside].flatMap Spelling.tokens) := by decide +kernel
    obtain rfl := Option.some.inj covered
    rw [same]
    exact built

/-- **An open bracket hides the rule behind the `;`.** The tokens before the `;` are malformed, those
behind it make a rule without a fault, and together there is no item. -/
theorem open_bracket_hides_rule :
    let first := tokenAt .parenOpen "(" 0
    let rest := (tokenize "(;a\x7bb:c;\x7d".toList .start).drop 2
    Malformed first [] ∧ first.kind ∉ [TokenKind.cdo, .cdc, .byteOrderMark] ∧
      (∃ rule, buildItems depthCap rest = ([.style rule], [])) ∧
      ¬∃ items rule, (buildItems depthCap (first :: tokenAt .semicolon ";" 1 :: rest)).1 =
        items ++ [.style rule] := by
  intro first rest
  let shell : Shell :=
    ⟨tokenAt .ident "a" 2, [], tokenAt .braceOpen "\x7b" 3, tokenAt .braceClose "\x7d" 8⟩
  let inside := Spelling.ofWords "b" "c" 4
  have shellFine : shell.Fine := ⟨rfl, List.forall_mem_nil _, rfl, rfl⟩
  have insideFine : inside.Fine := Spelling.fine_ofWords "b" "c" 4
  have same : rest = shell.around ([inside].flatMap Spelling.tokens) := by decide +kernel
  have none_ : (buildItems depthCap (first :: tokenAt .semicolon ";" 1 :: rest)).1 = [] :=
    List.isEmpty_iff.mp (by decide +kernel)
  have alone : buildItems depthCap _ = _ := shellFine.build_spellings (by decide)
    (List.forall_mem_singleton.mpr insideFine)
  rw [← same] at alone
  refine ⟨⟨by decide, rfl, by decide, by decide⟩, by decide, ⟨_, alone⟩, ?_⟩
  rintro ⟨items, rule, some_⟩
  rw [none_] at some_
  exact List.append_ne_nil_of_right_ne_nil items (List.cons_ne_nil _ _) some_.symm

end PageLint.Css
