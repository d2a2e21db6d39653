/-
# PageLint.Proofs.Css.Spelling — declarations as tokens

A `Spelling` is the tokens that one declaration is made of, in its parts, and the declaration that
they mean. It is `Fine` if each part is what it should be and the brackets and braces of the value
nest (`Nests`), braces outside brackets being for custom properties alone.

Nothing that looks ahead goes past the `;` of a fine spelling, so a builder takes one in by adding
its declaration, whatever comes after it (`Builder.run_spellings`). In a block of declarations that holds
of all fine spellings. Elsewhere a brace outside brackets makes a rule of an entry, and it holds of
those that have none.
-/
import PageLint.Proofs.Css.RoundTrip
import PageLint.Proofs.Css.Balance

namespace PageLint.Css

set_option autoImplicit false

open Text

/-! ## Nested brackets -/

/-- A sign that opens and the one that closes it. -/
def Pairs (opening closing : Token TokenKind) : Prop :=
  (opening.kind, closing.kind) ∈ [(TokenKind.parenOpen, TokenKind.parenClose),
    (.function, .parenClose), (.bracketOpen, .bracketClose), (.braceOpen, .braceClose)]

instance (opening closing : Token TokenKind) : Decidable (Pairs opening closing) :=
  inferInstanceAs (Decidable (_ ∈ _))

/-- **Brackets and braces nest**: what opens is closed by a sign of its own kind, with whole pairs
between them. A `;` stands `inside` some pair, and so does a brace, unless `braces` says that it may
stand anywhere. -/
inductive Nests (braces : Bool) : Bool → Tokens → Prop
  | nil {inside : Bool} : Nests braces inside []
  | plain {inside : Bool} {t : Token TokenKind} {ts : Tokens} : Plain t →
    (t.kind = .semicolon → inside) → Nests braces inside ts → Nests braces inside (t :: ts)
  | group {inside : Bool} {opening closing : Token TokenKind} {between ts : Tokens} :
    Pairs opening closing → (opening.kind = .braceOpen → braces ∨ inside) →
    Nests braces true between → Nests braces inside ts →
    Nests braces inside (opening :: (between ++ closing :: ts))

section Scans

variable {t opening closing : Token TokenKind} {ts rest : Tokens} {braces inside : Bool} {depth : Nat}

/-- Tokens without brackets, braces and `;` nest. -/
theorem nests_of_plain (plain : ∀ t ∈ ts, Plain t ∧ t.kind ≠ .semicolon) : Nests braces inside ts := by
  induction ts with
  | nil => exact .nil
  | cons t ts ih =>
      obtain ⟨⟨first, stays⟩, others⟩ := List.forall_mem_cons.mp plain
      exact .plain first (fun kind => absurd kind stays) (ih others)

theorem Pairs.cases (pairs : Pairs opening closing) :
    opensBracket opening ∧ closesBracket closing ∨
      opening.kind = .braceOpen ∧ closing.kind = .braceClose := by
  simp only [Pairs, List.mem_cons, List.not_mem_nil, or_false, Prod.mk.injEq] at pairs
  rcases pairs with ⟨opens, closes⟩ | ⟨opens, closes⟩ | ⟨opens, closes⟩ | ⟨opens, closes⟩ <;>
    simp [opensBracket, closesBracket, opens, closes]

theorem valueExtent_pair (pairs : Pairs opening closing) :
    (∀ depth ts, valueExtent depth (opening :: ts) = valueExtent (depth + 1) ts + 1) ∧
      ∀ depth ts, valueExtent (depth + 1) (closing :: ts) = valueExtent depth ts + 1 := by
  rcases pairs.cases with ⟨opens, closes⟩ | ⟨opens, closes⟩
  · exact ⟨fun _ _ => valueExtent_opens opens, fun _ _ => valueExtent_closes closes⟩
  · exact ⟨fun _ _ => valueExtent_braceOpen opens, fun _ _ => valueExtent_braceClose closes⟩

/-- A value goes past all that nests. -/
theorem Nests.valueExtent_append (nests : Nests braces inside ts) (held : inside → 0 < depth)
    (rest : Tokens) : valueExtent depth (ts ++ rest) = ts.length + valueExtent depth rest := by
  induction nests generalizing depth rest with
  | nil => exact (Nat.zero_add _).symm
  | plain plain stays _ ih =>
      have goesOn : ¬(_ ∧ depth = 0) := fun stops => by
        have positive := held (stays stops.1)
        omega
      rw [List.cons_append, valueExtent_plain plain goesOn, ih held, List.length_cons]
      omega
  | @group inside opening closing between ts pairs _ _ _ inner outer =>
      obtain ⟨opens, closes⟩ := valueExtent_pair pairs
      rw [List.cons_append, List.append_assoc, List.cons_append, opens,
        inner (fun _ => Nat.succ_pos depth), closes, outer held]
      simp only [List.length_cons, List.length_append]
      omega

/-- A prelude goes past all that nests, but for braces outside brackets. -/
theorem Nests.preludeExtent_append (nests : Nests braces inside ts)
    (held : braces ∨ inside → 0 < depth) (rest : Tokens) :
    preludeExtent depth (ts ++ rest) = ts.length + preludeExtent depth rest := by
  induction nests generalizing depth rest with
  | nil => exact (Nat.zero_add _).symm
  | plain plain stays _ ih =>
      have goesOn : ¬(_ ∧ depth = 0) := fun stops => by
        have positive := held (.inr (stays stops.1))
        omega
      rw [List.cons_append, preludeExtent_plain plain goesOn, ih held, List.length_cons]
      omega
  | @group inside opening closing between ts pairs stands _ _ inner outer =>
      rcases pairs.cases with ⟨opens, closes⟩ | ⟨opens, closes⟩
      · rw [List.cons_append, List.append_assoc, List.cons_append, preludeExtent_opens opens,
          inner (fun _ => Nat.succ_pos depth), preludeExtent_closes closes, outer held]
        simp only [List.length_cons, List.length_append]
        omega
      · have positive := held (stands opens)
        obtain ⟨depth, rfl⟩ := Nat.exists_eq_succ_of_ne_zero positive.ne'
        rw [List.cons_append, List.append_assoc, List.cons_append, preludeExtent_brace (.inl opens),
          inner (fun _ => positive), preludeExtent_brace (.inr closes), outer held]
        simp only [List.length_cons, List.length_append]
        omega

/-- Trivia is neither a bracket nor a brace, and no `;`. -/
theorem plain_of_isTrivia (trivia : isTrivia t) : Plain t ∧ t.kind ≠ .semicolon := by
  simp only [isTrivia, Bool.or_eq_true, beq_iff_eq] at trivia
  rcases trivia with kind | kind <;> exact ⟨plain_of_kind (by simp [kind]), by simp [kind]⟩

/-- Tokens of most kinds have no fault. -/
theorem tokenFault?_eq_none (kind : t.kind ∉ [TokenKind.badString, .comment, .url]) :
    tokenFault? t = none := by
  simp only [List.mem_cons, List.not_mem_nil, or_false, not_or] at kind
  unfold tokenFault?
  split
  next bad => exact absurd bad kind.1
  next bad => exact absurd bad kind.2.1
  next bad => exact absurd bad kind.2.2
  next => rfl

theorem tokenIssues_eq_nil (sound : ∀ t ∈ ts, tokenFault? t = none) : tokenIssues ts = [] :=
  List.filterMap_eq_nil_iff.mpr fun t member => by rw [sound t member, Option.map_none]

end Scans

/-! ## Spellings -/

/-- The tokens of a declaration: white space, its property, trivia, its colon, its value with the
trivia around it, and its `;`. -/
structure Spelling where
  lead : Tokens
  property : Token TokenKind
  gap : Tokens
  colon : Token TokenKind
  value : Tokens
  semicolon : Token TokenKind

namespace Spelling

/-- What follows the property. -/
def afterProperty (s : Spelling) : Tokens := s.gap ++ s.colon :: (s.value ++ [s.semicolon])

/-- All tokens, in order. -/
def tokens (s : Spelling) : Tokens := s.lead ++ s.property :: s.afterProperty

/-- The declaration that is meant. -/
def declaration (s : Spelling) : Declaration :=
  let (value, important) := splitImportant (trimTrivia s.value)
  let last := (important.or (spanOf? value)).getD s.colon.span
  { property := s.property.text
    propertySpan := s.property.span
    colon := s.colon.span
    value := textOf value
    valueSpan := spanOf? value
    valueTokens := value
    important
    semicolon := some s.semicolon.span
    span := ⟨s.property.span.start, last.finish⟩ }

/-- **A spelling is fine** if its parts are of the right kinds, no token has a fault, and the brackets
of its value nest. Braces are between brackets, or else the property is a custom one. -/
structure Fine (s : Spelling) : Prop where
  lead : ∀ t ∈ s.lead, t.kind = .blank
  property : s.property.kind = .ident
  gap : ∀ t ∈ s.gap, isTrivia t
  colon : s.colon.kind = .colon
  value : Nests s.declaration.isCustom false s.value
  semicolon : s.semicolon.kind = .semicolon
  sound : ∀ t ∈ s.tokens, tokenFault? t = none

/-- No brace of the value stands outside brackets. -/
def Unbraced (s : Spelling) : Prop := Nests false false s.value

variable {s : Spelling} {ss : List Spelling} {rest : Tokens}

/-- What stands before the value has no brackets, braces and `;`. -/
theorem Fine.plain_front (fine : s.Fine) :
    ∀ t ∈ s.property :: (s.gap ++ [s.colon]), Plain t ∧ t.kind ≠ .semicolon := by
  refine List.forall_mem_cons.mpr ⟨⟨plain_of_kind (by simp [fine.property]),
    by simp [fine.property]⟩, List.forall_mem_append.mpr ⟨?_, ?_⟩⟩
  · exact fun t member => plain_of_isTrivia (fine.gap t member)
  · exact List.forall_mem_singleton.mpr ⟨plain_of_kind (by simp [fine.colon]), by simp [fine.colon]⟩

/-- **A fine spelling is read as what it means**, up to its `;`. -/
theorem Fine.read? (fine : s.Fine) (rest : Tokens) :
    Declaration.read? s.property (s.afterProperty ++ rest) =
      some (s.declaration, s.afterProperty.length + 1) := by
  have colon : isTrivia s.colon = false := by simp [isTrivia, fine.colon]
  have gap : (s.gap ++ s.colon :: (s.value ++ s.semicolon :: rest)).takeWhile isTrivia = s.gap := by
    rw [List.takeWhile_append_of_pos fine.gap, List.takeWhile_cons_of_neg (by simp [colon]),
      List.append_nil]
  have extent : valueExtent 0 (s.value ++ s.semicolon :: rest) = s.value.length := by
    rw [fine.value.valueExtent_append (by simp), valueExtent_stop (.inr fine.semicolon), Nat.add_zero]
  have ended : (some s.semicolon).filter (·.kind == .semicolon) = some s.semicolon := by
    simp [Option.filter, fine.semicolon]
  have whole : s.afterProperty ++ rest = s.gap ++ s.colon :: (s.value ++ s.semicolon :: rest) := by
    simp [afterProperty]
  rw [whole]
  simp only [Declaration.read?, gap, List.drop_left, fine.property, fine.colon, and_self, if_true,
    extent, List.take_left, List.getElem?_append_right (Nat.le_refl _), Nat.sub_self,
    List.getElem?_cons_zero, ended, Option.toList_some, List.length_singleton, Option.map_some,
    Option.some.injEq, Prod.mk.injEq]
  refine ⟨rfl, ?_⟩
  simp only [afterProperty, List.length_append, List.length_cons, List.length_nil]
  omega

/-- The look ahead for a rule stops at the `;`, if no brace stands outside brackets. -/
theorem Fine.ended (fine : s.Fine) (unbraced : s.Unbraced) (rest : Tokens) :
    (s.property :: (s.afterProperty ++ rest))[preludeExtent 0 (s.property ::
      (s.afterProperty ++ rest))]? = some s.semicolon := by
  have whole : s.property :: (s.afterProperty ++ rest) =
      (s.property :: (s.gap ++ [s.colon])) ++ (s.value ++ s.semicolon :: rest) := by
    simp [afterProperty]
  rw [whole, preludeExtent_append_plains fine.plain_front, unbraced.preludeExtent_append (by simp),
    preludeExtent_stop (by simp [endsPrelude, fine.semicolon]), Nat.add_zero,
    List.getElem?_append_right (Nat.le_add_right _ _), Nat.add_sub_cancel_left,
    List.getElem?_append_right (Nat.le_refl _), Nat.sub_self]
  rfl

/-- White space has no brackets, braces and `;`. -/
theorem Fine.plain_lead (fine : s.Fine) : ∀ t ∈ s.lead, Plain t ∧ t.kind ≠ .semicolon :=
  fun t member => plain_of_isTrivia (by simp [isTrivia, fine.lead t member])

/-- With a bracket open, the look ahead for a rule goes past a whole spelling. -/
theorem Fine.preludeExtent_append {depth : Nat} (held : 0 < depth) (fine : s.Fine) (rest : Tokens) :
    preludeExtent depth (s.tokens ++ rest) = s.tokens.length + preludeExtent depth rest := by
  have passes : ∀ {ts : Tokens}, (∀ t ∈ ts, Plain t ∧ t.kind ≠ .semicolon) → ∀ rest,
      preludeExtent depth (ts ++ rest) = ts.length + preludeExtent depth rest :=
    fun {ts} plain =>
      have nests : Nests false false ts := nests_of_plain plain
      nests.preludeExtent_append fun _ => held
  have semicolon : preludeExtent depth (s.semicolon :: rest) = preludeExtent depth rest + 1 :=
    preludeExtent_plain (plain_of_kind (by simp [fine.semicolon])) (by omega)
  have whole : s.tokens ++ rest =
      s.lead ++ ((s.property :: (s.gap ++ [s.colon])) ++ (s.value ++ s.semicolon :: rest)) := by
    simp [tokens, afterProperty]
  rw [whole, passes fine.plain_lead, passes fine.plain_front,
    fine.value.preludeExtent_append (fun _ => held), semicolon]
  simp only [tokens, afterProperty, List.length_append, List.length_cons, List.length_nil]
  omega

theorem tokenIssues_spellings (fine : ∀ s ∈ ss, s.Fine) : tokenIssues (ss.flatMap tokens) = [] :=
  tokenIssues_eq_nil (List.forall_mem_flatMap.mpr fun s member => (fine s member).sound)

theorem preludeExtent_append_all {depth : Nat} (held : 0 < depth) (fine : ∀ s ∈ ss, s.Fine)
    (rest : Tokens) : preludeExtent depth (ss.flatMap tokens ++ rest) =
      (ss.flatMap tokens).length + preludeExtent depth rest := by
  induction ss with
  | nil => exact (Nat.zero_add _).symm
  | cons s ss ih =>
      obtain ⟨first, others⟩ := List.forall_mem_cons.mp fine
      rw [List.flatMap_cons, List.append_assoc, first.preludeExtent_append held, ih others,
        List.length_append, Nat.add_assoc]

end Spelling

/-! ## Spellings, taken in -/

namespace Builder

variable {cap : Nat} {last : Position} {b : Builder} {ts rest : Tokens} {s : Spelling}
  {ss : List Spelling}

/-- White space does nothing. -/
theorem run_blanks (blank : ∀ t ∈ ts, t.kind = .blank) (rest : Tokens) :
    b.run cap last (ts ++ rest) = b.run cap last rest := by
  induction ts with
  | nil => rfl
  | cons t ts ih =>
      obtain ⟨first, others⟩ := List.forall_mem_cons.mp blank
      have step : b.step cap last t (ts ++ rest) = ⟨b, [], 0⟩ := by simp [step, first]
      rw [List.cons_append, run_cons, step]
      exact ih others

theorem inBlock_addDeclaration (b : Builder) (d : Declaration) :
    (b.addDeclaration d).inBlock = b.inBlock := by
  unfold addDeclaration inBlock
  cases b.stack with
  | nil => rfl
  | cons frame outer => cases frame <;> rfl

/-- **A fine spelling is taken in whole**, in a block of declarations or without braces outside
brackets. -/
theorem step_spelling (fine : s.Fine) (place : b.inBlock ∨ s.Unbraced) (rest : Tokens) :
    b.step cap last s.property (s.afterProperty ++ rest) =
      ⟨b.addDeclaration s.declaration, [], s.afterProperty.length⟩ := by
  have calm : s.Unbraced → (s.property :: (s.afterProperty ++ rest))[preludeExtent 0 (s.property ::
      (s.afterProperty ++ rest))]?.any (·.kind == .braceOpen) = false := fun unbraced => by
    rw [fine.ended unbraced]
    simp [fine.semicolon]
  rw [step_ident fine.property]
  by_cases inBlock : b.inBlock
  · have entry : startsNestedRule (s.property :: (s.afterProperty ++ rest)) = false := by
      by_cases custom : s.declaration.isCustom
      · have own : "--".toList.isPrefixOf s.property.text = true := custom
        simp only [startsNestedRule, List.head?_cons, Option.any_some, fine.property,
          beq_self_eq_true, own, Bool.and_self, Bool.not_true, Bool.false_and]
      · have unbraced := fine.value
        rw [Bool.eq_false_of_not_eq_true custom] at unbraced
        rw [startsNestedRule, calm unbraced, Bool.and_false]
    rw [if_pos inBlock, takeEntry]
    simp only [entry, fine.read?, Bool.false_eq_true, if_false, Nat.add_sub_cancel]
  · have none_ := calm (place.resolve_left inBlock)
    rw [if_neg inBlock, takeRule]
    simp only [none_, fine.read?, Bool.false_eq_true, if_false, Nat.add_sub_cancel]

theorem run_spelling (fine : s.Fine) (place : b.inBlock ∨ s.Unbraced) (rest : Tokens) :
    b.run cap last (s.tokens ++ rest) = (b.addDeclaration s.declaration).run cap last rest := by
  rw [Spelling.tokens, List.append_assoc, run_blanks fine.lead, List.cons_append, run_cons,
    step_spelling fine place]
  simp only [List.drop_left, List.nil_append]

/-- **Fine spellings are taken in one after the other.** -/
theorem run_spellings (fine : ∀ s ∈ ss, s.Fine) (place : b.inBlock ∨ ∀ s ∈ ss, s.Unbraced)
    (rest : Tokens) : b.run cap last (ss.flatMap Spelling.tokens ++ rest) =
      ((ss.map Spelling.declaration).foldl addDeclaration b).run cap last rest := by
  induction ss generalizing b with
  | nil => rfl
  | cons s ss ih =>
      obtain ⟨first, others⟩ := List.forall_mem_cons.mp fine
      have here : b.inBlock ∨ s.Unbraced := place.imp_right fun all => all s List.mem_cons_self
      have later : (b.addDeclaration s.declaration).inBlock ∨ ∀ s ∈ ss, s.Unbraced := by
        rw [inBlock_addDeclaration]
        exact place.imp_right fun all s member => all s (List.mem_cons_of_mem _ member)
      rw [List.flatMap_cons, List.append_assoc, run_spelling first here, ih others later,
        List.map_cons, List.foldl_cons]

end Builder

/-! ## A rule around them -/

/-- The tokens of a style rule, but for those in its block: a word that is its selector, white space
and its braces. -/
structure Shell where
  word : Token TokenKind
  gap : Tokens
  opening : Token TokenKind
  closing : Token TokenKind

namespace Shell

/-- The tokens of the rule, given those in its block. -/
def around (shell : Shell) (inside : Tokens) : Tokens :=
  shell.word :: (shell.gap ++ shell.opening :: (inside ++ [shell.closing]))

/-- The rule, given the declarations and the comments in its block. -/
def rule (shell : Shell) (declarations : List Declaration) (comments : List Comment) :
    StyleRule Item :=
  let block : Block Item :=
    { opening := some shell.opening.span
      closing := some shell.closing.span
      declarations
      comments
      nested := []
      span := ⟨shell.opening.span.start, shell.closing.span.finish⟩ }
  { selectors := [⟨shell.word.text, shell.word.span, [shell.word]⟩]
    prelude := some shell.word.span
    keyframe := false
    block
    span := shell.word.span.join block.span }

structure Fine (shell : Shell) : Prop where
  word : shell.word.kind = .ident
  gap : ∀ t ∈ shell.gap, t.kind = .blank
  opening : shell.opening.kind = .braceOpen
  closing : shell.closing.kind = .braceClose

/-- A builder in the block, which holds some declarations and comments so far. -/
def holding (shell : Shell) (declarations : List Declaration) (comments : List Comment) : Builder :=
  Builder.empty.push (.block (.style [⟨shell.word.text, shell.word.span, [shell.word]⟩]
    (some shell.word.span) false) shell.opening.span declarations.reverse comments.reverse [])

variable {shell : Shell} {cap : Nat} {last : Position} {inside : Tokens}
  {declarations : List Declaration} {comments : List Comment}

/-- The beginning of the rule opens its block. -/
theorem Fine.run_opening (fine : shell.Fine) (room : 0 < cap) (rest : Tokens) :
    Builder.empty.run cap last (shell.word :: (shell.gap ++ shell.opening :: rest)) =
      (shell.holding [] []).run cap last rest := by
  have plain : ∀ t ∈ shell.word :: shell.gap, Plain t ∧ t.kind ≠ .semicolon := by
    refine List.forall_mem_cons.mpr ⟨⟨plain_of_kind (by simp [fine.word]), by simp [fine.word]⟩, ?_⟩
    exact fun t member => plain_of_isTrivia (by simp [isTrivia, fine.gap t member])
  have here : shell.word :: (shell.gap ++ shell.opening :: rest) =
      (shell.word :: shell.gap) ++ shell.opening :: rest := rfl
  have extent : preludeExtent 0 ((shell.word :: shell.gap) ++ shell.opening :: rest) =
      (shell.word :: shell.gap).length := by
    rw [preludeExtent_append_plains plain, preludeExtent_stop (by simp [endsPrelude, fine.opening]),
      Nat.add_zero]
  have found : ((shell.word :: shell.gap) ++ shell.opening :: rest)[(shell.word ::
      shell.gap).length]? = some shell.opening := by
    rw [List.getElem?_append_right (Nat.le_refl _), Nat.sub_self]
    rfl
  have solid : isTrivia shell.word = false := Compact.isTrivia_of_ident fine.word
  have between : trimTrivia ([] ++ ([shell.word] ++ shell.gap)) = [shell.word] :=
    trimTrivia_between (by simp [solid]) (by simp [solid]) (List.cons_ne_nil _ _)
      (List.forall_mem_nil _) (fun t member => by simp [isTrivia, fine.gap t member])
  have trimmed : trimTrivia (shell.word :: shell.gap) = [shell.word] := between
  have selectors : readSelectors [shell.word] =
      ([⟨shell.word.text, shell.word.span, [shell.word]⟩], []) := by
    simp [readSelectors, splitAtCommas, fine.word, trimTrivia, trimTriviaEnd, solid, spanOf?, textOf]
  have step : Builder.empty.step cap last shell.word (shell.gap ++ shell.opening :: rest) =
      ⟨shell.holding [] [], [], (shell.word :: shell.gap).length⟩ := by
    rw [Builder.step_ident fine.word, if_neg (by decide), Builder.takeRule]
    simp only [here, extent, found, Option.any_some, fine.opening, beq_self_eq_true, if_true,
      Builder.openStyle, List.take_left, trimmed, selectors,
      Builder.openBlock_of_room (b := Builder.empty) room]
    rfl
  have left : (shell.gap ++ shell.opening :: rest).drop (shell.word :: shell.gap).length = rest := by
    simp
  rw [Builder.run_cons, step]
  simp only [left, List.nil_append]

/-- Fine spellings add to what the block holds. -/
theorem run_spellings {ss : List Spelling} (fine : ∀ s ∈ ss, s.Fine) (rest : Tokens) :
    (shell.holding declarations comments).run cap last (ss.flatMap Spelling.tokens ++ rest) =
      (shell.holding (declarations ++ ss.map Spelling.declaration) comments).run cap last rest := by
  have added (ds : List Declaration) : ds.foldl Builder.addDeclaration
      (shell.holding declarations comments) = shell.holding (declarations ++ ds) comments := by
    induction ds generalizing declarations with
    | nil => rw [List.append_nil, List.foldl_nil]
    | cons d ds ih =>
        have first : (shell.holding declarations comments).addDeclaration d =
            shell.holding (declarations ++ [d]) comments := by
          simp [holding, Builder.push, Builder.addDeclaration]
        rw [List.foldl_cons, first, ih, List.append_assoc, List.singleton_append]
  rw [Builder.run_spellings fine (.inl rfl), added]

/-- The end of the rule closes its block. -/
theorem Fine.run_closing (fine : shell.Fine) :
    (shell.holding declarations comments).run cap last [shell.closing] =
      (⟨[], [.style (shell.rule declarations comments)]⟩, []) := by
  rw [Builder.run_cons]
  simp only [holding, Builder.step, fine.closing, Builder.push, List.isEmpty_cons, Bool.false_eq_true,
    if_false, Builder.close, Frame.close, List.reverse_reverse, List.drop_nil, Builder.run]
  rfl

/-- What is wrong with single tokens lies inside the block. -/
theorem Fine.tokenIssues_around (fine : shell.Fine) (inside : Tokens) :
    tokenIssues (shell.around inside) = tokenIssues inside := by
  have opening : tokenIssues (shell.word :: (shell.gap ++ [shell.opening])) = [] :=
    tokenIssues_eq_nil <| List.forall_mem_cons.mpr ⟨tokenFault?_eq_none (by simp [fine.word]),
      List.forall_mem_append.mpr
        ⟨fun t member => tokenFault?_eq_none (by simp [fine.gap t member]),
          List.forall_mem_singleton.mpr (tokenFault?_eq_none (by simp [fine.opening]))⟩⟩
  have closing : tokenIssues [shell.closing] = [] :=
    tokenIssues_eq_nil (List.forall_mem_singleton.mpr (tokenFault?_eq_none (by simp [fine.closing])))
  have parted : shell.around inside =
      shell.word :: (shell.gap ++ [shell.opening]) ++ (inside ++ [shell.closing]) := by
    simp [around]
  rw [parted, Builder.tokenIssues_append, Builder.tokenIssues_append, opening, closing,
    List.nil_append, List.append_nil]

/-- **A rule is read from its shell and what its block holds**: if the block comes to hold some
declarations and comments and nothing else, the rule is the only item, and what is wrong inside is
all that is wrong. -/
theorem Fine.build (fine : shell.Fine) (room : 0 < cap) {issues : List Issue}
    (runs : ∀ last, (shell.holding [] []).run cap last (inside ++ [shell.closing]) =
      let done := (shell.holding declarations comments).run cap last [shell.closing]
      (done.1, issues ++ done.2)) :
    buildItems cap (shell.around inside) =
      ([.style (shell.rule declarations comments)], tokenIssues inside ++ issues) := by
  rw [buildItems, fine.tokenIssues_around, around]
  simp only [fine.run_opening room, runs, fine.run_closing, Builder.finish, List.length_nil,
    Builder.closeMany, List.map_nil, List.append_nil, List.reverse_singleton]

/-- **A rule around fine spellings** is read without a fault, and holds their declarations. -/
theorem Fine.build_spellings {ss : List Spelling} (fine : shell.Fine) (room : 0 < cap)
    (each : ∀ s ∈ ss, s.Fine) : buildItems cap (shell.around (ss.flatMap Spelling.tokens)) =
      ([.style (shell.rule (ss.map Spelling.declaration) [])], []) := by
  have quiet := Spelling.tokenIssues_spellings each
  have runs : ∀ last, (shell.holding [] []).run cap last
      (ss.flatMap Spelling.tokens ++ [shell.closing]) =
        let done := (shell.holding (ss.map Spelling.declaration) []).run cap last [shell.closing]
        (done.1, [] ++ done.2) := fun last => run_spellings each _
  have built := fine.build room runs
  rwa [quiet, List.append_nil] at built

end Shell

/-- A token on the first line, behind `n` characters of one byte each. -/
def tokenAt (kind : TokenKind) (text : String) (n : Nat) : Token TokenKind :=
  ⟨kind, text.toList, ⟨⟨n, 1, n + 1⟩, ⟨n + text.length, 1, n + text.length + 1⟩⟩⟩

/-- A declaration whose value is a word, behind `n` characters. -/
def Spelling.ofWords (property value : String) (n : Nat) : Spelling where
  lead := []
  property := tokenAt .ident property n
  gap := []
  colon := tokenAt .colon ":" (n + property.length)
  value := [tokenAt .ident value (n + property.length + 1)]
  semicolon := tokenAt .semicolon ";" (n + property.length + 1 + value.length)

theorem Spelling.fine_ofWords (property value : String) (n : Nat) : (ofWords property value n).Fine where
  lead := List.forall_mem_nil _
  property := rfl
  gap := List.forall_mem_nil _
  colon := rfl
  value := nests_of_plain (List.forall_mem_singleton.mpr
    ⟨plain_of_kind (by simp [tokenAt]), by simp [tokenAt]⟩)
  semicolon := rfl
  sound := by simp [tokens, afterProperty, ofWords, tokenAt, tokenFault?]

end PageLint.Css
