/-
# PageLint.Proofs.Css.RoundTrip — reading a stylesheet undoes writing it

Whether an entry is a declaration or a rule is decided by looking ahead to the first brace or `;`
outside brackets. In what is written of a draft that sign comes before the draft ends, so no look
ahead goes past it (`preludeExtent_append`, `valueExtent_append`), and a draft is read the same
whatever follows it.

The induction over the draft carries more than a whole stylesheet needs: from any builder that has
room for it, in a block of declarations if it is a declaration, reading its text adds one
declaration or one item that shows it, and leaves the builder as it was otherwise
(`Draft.ReadBack`). A stylesheet is the case of an empty builder with nothing left
(`sheet_undoes_writing`).
-/
import PageLint.Proofs.Css.Building
import PageLint.Proofs.Css.Draft

namespace PageLint.Css

set_option autoImplicit false

open Text

/-! ## Looking ahead -/

/-- The kinds of lexeme that a written prelude, property or value has. -/
def plainKinds : List TokenKind := [.ident, .blank, .comma, .colon, .delim]

section Scans

variable {ts front back rest : Tokens} {e : Token TokenKind}

/-- Looking for the end of a prelude stops at the first brace or `;`. -/
theorem preludeExtent_append (plain : ∀ t ∈ ts, t.kind ∈ plainKinds) (ends : endsPrelude e) :
    preludeExtent 0 (ts ++ e :: rest) = ts.length := by
  induction ts with
  | nil =>
      have other : opensBracket e = false ∧ closesBracket e = false := by
        simp only [endsPrelude, Bool.or_eq_true, beq_iff_eq, or_assoc] at ends
        rcases ends with kind | kind | kind <;> simp [opensBracket, closesBracket, kind]
      simp [preludeExtent, other, ends]
  | cons t ts ih =>
      rw [List.forall_mem_cons] at plain
      have kind := plain.1
      simp only [plainKinds, List.mem_cons, List.not_mem_nil, or_false] at kind
      rw [List.cons_append, preludeExtent, ih plain.2]
      rcases kind with kind | kind | kind | kind | kind <;>
        simp [opensBracket, closesBracket, endsPrelude, kind]

/-- Looking for the end of a value stops at the first `;`. -/
theorem valueExtent_append (plain : ∀ t ∈ ts, t.kind ∈ plainKinds) (ends : e.kind = .semicolon) :
    valueExtent 0 (ts ++ e :: rest) = ts.length := by
  induction ts with
  | nil => simp [valueExtent, opensBracket, closesBracket, ends]
  | cons t ts ih =>
      rw [List.forall_mem_cons] at plain
      have kind := plain.1
      simp only [plainKinds, List.mem_cons, List.not_mem_nil, or_false] at kind
      rw [List.cons_append, valueExtent, ih plain.2]
      rcases kind with kind | kind | kind | kind | kind <;>
        simp [opensBracket, closesBracket, kind]

/-- Before a `;` no rule begins; before a `{` one does, but for a custom property. -/
theorem startsNestedRule_append (plain : ∀ t ∈ ts, t.kind ∈ plainKinds) (ends : endsPrelude e)
    (word : ∀ t ∈ ts.head?, "--".toList.isPrefixOf t.text = false) (some_ : ts ≠ []) :
    startsNestedRule (ts ++ e :: rest) = (e.kind == .braceOpen) := by
  have here : (ts ++ e :: rest)[ts.length]? = some e := by simp
  rw [startsNestedRule, preludeExtent_append plain ends, here]
  cases ts with
  | nil => exact absurd rfl some_
  | cons t ts =>
      have plainly := word t rfl
      simp only [List.cons_append, List.head?_cons, Option.any_some, plainly, Bool.and_false,
        Bool.not_false, Bool.true_and]

theorem trimTriviaEnd_append (last : ∀ t ∈ ts.getLast?, isTrivia t = false)
    (trivia : ∀ t ∈ back, isTrivia t) : trimTriviaEnd (ts ++ back) = ts := by
  have none_ : trimTriviaEnd back = [] := by
    induction back with
    | nil => rfl
    | cons t back ih =>
        rw [List.forall_mem_cons] at trivia
        simp [trimTriviaEnd, ih trivia.2, trivia.1]
  induction ts with
  | nil => exact none_
  | cons t ts ih =>
      cases ts with
      | nil =>
          have kept := last t rfl
          simp [trimTriviaEnd, none_, kept]
      | cons u ts =>
          rw [List.cons_append, trimTriviaEnd, ih last]

/-- What is trimmed off tokens is the trivia around them. -/
theorem trimTrivia_between (first : ∀ t ∈ ts.head?, isTrivia t = false)
    (last : ∀ t ∈ ts.getLast?, isTrivia t = false) (some_ : ts ≠ []) (before : ∀ t ∈ front, isTrivia t)
    (after : ∀ t ∈ back, isTrivia t) : trimTrivia (front ++ (ts ++ back)) = ts := by
  have stops : (ts ++ back).dropWhile isTrivia = ts ++ back := by
    cases ts with
    | nil => exact absurd rfl some_
    | cons t ts => simp [first t rfl]
  rw [trimTrivia, List.dropWhile_append_of_pos before, stops, trimTriviaEnd_append last after]

end Scans

/-! ## Compact lexemes -/

/-- Lexemes that begin and end with a word, all of them in `P`. -/
structure Compact (P : Lexeme TokenKind → Prop) (pieces : List (Lexeme TokenKind)) : Prop where
  first : ∃ w, IsWord w ∧ pieces.head? = some ⟨.ident, w⟩
  last : ∃ w, pieces.getLast? = some ⟨.ident, w⟩
  each : ∀ piece ∈ pieces, P piece

namespace Compact

variable {P Q : Lexeme TokenKind → Prop} {pieces more : List (Lexeme TokenKind)}

theorem ne_nil (compact : Compact P pieces) : pieces ≠ [] := by
  rintro rfl
  obtain ⟨w, -, none_⟩ := compact.first
  cases none_

theorem mono (compact : Compact P pieces) (weaker : ∀ piece, P piece → Q piece) :
    Compact Q pieces :=
  ⟨compact.first, compact.last, fun piece member => weaker piece (compact.each piece member)⟩

/-- Compact parts around others make a compact whole. -/
theorem append {between : List (Lexeme TokenKind)} (front : Compact P pieces)
    (inside : ∀ piece ∈ between, P piece) (back : Compact P more) :
    Compact P (pieces ++ (between ++ more)) where
  first := by
    obtain ⟨w, isWord, first⟩ := front.first
    exact ⟨w, isWord, by simp [first]⟩
  last := by
    obtain ⟨w, last⟩ := back.last
    exact ⟨w, by simp [List.getLast?_append, last]⟩
  each := by
    intro piece member
    rcases List.mem_append.mp member with member | member
    · exact front.each piece member
    rcases List.mem_append.mp member with member | member
    · exact inside piece member
    · exact back.each piece member

theorem intercalate {sep : List (Lexeme TokenKind)} {parts : List (List (Lexeme TokenKind))}
    (some_ : parts ≠ []) (each : ∀ part ∈ parts, Compact P part) (between : ∀ piece ∈ sep, P piece) :
    Compact P (sep.intercalate parts) := by
  match parts with
  | [] => exact absurd rfl some_
  | [part] =>
      rw [List.intercalate_singleton]
      exact each part List.mem_cons_self
  | part :: part' :: parts =>
      rw [List.forall_mem_cons] at each
      have later := intercalate (List.cons_ne_nil part' parts) each.2 between
      rw [List.intercalate_cons_cons, List.append_assoc]
      exact each.1.append between later

theorem isTrivia_of_ident {t : Token TokenKind} (kind : t.kind = .ident) : isTrivia t = false := by
  simp [isTrivia, kind]

/-- Compact lexemes are what is left when the trivia around them is trimmed off. -/
theorem trim (compact : Compact P pieces) (p : Position) (front back : Tokens)
    (before : ∀ t ∈ front, isTrivia t) (after : ∀ t ∈ back, isTrivia t) :
    trimTrivia (front ++ (locate p pieces ++ back)) = locate p pieces := by
  have kinds := map_kind_locate p pieces
  obtain ⟨w, -, first⟩ := compact.first
  obtain ⟨v, last⟩ := compact.last
  refine trimTrivia_between ?_ ?_ ?_ before after
  · intro t member
    have same := congrArg List.head? kinds
    rw [List.head?_map, List.head?_map, first, Option.mem_def.mp member] at same
    exact isTrivia_of_ident (Option.some.inj same)
  · intro t member
    have same := congrArg List.getLast? kinds
    rw [List.getLast?_map, List.getLast?_map, last, Option.mem_def.mp member] at same
    exact isTrivia_of_ident (Option.some.inj same)
  · intro none_
    rw [none_] at kinds
    exact compact.ne_nil (List.map_eq_nil_iff.mp kinds.symm)

end Compact

section Lexemes

variable {ws value : List (List Char)} {selectors : List (List (List Char))}

/-- A lexeme of written words. -/
def OfWords (piece : Lexeme TokenKind) : Prop :=
  (piece.kind = .ident ∨ piece.kind = .blank) ∧ piece.text ≠ ['!']

/-- A lexeme of a plain kind. -/
def IsPlain (piece : Lexeme TokenKind) : Prop := piece.kind ∈ plainKinds

instance : DecidablePred IsPlain := fun piece => inferInstanceAs (Decidable (piece.kind ∈ plainKinds))

theorem IsPlain.of_words {piece : Lexeme TokenKind} (ofWords : OfWords piece) : IsPlain piece := by
  rcases ofWords.1 with kind | kind <;> simp [IsPlain, plainKinds, kind]

theorem compact_words (areWords : AreWords ws) : Compact OfWords (wordLexemes ws) := by
  refine Compact.intercalate ?_ ?_ ?_
  · simpa using areWords.some_
  · intro part member
    obtain ⟨w, inside, rfl⟩ := List.mem_map.mp member
    have isWord := areWords.each w inside
    refine ⟨⟨w, isWord, rfl⟩, ⟨w, rfl⟩, List.forall_mem_singleton.mpr ⟨.inl rfl, ?_⟩⟩
    rintro rfl
    have bang := isWord.small '!' List.mem_cons_self
    cases bang
  · exact List.forall_mem_singleton.mpr ⟨.inr rfl, by decide⟩

theorem compact_selectors (some_ : selectors ≠ []) (each : ∀ s ∈ selectors, AreWords s) :
    Compact IsPlain (selectorLexemes selectors) := by
  refine Compact.intercalate ?_ ?_ ?_
  · simpa using some_
  · intro part member
    obtain ⟨s, inside, rfl⟩ := List.mem_map.mp member
    exact (compact_words (each s inside)).mono fun _ => .of_words
  · decide

theorem compact_value (areWords : AreWords value) (important : Bool) :
    Compact IsPlain (valueLexemes value important) := by
  have words := (compact_words areWords).mono fun _ => IsPlain.of_words
  cases important with
  | false =>
      rw [valueLexemes, importantLexemes, if_neg Bool.false_ne_true, List.append_nil]
      exact words
  | true =>
      have isWord : IsWord "important".toList := by decide
      have mark : Compact IsPlain [⟨.ident, "important".toList⟩] :=
        ⟨⟨_, isWord, rfl⟩, ⟨_, rfl⟩, by decide⟩
      have between : ∀ piece ∈ [spaceLexeme, ⟨.delim, ['!']⟩], IsPlain piece := by decide
      exact words.append between mark

/-- The tokens of plain lexemes. -/
theorem plain_locate {pieces : List (Lexeme TokenKind)} (plain : ∀ piece ∈ pieces, IsPlain piece)
    (p : Position) : ∀ t ∈ locate p pieces, t.kind ∈ plainKinds :=
  fun _ member => plain _ (mem_of_mem_locate member)

/-- The texts of lexemes that a text is cut into are that text. -/
theorem texts_of_cut {part : List Char} {pieces : List (Lexeme TokenKind)}
    (cuts : cut scan false (part ++ []) = pieces ++ cut scan false []) :
    pieces.flatMap Lexeme.text = part := by
  have whole := texts_cut scan false part
  rw [List.append_nil, cut_nil, List.append_nil] at cuts
  rwa [cuts, ← List.flatMap_def] at whole

theorem texts_words (areWords : ∀ w ∈ ws, IsWord w) :
    (wordLexemes ws).flatMap Lexeme.text = writeWords ws :=
  texts_of_cut (cut_words areWords (by simp [EndsWord]))

theorem textOf_locate (p : Position) (pieces : List (Lexeme TokenKind)) :
    textOf (locate p pieces) = pieces.flatMap Lexeme.text := by
  rw [textOf, map_text_locate, List.flatMap_def]

end Lexemes

/-! ## Selectors -/

section Selectors

variable {selectors : List (List (List Char))} {part rest front : Tokens}

/-- Up to the next comma outside brackets it is one part. -/
theorem splitAtCommas_append {first : Tokens} {comma : Option (Token TokenKind)}
    {parts : List (Tokens × Option (Token TokenKind))} (plain : ∀ t ∈ part, t.kind ∈ plainKinds)
    (none_ : ∀ t ∈ part, t.kind ≠ .comma) (split : splitAtCommas 0 rest = (first, comma) :: parts) :
    splitAtCommas 0 (part ++ rest) = (part ++ first, comma) :: parts := by
  induction part with
  | nil => exact split
  | cons t part ih =>
      rw [List.forall_mem_cons] at plain none_
      have kind := plain.1
      simp only [plainKinds, List.mem_cons, List.not_mem_nil, or_false] at kind
      have later := ih plain.2 none_.2
      rcases kind with kind | kind | kind | kind | kind
      case inr.inr.inl => exact absurd kind none_.1
      all_goals simp [splitAtCommas, opensBracket, closesBracket, kind, later]

/-- One part of a written prelude is one selector. -/
theorem addPart_words {s : List (List Char)} (areWords : AreWords s)
    (blank : ∀ t ∈ front, t.kind = .blank) (p : Position) (last : Token TokenKind)
    (comma : Option (Token TokenKind)) (read : List Selector × List Issue) : ∃ selector,
      addPart last (front ++ locate p (wordLexemes s), comma) read = (selector :: read.1, read.2) ∧
        selector.text = writeWords s := by
  have compact := compact_words areWords
  have trivia : ∀ t ∈ front, isTrivia t := fun t member => by simp [isTrivia, blank t member]
  have trimmed := compact.trim p front [] trivia (by simp)
  rw [List.append_nil] at trimmed
  have text : textOf (locate p (wordLexemes s)) = writeWords s := by
    rw [textOf_locate, texts_words areWords.each]
  rw [addPart, trimmed]
  cases found : spanOf? (locate p (wordLexemes s)) with
  | some span => exact ⟨_, rfl, text⟩
  | none =>
      cases pieces : wordLexemes s with
      | nil => exact absurd pieces compact.ne_nil
      | cons piece more =>
          rw [pieces, locate, spanOf?, List.head?_cons, List.getLast?_cons] at found
          cases found

/-- Selectors with commas between them are read one by one. The induction is on the selectors;
that a part may begin with a space carries it. -/
theorem foldr_addPart_selectors (some_ : selectors ≠ []) (each : ∀ s ∈ selectors, AreWords s)
    (blank : ∀ t ∈ front, t.kind = .blank) (p : Position) (last : Token TokenKind) : ∃ found,
      (splitAtCommas 0 (front ++ locate p (selectorLexemes selectors))).foldr (addPart last)
        ([], []) = (found, []) ∧ found.map Selector.text = selectors.map writeWords := by
  induction selectors generalizing p front with
  | nil => exact absurd rfl some_
  | cons s selectors ih =>
      rw [List.forall_mem_cons] at each
      have kinds : ∀ t ∈ front ++ locate p (wordLexemes s), t.kind = .ident ∨ t.kind = .blank := by
        intro t member
        rcases List.mem_append.mp member with member | member
        · exact .inr (blank t member)
        · exact ((compact_words each.1).each _ (mem_of_mem_locate member)).1
      have plain : ∀ t ∈ front ++ locate p (wordLexemes s), t.kind ∈ plainKinds := by
        intro t member
        rcases kinds t member with kind | kind <;> simp [plainKinds, kind]
      have none_ : ∀ t ∈ front ++ locate p (wordLexemes s), t.kind ≠ .comma := by
        intro t member
        rcases kinds t member with kind | kind <;> simp [kind]
      cases selectors with
      | nil =>
          obtain ⟨selector, read, text⟩ := addPart_words each.1 blank p last none ([], [])
          have whole := splitAtCommas_append plain none_ (rfl : splitAtCommas 0 [] = [([], none)])
          rw [List.append_nil] at whole
          rw [selectorLexemes, List.map_singleton, List.intercalate_singleton, whole,
            List.foldr_cons, List.foldr_nil, read]
          exact ⟨[selector], rfl, congrArg (fun text => [text]) text⟩
      | cons s' selectors =>
          rw [selectorLexemes, List.map_cons, List.map_cons, List.intercalate_cons_cons,
            ← List.map_cons, ← selectorLexemes, List.append_assoc, locate_append, List.cons_append,
            List.singleton_append, locate, locate, ← List.append_assoc,
            splitAtCommas_append plain none_ (by rw [splitAtCommas, if_pos ⟨rfl, rfl⟩]),
            List.append_nil, List.foldr_cons]
          generalize (p.after _).after _ = q
          have space : ∀ t ∈ [(⟨spaceLexeme.kind, spaceLexeme.text,
              .covering q spaceLexeme.text⟩ : Token TokenKind)], t.kind = .blank :=
            List.forall_mem_singleton.mpr rfl
          obtain ⟨found, later, texts⟩ := ih (List.cons_ne_nil s' selectors) each.2 space
            (q.after spaceLexeme.text)
          rw [List.singleton_append] at later
          rw [later]
          obtain ⟨selector, read, text⟩ := addPart_words each.1 blank p last
            (some ⟨.comma, [','], .covering (p.after ((wordLexemes s).flatMap Lexeme.text)) [',']⟩)
            (found, [])
          rw [read]
          exact ⟨selector :: found, rfl, congrArg₂ List.cons text texts⟩

/-- **Written selectors are read as they were meant.** -/
theorem readSelectors_written (some_ : selectors ≠ []) (each : ∀ s ∈ selectors, AreWords s)
    (p : Position) : ∃ found,
      readSelectors (locate p (selectorLexemes selectors)) = (found, []) ∧
        found.map Selector.text = selectors.map writeWords := by
  rw [readSelectors_eq]
  cases final : (locate p (selectorLexemes selectors)).getLast? with
  | none =>
      have empty := congrArg (List.map Token.kind) (List.getLast?_eq_none_iff.mp final)
      rw [map_kind_locate] at empty
      exact absurd (List.map_eq_nil_iff.mp empty) (compact_selectors some_ each).ne_nil
  | some last => exact foldr_addPart_selectors some_ each (List.forall_mem_nil _) p last

end Selectors

/-! ## Declarations -/

section Declarations

variable {value : List (List Char)}

/-- A value without a `!` is not important. -/
theorem splitImportant_none {value : Tokens}
    (none_ : ∀ t ∈ value, t.kind ≠ .delim ∧ t.text ≠ ['!']) :
    splitImportant value = (value, none) := by
  have none' : ∀ t ∈ value.reverse, t.kind ≠ .delim ∧ t.text ≠ ['!'] :=
    fun t member => none_ t (List.mem_reverse.mp member)
  rw [splitImportant]
  generalize value.reverse = backwards at none' ⊢
  rcases backwards with _ | ⟨word, _ | ⟨bang, _ | ⟨sign, front⟩⟩⟩
  · rfl
  · dsimp only
    split <;> rfl
  · have one := none' bang (by simp)
    simp [one]
  · have one := none' bang (by simp)
    have two := none' sign (by simp)
    simp [one, two]

/-- **The mark of importance is taken off a written value.** -/
theorem splitImportant_written (areWords : AreWords value) (important : Bool) (p : Position) :
    ∃ mark : Option Span, mark.isSome = important ∧
      splitImportant (locate p (valueLexemes value important)) =
        (locate p (wordLexemes value), mark) := by
  have compact := compact_words areWords
  cases important with
  | false =>
      have plain : ∀ t ∈ locate p (wordLexemes value), t.kind ≠ .delim ∧ t.text ≠ ['!'] := by
        intro t member
        obtain ⟨kind, text⟩ := compact.each _ (mem_of_mem_locate member)
        refine ⟨?_, text⟩
        rcases kind with kind | kind <;> simp [show t.kind = _ from kind]
      rw [valueLexemes, importantLexemes, if_neg Bool.false_ne_true, List.append_nil]
      exact ⟨none, rfl, splitImportant_none plain⟩
  | true =>
      rw [valueLexemes, importantLexemes, if_pos rfl, locate_append]
      generalize p.after ((wordLexemes value).flatMap Lexeme.text) = q
      have trimmed := compact.trim p []
        [⟨spaceLexeme.kind, spaceLexeme.text, .covering q spaceLexeme.text⟩] (by simp)
        (List.forall_mem_singleton.mpr rfl)
      have word : sameIgnoringCase "important".toList "important" = true := rfl
      simp only [List.nil_append] at trimmed
      simp only [splitImportant, locate, List.reverse_append, List.reverse_cons, List.reverse_nil,
        List.nil_append, List.cons_append, isImportantWord, word, beq_self_eq_true, Bool.and_self,
        Bool.not_true, Bool.false_eq_true, if_false, if_true, List.reverse_reverse, trimmed]
      exact ⟨_, rfl, rfl⟩

/-- The tokens of a written declaration: its property, and then its colon, a space, its value and
its `;`. -/
theorem locate_declaration (property : List Char) (value : List (List Char)) (important : Bool)
    (p : Position) : ∃ (colon space semicolon : Token TokenKind) (q : Position),
      locate p (declarationLexemes property value important) =
        ⟨.ident, property, .covering p property⟩ ::
          (colon :: space :: (locate q (valueLexemes value important) ++ [semicolon])) ∧
      colon.kind = .colon ∧ space.kind = .blank ∧ semicolon.kind = .semicolon := by
  simp only [declarationLexemes, locate, locate_append]
  exact ⟨_, _, _, _, rfl, rfl, rfl, rfl⟩

/-- **A written declaration is read as it was meant**, up to its `;`. -/
theorem read?_written (areWords : AreWords value) (important : Bool) {t colon space semicolon :
    Token TokenKind} (q : Position) (isProperty : t.kind = .ident)
    (isColon : colon.kind = .colon) (isSpace : space.kind = .blank)
    (ends : semicolon.kind = .semicolon) :
    ∃ d, d.meaning = (t.text, writeWords value, important, true) ∧ ∀ tail,
      Declaration.read? t
          (colon :: space :: (locate q (valueLexemes value important) ++ semicolon :: tail)) =
        some (d, (locate q (valueLexemes value important)).length + 4) := by
  have compact := compact_value areWords important
  obtain ⟨mark, isSome, split⟩ := splitImportant_written areWords important q
  have plain := plain_locate compact.each q
  have trimmed := compact.trim q [space] []
    (List.forall_mem_singleton.mpr (by simp [isTrivia, isSpace])) (by simp)
  generalize locate q (valueLexemes value important) = tokens at plain trimmed split ⊢
  rw [List.singleton_append, List.append_nil] at trimmed
  have text : textOf (locate q (wordLexemes value)) = writeWords value := by
    rw [textOf_locate, texts_words areWords.each]
  have kept : (some semicolon).filter (·.kind == .semicolon) = some semicolon := by
    simp [Option.filter, ends]
  refine ⟨⟨t.text, t.span, colon.span, writeWords value, spanOf? (locate q (wordLexemes value)),
    locate q (wordLexemes value), mark, some semicolon.span, ⟨t.span.start,
      ((mark.or (spanOf? (locate q (wordLexemes value)))).getD colon.span).finish⟩⟩, ?_, ?_⟩
  · exact congrArg (fun marked => (t.text, writeWords value, marked, true)) isSome
  intro tail
  have extent : valueExtent 0 (space :: tokens ++ semicolon :: tail) = (space :: tokens).length :=
    valueExtent_append (List.forall_mem_cons.mpr ⟨by simp [plainKinds, isSpace], plain⟩) ends
  have gap : (colon :: space :: (tokens ++ semicolon :: tail)).takeWhile isTrivia = [] := by
    simp [isTrivia, isColon]
  rw [List.cons_append, List.length_cons] at extent
  have whole : (space :: (tokens ++ semicolon :: tail)).take (tokens.length + 1) =
      space :: tokens := by simp
  have last : (space :: (tokens ++ semicolon :: tail))[tokens.length + 1]? = some semicolon := by
    simp
  simp only [Declaration.read?, gap, List.length_nil, List.drop_zero, isProperty, isColon, and_self,
    if_true, extent, whole, trimmed, split, text, last, kept, Option.toList_some,
    List.length_singleton, Option.map_some]
  rw [show 1 + 0 + 1 + (tokens.length + 1) + 1 = tokens.length + 4 by omega]

end Declarations

/-! ## Reading from the middle of a stylesheet -/

namespace Builder

variable {cap : Nat} {last p : Position} {b b' : Builder} {part rest : List Char}

/-- What a text does to a builder when it stands at a place, with all that is wrong in it. -/
def read (cap : Nat) (last : Position) (b : Builder) (p : Position) (cs : List Char) :
    Builder × List Issue :=
  let ts := locate p (cut scan false cs)
  ((b.run cap last ts).1, tokenIssues ts ++ (b.run cap last ts).2)

theorem run_cons (cap : Nat) (last : Position) (b : Builder) (t : Token TokenKind) (rest : Tokens) :
    b.run cap last (t :: rest) =
      let s := b.step cap last t rest
      let done := s.builder.run cap last (rest.drop s.more)
      (done.1, s.issues ++ done.2) := by
  rw [run]

/-- A lexeme that has no fault by itself, whatever its text is. -/
def IsSound (piece : Lexeme TokenKind) : Prop := piece.kind ∉ [TokenKind.badString, .comment, .url]

instance : DecidablePred IsSound := fun piece =>
  inferInstanceAs (Decidable (piece.kind ∉ [TokenKind.badString, .comment, .url]))

theorem IsSound.of_plain {piece : Lexeme TokenKind} (plain : IsPlain piece) : IsSound piece := by
  have apart : ∀ kind ∈ plainKinds, kind ∉ [TokenKind.badString, .comment, .url] := by decide
  exact apart piece.kind plain

theorem tokenIssues_append (ts more : Tokens) :
    tokenIssues (ts ++ more) = tokenIssues ts ++ tokenIssues more :=
  List.filterMap_append

theorem tokenIssues_locate {pieces : List (Lexeme TokenKind)} (sound : ∀ piece ∈ pieces, IsSound piece)
    (p : Position) : tokenIssues (locate p pieces) = [] := by
  refine List.filterMap_eq_nil_iff.mpr fun t member => ?_
  have own : t.kind ∉ [TokenKind.badString, .comment, .url] := sound _ (mem_of_mem_locate member)
  simp only [List.mem_cons, List.not_mem_nil, or_false, not_or] at own
  have none_ : tokenFault? t = none := by
    unfold tokenFault?
    split
    next kind => exact absurd kind own.1
    next kind => exact absurd kind own.2.1
    next kind => exact absurd kind own.2.2
    next => rfl
  rw [none_]
  rfl

/-- **A text that one step takes in without a fault.** -/
theorem read_of_cut (part : List Char) (pieces : List (Lexeme TokenKind)) (some_ : pieces ≠ [])
    (sound : ∀ piece ∈ pieces, IsSound piece)
    (cuts : cut scan false (part ++ rest) = pieces ++ cut scan false rest)
    (steps : ∀ t more tail, locate p pieces = t :: more →
      b.step cap last t (more ++ tail) = ⟨b', [], more.length⟩) :
    b.read cap last p (part ++ rest) = b'.read cap last (p.after part) rest := by
  have texts : pieces.flatMap Lexeme.text = part := by
    have whole := texts_cut scan false (part ++ rest)
    rw [cuts, List.map_append, List.flatten_append, texts_cut, ← List.flatMap_def] at whole
    exact List.append_cancel_right whole
  have quiet := tokenIssues_locate sound p
  simp only [read, cuts, locate_append, texts, tokenIssues_append, quiet, List.nil_append]
  cases located : locate p pieces with
  | nil =>
      cases pieces with
      | nil => exact absurd rfl some_
      | cons piece pieces => cases located
  | cons t more =>
      rw [List.cons_append, run_cons, steps t more _ located]
      simp only [List.drop_left, List.nil_append]

theorem sound_declaration {property : List Char} {value : List (List Char)}
    (areWords : AreWords value) (important : Bool) :
    ∀ piece ∈ declarationLexemes property value important, IsSound piece := by
  refine List.forall_mem_cons.mpr ⟨.of_plain (by simp [IsPlain, plainKinds]), ?_⟩
  refine List.forall_mem_cons.mpr ⟨by decide, List.forall_mem_cons.mpr ⟨by decide, ?_⟩⟩
  refine List.forall_mem_append.mpr ⟨?_, by decide⟩
  exact fun piece member => .of_plain ((compact_value areWords important).each piece member)

theorem sound_opening {selectors : List (List (List Char))} (some_ : selectors ≠ [])
    (each : ∀ s ∈ selectors, AreWords s) : ∀ piece ∈ openingLexemes selectors, IsSound piece := by
  refine List.forall_mem_append.mpr ⟨?_, by decide⟩
  exact fun piece member => .of_plain ((compact_selectors some_ each).each piece member)

theorem sound_mediaOpening (word : List Char) : ∀ piece ∈ mediaOpeningLexemes word, IsSound piece := by
  simp [mediaOpeningLexemes, spaceLexeme, IsSound]

/-- A space does nothing. -/
theorem read_space (ends : EndsSpace rest) :
    b.read cap last p (' ' :: rest) = b.read cap last (p.after [' ']) rest := by
  refine read_of_cut [' '] [spaceLexeme] (List.cons_ne_nil _ _) (by decide)
    (cut_space ends) ?_
  rintro t more tail ⟨⟩
  rfl

/-- A `}` ends the innermost open block. -/
theorem read_close (some_ : b.stack ≠ []) :
    b.read cap last p ('}' :: rest) =
      (b.close (some (.covering p ['}'])) last).read cap last (p.after ['}']) rest := by
  refine read_of_cut ['}'] [⟨.braceClose, ['}']⟩] (List.cons_ne_nil _ _)
    (by decide) (cut_sign (by decide) rest) ?_
  rintro t more tail ⟨⟩
  have held : b.stack.isEmpty = false := by simpa using some_
  simp only [step, held]
  rfl

/-! ## What written entries do -/

/-- A builder with a further open block. -/
def push (b : Builder) (frame : Frame) : Builder := { b with stack := frame :: b.stack }

/-- Ending a further block adds the item that it is. -/
theorem close_push (b : Builder) (frame : Frame) (closing : Option Span) (last : Position) :
    (b.push frame).close closing last = b.addItem (frame.close closing last) := rfl

/-- A builder is ready for a draft: there is room for the blocks of the draft, the draft stands
in a block of declarations if it is one, and no steps of an animation are expected. -/
structure Ready (cap : Nat) (b : Builder) (d : Draft) : Prop where
  room : b.stack.length + d.depth ≤ cap
  place : d.isItem = false → b.inBlock
  calm : b.inKeyframes = false

/-- No word begins like a custom property. -/
theorem not_custom_of_isWord {w : List Char} (isWord : IsWord w) : "--".toList.isPrefixOf w = false := by
  obtain ⟨some_, small⟩ := isWord
  cases w with
  | nil => exact absurd rfl some_
  | cons c w =>
      have dash := (ne_signs_of_isLower (small c List.mem_cons_self)).2.2.1
      simp [List.isPrefixOf, dash]

/-- An identifier begins an entry of a block of declarations, and elsewhere a rule or a
declaration. -/
theorem step_ident {t : Token TokenKind} (kind : t.kind = .ident) {rest : Tokens} :
    b.step cap last t rest =
      if b.inBlock then b.takeEntry cap last t rest else b.takeRule cap last t rest := by
  simp [step, kind]

/-- A written declaration, taken in. -/
theorem step_declaration {property : List Char} {value : List (List Char)} (isWord : IsWord property)
    (areWords : AreWords value) (important : Bool) (inBlock : b.inBlock) (cap : Nat)
    (last p : Position) : ∃ d, d.meaning = (property, writeWords value, important, true) ∧
      ∀ t more tail, locate p (declarationLexemes property value important) = t :: more →
        b.step cap last t (more ++ tail) = ⟨b.addDeclaration d, [], more.length⟩ := by
  obtain ⟨colon, space, semicolon, q, located, isColon, isSpace, ends⟩ :=
    locate_declaration property value important p
  have plain := plain_locate (compact_value areWords important).each q
  obtain ⟨d, means, read⟩ := read?_written areWords important
    (t := ⟨.ident, property, .covering p property⟩) q rfl isColon isSpace ends
  refine ⟨d, means, ?_⟩
  intro t more tail same
  rw [located] at same
  obtain ⟨rfl, rfl⟩ := List.cons.inj same
  specialize read tail
  generalize locate q (valueLexemes value important) = tokens at plain read
  have none_ : startsNestedRule (⟨.ident, property, .covering p property⟩ :: colon :: space ::
      tokens ++ semicolon :: tail) = (semicolon.kind == .braceOpen) :=
    startsNestedRule_append ?_ ?_ ?_ nofun
  · rw [List.cons_append, List.cons_append, List.cons_append, ends] at none_
    simp only [List.cons_append, List.append_assoc, List.nil_append]
    rw [step_ident rfl, if_pos inBlock, takeEntry]
    simp only [none_, read]
    simp
  · simpa [plainKinds, isColon, isSpace] using plain
  · simp [endsPrelude, ends]
  · rintro t ⟨⟩
    exact not_custom_of_isWord isWord

/-- The tokens of the beginning of a written style rule: its selectors, a space and its `{`. -/
theorem locate_opening (selectors : List (List (List Char))) (p : Position) :
    ∃ space brace : Token TokenKind,
      locate p (openingLexemes selectors) =
        locate p (selectorLexemes selectors) ++ [space, brace] ∧
      space.kind = .blank ∧ brace.kind = .braceOpen := by
  rw [openingLexemes, locate_append]
  exact ⟨_, _, rfl, rfl, rfl⟩

/-- A block for which there is room is opened. -/
theorem openBlock_of_room (room : b.stack.length < cap) (frame : Frame) (inside : Tokens) :
    b.openBlock cap last frame inside = ⟨b.push frame, [], 0⟩ := by
  rw [openBlock, if_neg (by omega)]
  rfl

/-- A written prelude is read, and its block opened. -/
theorem openStyle_written {selectors : List (List (List Char))} (some_ : selectors ≠ [])
    (each : ∀ s ∈ selectors, AreWords s) (room : b.stack.length < cap) (last p : Position)
    {space : Token TokenKind} (isSpace : space.kind = .blank) (opening : Span) :
    ∃ found, found.map Selector.text = selectors.map writeWords ∧
      ∀ brace tail, b.openStyle cap last false (locate p (selectorLexemes selectors) ++ [space]).length
          opening ((locate p (selectorLexemes selectors) ++ [space]) ++ brace :: tail) =
        ⟨b.push (.block (.style found (spanOf? (locate p (selectorLexemes selectors))) false) opening
          [] [] []), [], (locate p (selectorLexemes selectors) ++ [space]).length⟩ := by
  obtain ⟨found, read, texts⟩ := readSelectors_written some_ each p
  have trimmed := (compact_selectors some_ each).trim p [] [space] (by simp)
    (List.forall_mem_singleton.mpr (by simp [isTrivia, isSpace]))
  rw [List.nil_append] at trimmed
  refine ⟨found, texts, ?_⟩
  intro brace tail
  simp only [openStyle, List.take_left, trimmed, read, openBlock_of_room room, List.nil_append,
    Nat.add_zero]

/-- The beginning of a written style rule opens its block. -/
theorem step_opening {selectors : List (List (List Char))} (some_ : selectors ≠ [])
    (each : ∀ s ∈ selectors, AreWords s) (room : b.stack.length < cap)
    (calm : b.inKeyframes = false) (last p : Position) : ∃ found prelude opening,
      found.map Selector.text = selectors.map writeWords ∧
      ∀ t more tail, locate p (openingLexemes selectors) = t :: more →
        b.step cap last t (more ++ tail) =
          ⟨b.push (.block (.style found prelude false) opening [] [] []), [], more.length⟩ := by
  obtain ⟨space, brace, located, isSpace, opens⟩ := locate_opening selectors p
  obtain ⟨found, texts, opened⟩ := openStyle_written (b := b) some_ each room last p isSpace brace.span
  have compact := compact_selectors some_ each
  have plain : ∀ u ∈ locate p (selectorLexemes selectors) ++ [space], u.kind ∈ plainKinds := by
    refine List.forall_mem_append.mpr ⟨plain_locate compact.each p, ?_⟩
    exact List.forall_mem_singleton.mpr (by simp [plainKinds, isSpace])
  have ends : endsPrelude brace := by simp [endsPrelude, opens]
  refine ⟨found, spanOf? (locate p (selectorLexemes selectors)), brace.span, texts, ?_⟩
  intro t more tail same
  have first : ∃ front, IsWord t.text ∧ t.kind = .ident ∧
      locate p (selectorLexemes selectors) ++ [space] = t :: front := by
    obtain ⟨w, isWord, first⟩ := compact.first
    cases pieces : selectorLexemes selectors with
    | nil => exact absurd pieces compact.ne_nil
    | cons piece pieces' =>
        rw [pieces] at first
        obtain rfl := Option.some.inj first
        rw [located, pieces] at same
        obtain ⟨rfl, -⟩ := List.cons.inj same
        exact ⟨_, isWord, rfl, rfl⟩
  obtain ⟨front, isWord, kind, parted⟩ := first
  have here : t :: (more ++ tail) = t :: front ++ brace :: tail := by
    rw [← List.cons_append, ← same, located, ← parted]
    simp
  have count : (t :: front).length = more.length := by
    have whole := congrArg List.length here
    simp only [List.length_cons, List.length_append] at whole ⊢
    omega
  specialize opened brace tail
  rw [parted] at opened plain
  have extent : preludeExtent 0 (t :: front ++ brace :: tail) = (t :: front).length :=
    preludeExtent_append plain ends
  have at_ : (t :: front ++ brace :: tail)[(t :: front).length]? = some brace := by simp
  have nested : startsNestedRule (t :: front ++ brace :: tail) = (brace.kind == .braceOpen) :=
    startsNestedRule_append plain ends (by rintro u ⟨⟩; exact not_custom_of_isWord isWord)
      (List.cons_ne_nil t front)
  rw [count] at extent at_ opened
  rw [opens, beq_self_eq_true] at nested
  rw [step_ident kind]
  split
  · simp only [takeEntry, here, nested, extent, at_, Option.map_some, Option.getD_some, opened,
      if_true]
  · simp only [takeRule, here, opens, extent, at_, Option.any_some, beq_self_eq_true,
      Option.map_some, Option.getD_some, calm, opened, if_true]

/-- The tokens of the beginning of a written `@media` rule. -/
theorem locate_mediaOpening (word : List Char) (p : Position) :
    ∃ (keyword space name margin brace : Token TokenKind),
      locate p (mediaOpeningLexemes word) = [keyword, space, name, margin, brace] ∧
      keyword.kind = .atKeyword ∧ keyword.text = '@' :: mediaName ∧ space.kind = .blank ∧
      name.kind = .ident ∧ name.text = word ∧ margin.kind = .blank ∧ brace.kind = .braceOpen :=
  ⟨_, _, _, _, _, rfl, rfl, rfl, rfl, rfl, rfl, rfl, rfl⟩

/-- The beginning of a written `@media` rule opens its block. -/
theorem step_mediaOpening (word : List Char) (room : b.stack.length < cap) (last p : Position) :
    ∃ head opening, head.name = mediaName ∧ textOf head.prelude = word ∧
      ∀ t more tail, locate p (mediaOpeningLexemes word) = t :: more →
        b.step cap last t (more ++ tail) = ⟨b.push (.rules head opening []), [], more.length⟩ := by
  obtain ⟨keyword, space, name, margin, brace, located, isKeyword, isMedia, isSpace, isWord, isName,
    isMargin, opens⟩ := locate_mediaOpening word p
  refine ⟨⟨mediaName, keyword.span, [name]⟩, brace.span, rfl, by simp [textOf, isName], ?_⟩
  intro t more tail same
  rw [located] at same
  obtain ⟨rfl, rfl⟩ := List.cons.inj same
  have extent : preludeExtent 0 ([space, name, margin] ++ brace :: tail) = 3 :=
    preludeExtent_append (by simp [plainKinds, isSpace, isWord, isMargin])
      (by simp [endsPrelude, opens])
  have trimmed : trimTrivia ([space] ++ ([name] ++ [margin])) = [name] :=
    trimTrivia_between (by simp [isTrivia, isWord]) (by simp [isTrivia, isWord])
      (List.cons_ne_nil name []) (by simp [isTrivia, isSpace]) (by simp [isTrivia, isMargin])
  have small : lowerAscii (keyword.text.drop 1) = mediaName := by
    rw [isMedia]
    decide
  have solid : declarationAtRules.contains mediaName = false := by decide
  simp only [List.cons_append, List.nil_append] at extent trimmed
  have before : (space :: name :: margin :: brace :: tail).take 3 = [space, name, margin] := rfl
  have at_ : (space :: name :: margin :: brace :: tail)[3]? = some brace := rfl
  simp only [List.cons_append, List.nil_append, step, isKeyword, takeAtRule, extent, before, at_,
    trimmed, small, solid, opens, openBlock_of_room room, reduceCtorEq, if_false, if_true]
  rfl

/-! ## What drafts add -/

/-- What a draft adds to a builder: an item that shows it, or the declaration that it means. -/
inductive Takes (b : Builder) (d : Draft) : Builder → Prop
  | item {item : Item} : d.Shown item → Takes b d (b.addItem item)
  | declaration {found : Declaration} :
      d.meaning? = some found.meaning → Takes b d (b.addDeclaration found)

/-- What drafts add to a builder one after the other. -/
inductive TakesAll : Builder → List Draft → Builder → Prop
  | nil {b : Builder} : TakesAll b [] b
  | cons {b b' b'' : Builder} {d : Draft} {ds : List Draft} :
      b.Takes d b' → TakesAll b' ds b'' → TakesAll b (d :: ds) b''

variable {d : Draft} {ds : List Draft}

/-- What is added goes into the innermost open block. -/
structure Kept (b b' : Builder) : Prop where
  length : b'.stack.length = b.stack.length
  inBlock : b'.inBlock = b.inBlock
  inKeyframes : b'.inKeyframes = b.inKeyframes

theorem Takes.kept (takes : b.Takes d b') : Kept b b' := by
  obtain ⟨stack, top⟩ := b
  cases takes with
  | item shown => rcases stack with _ | ⟨_ | _, outer⟩ <;> exact ⟨rfl, rfl, rfl⟩
  | declaration means => rcases stack with _ | ⟨_ | _, outer⟩ <;> exact ⟨rfl, rfl, rfl⟩

theorem TakesAll.kept (takes : TakesAll b ds b') : Kept b b' := by
  induction takes with
  | nil => exact ⟨rfl, rfl, rfl⟩
  | cons first _ later =>
      have own := first.kept
      exact ⟨later.length.trans own.length, later.inBlock.trans own.inBlock,
        later.inKeyframes.trans own.inKeyframes⟩

theorem Ready.kept (ready : b.Ready cap d) (kept : Kept b b') : b'.Ready cap d where
  room := by
    rw [kept.length]
    exact ready.room
  place isDeclaration := kept.inBlock.trans (ready.place isDeclaration)
  calm := kept.inKeyframes.trans ready.calm

/-- What a block has got when drafts were added: their declarations and their items, each in
order. -/
theorem TakesAll.inBlock {owner : Owner} {opening : Span} {declarations : List Declaration}
    {nested : List Item} (takes : TakesAll (b.push (.block owner opening declarations [] nested)) ds b') :
    ∃ (found : List Declaration) (nodes : List Item),
      found.map Declaration.meaning = ds.filterMap Draft.meaning? ∧
      List.Forall₂ Draft.Shown (ds.filter Draft.isItem) nodes ∧
      b' = b.push
        (.block owner opening (found.reverse ++ declarations) [] (nodes.reverse ++ nested)) := by
  induction ds generalizing declarations nested with
  | nil =>
      cases takes
      exact ⟨[], [], rfl, .nil, rfl⟩
  | cons d ds ih =>
      cases takes with
      | cons first later =>
          cases first with
          | @item node shown =>
              obtain ⟨found, nodes, meanings, others, rfl⟩ := ih later
              refine ⟨found, node :: nodes, ?_, ?_, by simp⟩
              · cases shown <;> exact meanings
              · cases shown with
                | style selectors keyframe declarations nodes comments opens closes =>
                    exact .cons (.style selectors keyframe declarations nodes comments opens closes)
                      others
                | media name prelude body nodes => exact .cons (.media name prelude body nodes) others
          | @declaration own means =>
              obtain ⟨found, nodes, meanings, others, rfl⟩ := ih later
              have isDeclaration : d.isItem = false := by
                cases d with
                | declaration property value important => rfl
                | style selectors entries => cases means
                | media word items => cases means
              refine ⟨own :: found, nodes, ?_, ?_, by simp⟩
              · rw [List.map_cons, List.filterMap_cons_some means, meanings]
              · rwa [List.filter_cons_of_neg (by simp [isDeclaration])]

/-- Drafts that are all items add items. -/
theorem TakesAll.items (items : ∀ d ∈ ds, d.isItem) (takes : TakesAll b ds b') :
    ∃ nodes, List.Forall₂ Draft.Shown ds nodes ∧ b' = nodes.foldl addItem b := by
  induction takes with
  | nil => exact ⟨[], .nil, rfl⟩
  | cons first _ ih =>
      rw [List.forall_mem_cons] at items
      obtain ⟨nodes, others, rfl⟩ := ih items.2
      cases first with
      | item shown => exact ⟨_ :: nodes, .cons shown others, rfl⟩
      | declaration means =>
          have isItem := items.1
          unfold Draft.meaning? at means
          split at means
          · cases isItem
          · cases means

theorem foldl_addItem_rules (b : Builder) (head : AtHead) (opening : Span)
    (nodes items : List Item) :
    nodes.foldl addItem (b.push (.rules head opening items)) =
      b.push (.rules head opening (nodes.reverse ++ items)) := by
  induction nodes generalizing items with
  | nil => rfl
  | cons node nodes ih =>
      have first : (b.push (.rules head opening items)).addItem node =
          b.push (.rules head opening (node :: items)) := rfl
      rw [List.foldl_cons, first, ih]
      simp

theorem foldl_addItem_top (nodes top : List Item) :
    nodes.foldl addItem ⟨[], top⟩ = ⟨[], nodes.reverse ++ top⟩ := by
  induction nodes generalizing top with
  | nil => rfl
  | cons node nodes ih => simp [addItem, ih]

end Builder

/-! ## Drafts, read back -/

section ReadBack

open Builder

variable {d : Draft} {ds : List Draft} {cap : Nat} {last p : Position} {b b' : Builder}
  {rest : List Char}

/-- **Reading what is written of a draft adds what it says**, wherever the draft stands and
whatever follows it. -/
def Draft.ReadBack (d : Draft) : Prop :=
  ∀ (cap : Nat) (last : Position) (b : Builder) (p : Position) (rest : List Char), b.Ready cap d →
    ∃ b', b.Takes d b' ∧
      b.read cap last p (d.write ++ rest) = b'.read cap last (p.after d.write) rest

/-- Drafts in a block that are read back each by itself are read back one after the other. -/
theorem readBack_inside (fine : ∀ d ∈ ds, d.Fine) (each : ∀ d ∈ ds, d.ReadBack)
    (ready : ∀ d ∈ ds, b.Ready cap d) (ends : EndsSpace rest) (last p : Position) :
    ∃ b', TakesAll b ds b' ∧
      b.read cap last p (writeInside ds ++ rest) =
        b'.read cap last (p.after (writeInside ds)) rest := by
  induction ds generalizing b p with
  | nil => exact ⟨b, .nil, rfl⟩
  | cons d ds ih =>
      rw [List.forall_mem_cons] at fine each ready
      obtain ⟨b', takes, own⟩ := each.1 cap last b p (' ' :: (writeInside ds ++ rest)) ready.1
      have follows : EndsSpace (writeInside ds ++ rest) := by
        cases ds with
        | nil => exact ends
        | cons e ds =>
            rw [writeInside, List.append_assoc]
            exact ((fine.2 e List.mem_cons_self).begins.append _).endsSpace
      obtain ⟨b'', takesAll, later⟩ := ih fine.2 each.2
        (fun e member => (ready.2 e member).kept takes.kept) ((p.after d.write).after [' '])
      refine ⟨b'', .cons takes takesAll, ?_⟩
      rw [writeInside, List.append_assoc, List.cons_append, own, read_space follows, later,
        ← Position.after_append, ← Position.after_append]
      rfl

/-- **A block is read back if what it holds is**: it is opened, gets all of that, and is closed. -/
theorem readBack_block {front : List Char} {frame : Frame}
    (opened : ∀ more, b.read cap last p (front ++ more) =
      (b.push frame).read cap last (p.after front) more)
    (fine : ∀ d ∈ ds, d.Fine) (each : ∀ d ∈ ds, d.ReadBack)
    (ready : ∀ d ∈ ds, (b.push frame).Ready cap d) (rest : List Char) :
    ∃ b' closing, (b.push frame).TakesAll ds b' ∧
      b.read cap last p (front ++ ' ' :: (writeInside ds ++ ['}']) ++ rest) =
        (b'.close (some closing) last).read cap last
          (p.after (front ++ ' ' :: (writeInside ds ++ ['}']))) rest := by
  have brace : EndsSpace ('}' :: rest) := by
    rintro c ⟨⟩
    rfl
  have follows : EndsSpace (writeInside ds ++ '}' :: rest) := by
    cases ds with
    | nil => exact brace
    | cons e ds =>
        rw [writeInside, List.append_assoc]
        exact ((fine e List.mem_cons_self).begins.append _).endsSpace
  obtain ⟨b', takesAll, inside⟩ := readBack_inside fine each ready brace last
    ((p.after front).after [' '])
  have some_ : b'.stack ≠ [] := by
    intro none_
    have length := takesAll.kept.length
    rw [none_] at length
    cases length
  have parted : front ++ ' ' :: (writeInside ds ++ ['}']) ++ rest =
      front ++ ' ' :: (writeInside ds ++ '}' :: rest) := by simp
  refine ⟨b', .covering (((p.after front).after [' ']).after (writeInside ds)) ['}'], takesAll, ?_⟩
  rw [parted, opened, read_space follows, inside, read_close some_]
  simp only [← Position.after_append]
  simp

/-- **Every fine draft is read back.** The induction is on what makes it fine. -/
theorem Draft.Fine.readBack (fine : d.Fine) : d.ReadBack := by
  induction fine with
  | @declaration property value important isWord areWords =>
      intro cap last b p rest ready
      obtain ⟨found, means, steps⟩ := step_declaration isWord areWords important
        (ready.place rfl) cap last p
      refine ⟨_, .declaration (congrArg some means.symm), ?_⟩
      exact read_of_cut _ _ (List.cons_ne_nil _ _) (sound_declaration areWords important)
        (cut_declaration isWord areWords important rest) steps
  | @style selectors entries some_ words fine ih =>
      intro cap last b p rest ready
      have room := ready.room
      rw [Draft.depth] at room
      have fits : b.stack.length < cap := by omega
      obtain ⟨selectors', prelude, opening, texts, steps⟩ :=
        step_opening some_ words fits ready.calm last p
      have inside : ∀ e ∈ entries, (b.push (.block (.style selectors' prelude false) opening [] []
          [])).Ready cap e := by
        intro e member
        have within := Draft.depth_le_depthIn member
        refine ⟨?_, fun _ => rfl, rfl⟩
        rw [push, List.length_cons]
        omega
      obtain ⟨b', closing, takes, read⟩ := readBack_block
        (fun more => read_of_cut _ _ (by simp [openingLexemes]) (sound_opening some_ words)
          (cut_opening words more) steps)
        fine ih inside rest
      obtain ⟨found, nodes, meanings, shown, rfl⟩ := takes.inBlock
      rw [close_push] at read
      refine ⟨_, .item ?_, read⟩
      refine .style texts rfl ?_ ?_ rfl rfl rfl
      · simpa using meanings
      · simpa using shown
  | @media word items isWord fine isItem ih =>
      intro cap last b p rest ready
      have room := ready.room
      rw [Draft.depth] at room
      have fits : b.stack.length < cap := by omega
      obtain ⟨head, opening, isMedia, prelude, steps⟩ :=
        step_mediaOpening word fits last p
      have calm : namesKeyframes head.name = false := by
        rw [isMedia]
        decide
      have inside : ∀ e ∈ items, (b.push (.rules head opening [])).Ready cap e := by
        intro e member
        have within := Draft.depth_le_depthIn member
        refine ⟨?_, ?_, calm⟩
        · rw [push, List.length_cons]
          omega
        · intro isDeclaration
          rw [isItem e member] at isDeclaration
          cases isDeclaration
      obtain ⟨b', closing, takes, read⟩ := readBack_block
        (fun more => read_of_cut _ _ (List.cons_ne_nil _ _) (sound_mediaOpening word)
          (cut_mediaOpening isWord more) steps)
        fine ih inside rest
      obtain ⟨nodes, shown, rfl⟩ := takes.items isItem
      rw [foldl_addItem_rules, List.append_nil, close_push] at read
      refine ⟨_, .item ?_, read⟩
      refine .media isMedia prelude rfl ?_
      rwa [List.reverse_reverse]

end ReadBack

/-! ## Whole stylesheets -/

open Builder in
/-- Items with a space between them are read back one after the other. -/
theorem readBack_sheet {items : List Draft} {cap : Nat} {b : Builder} (fine : ∀ d ∈ items, d.Fine)
    (ready : ∀ d ∈ items, b.Ready cap d) (last p : Position) :
    ∃ b', TakesAll b items b' ∧ b.read cap last p (writeSheet items) = (b', []) := by
  have nothing : ∀ (b : Builder) (p : Position), b.read cap last p [] = (b, []) := by
    intro b p
    simp [Builder.read, locate, Builder.run, tokenIssues]
  induction items generalizing b p with
  | nil => exact ⟨b, .nil, nothing b p⟩
  | cons d items ih =>
      rw [List.forall_mem_cons] at fine ready
      cases items with
      | nil =>
          obtain ⟨b', takes, own⟩ := fine.1.readBack cap last b p [] ready.1
          refine ⟨b', .cons takes .nil, ?_⟩
          rw [List.append_nil] at own
          rw [writeSheet, List.map_singleton, List.intercalate_singleton, own, nothing]
      | cons e items =>
          obtain ⟨b', takes, own⟩ := fine.1.readBack cap last b p
            (' ' :: writeSheet (e :: items)) ready.1
          have follows := (begins_sheet (List.cons_ne_nil e items) fine.2).endsSpace
          obtain ⟨b'', takesAll, later⟩ := ih fine.2
            (fun f member => (ready.2 f member).kept takes.kept) ((p.after d.write).after [' '])
          refine ⟨b'', .cons takes takesAll, ?_⟩
          have parted : writeSheet (d :: e :: items) = d.write ++ ' ' :: writeSheet (e :: items) := by
            simp [writeSheet, List.intercalate_cons_cons]
          rw [parted, own, read_space follows, later]

/-- **Reading a stylesheet undoes writing it.** Take fine drafts of items that nest no deeper than
the cap. What is written of them is read without a fault, and its items show the drafts: the same
selectors, the same declarations in order, each with its property, its value, its mark of importance
and its `;`, the same nested items in order, and the same names and preludes of `@media` rules. -/
theorem sheet_undoes_writing {items : List Draft} (fine : ∀ d ∈ items, d.Fine)
    (isItem : ∀ d ∈ items, d.isItem) (shallow : Draft.depthIn items ≤ depthCap) :
    (Sheet.ofText (writeSheet items) .start).issues = [] ∧
      List.Forall₂ Draft.Shown items (Sheet.ofText (writeSheet items) .start).items := by
  have ready : ∀ d ∈ items, Builder.empty.Ready depthCap d := by
    intro d member
    have within := Draft.depth_le_depthIn member
    have none_ : Builder.empty.stack.length = 0 := rfl
    refine ⟨by omega, ?_, rfl⟩
    intro isDeclaration
    rw [isItem d member] at isDeclaration
    cases isDeclaration
  have noMark : ∀ c ∈ (writeSheet items).head?, c ≠ '\uFEFF' := by
    cases items with
    | nil => simp [writeSheet]
    | cons d items =>
        obtain ⟨c, head, sign⟩ := begins_sheet (List.cons_ne_nil d items) fine
        intro d member
        obtain rfl := Option.some.inj (head.symm.trans member)
        rintro rfl
        rcases sign with small | same
        · cases small
        · cases same
  have tokens : tokenize (writeSheet items) .start =
      locate .start (cut scan false (writeSheet items)) := by
    rw [tokenize, lexemes, cut_head noMark]
  obtain ⟨b', takes, read⟩ := readBack_sheet fine ready
    (((tokenize (writeSheet items) .start).getLast?.map Token.span).getD (.emptyAt .start)).finish
    .start
  obtain ⟨nodes, shown, rfl⟩ := takes.items isItem
  rw [Builder.empty, Builder.foldl_addItem_top, List.append_nil] at read
  simp only [Builder.read, ← tokens, Prod.mk.injEq] at read
  have built : buildItems depthCap (tokenize (writeSheet items) .start) = (nodes, []) := by
    simp only [buildItems, Builder.empty, read.1, read.2]
    simp [Builder.finish, Builder.closeMany]
  simp only [Sheet.ofText, built]
  exact ⟨trivial, shown⟩

/-- A rule with two selectors, with a nested rule and a nested `@media` rule, beside an empty one. -/
theorem sheet_undoes_writing_nested :
    let items : List Draft :=
      [.style [["a", "b"], ["c"]]
          [.declaration "color" ["red"] true, .style [["d"]] [],
            .media "print" [.style [["e"]] [.declaration "margin" ["x", "y"] false]]],
        .media "screen" []]
    writeSheet items = ("a b, c \x7b color: red !important; d \x7b \x7d @media print " ++
      "\x7b e \x7b margin: x y; \x7d \x7d \x7d @media screen \x7b \x7d").toList ∧
      (Sheet.ofText (writeSheet items) .start).issues = [] ∧
        List.Forall₂ Draft.Shown items (Sheet.ofText (writeSheet items) .start).items := by
  intro items
  have inner : ∀ d ∈ [Draft.style [["e"]] [.declaration "margin" ["x", "y"] false]], d.Fine := by
    refine List.forall_mem_singleton.mpr (.style nofun (by decide) ?_)
    exact List.forall_mem_singleton.mpr (.declaration (by decide) (by decide))
  have outer : ∀ d ∈ [Draft.declaration "color" ["red"] true, .style [["d"]] [],
      .media "print" [.style [["e"]] [.declaration "margin" ["x", "y"] false]]], d.Fine := by
    intro d member
    simp only [List.mem_cons, List.not_mem_nil, or_false] at member
    rcases member with rfl | rfl | rfl
    · exact .declaration (by decide) (by decide)
    · exact .style nofun (by decide) nofun
    · exact .media (by decide) inner (by decide)
  have fine : ∀ d ∈ items, d.Fine := by
    intro d member
    simp only [items, List.mem_cons, List.not_mem_nil, or_false] at member
    rcases member with rfl | rfl
    · exact .style nofun (by decide) outer
    · exact .media (by decide) nofun nofun
  exact ⟨by decide +kernel, sheet_undoes_writing fine (by decide) (by decide)⟩

end PageLint.Css
