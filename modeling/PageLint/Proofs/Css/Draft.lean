/-
# PageLint.Proofs.Css.Draft — stylesheets as an author means them, and what the lexer reads of them

A `Draft` is a tree of style rules, declarations and `@media` rules without places, its names and
values words of small letters (`Draft.Fine`). `Draft.write` writes it out with single spaces.

Written words and signs are cut where they were put together: a word where no word goes on
(`cut_word`), a space before what is not one (`cut_space`), a sign always (`cut_sign`). So the
beginning of a rule and a whole declaration are cut into the lexemes they were made of, whatever
comes after them (`cut_opening`, `cut_mediaOpening`, `cut_declaration`).
-/
import PageLint.Css.Builder
import PageLint.Proofs.Text.Extent

namespace PageLint.Css

set_option autoImplicit false

open Text

/-! ## Drafts -/

/-- A stylesheet, or a part of it, as an author means it. A selector is some words. -/
inductive Draft where
  | declaration (property : List Char) (value : List (List Char)) (important : Bool)
  | style (selectors : List (List (List Char))) (entries : List Draft)
  | media (word : List Char) (items : List Draft)

/-- Words with single spaces between them. -/
def writeWords (ws : List (List Char)) : List Char := [' '].intercalate ws

/-- Selectors with commas between them. -/
def writeSelectors (selectors : List (List (List Char))) : List Char :=
  [',', ' '].intercalate (selectors.map writeWords)

/-- What stands before the `;` of a declaration that is important. -/
def writeImportant (important : Bool) : List Char :=
  if important then " !important".toList else []

/-- A declaration with its `;`. -/
def writeDeclaration (property : List Char) (value : List (List Char)) (important : Bool) :
    List Char :=
  property ++ ':' :: ' ' :: (writeWords value ++ (writeImportant important ++ [';']))

/-- A style rule up to its `{`. -/
def writeOpening (selectors : List (List (List Char))) : List Char :=
  writeSelectors selectors ++ [' ', '{']

/-- The name of a `@media` rule. -/
def mediaName : List Char := "media"

/-- A `@media` rule up to its `{`. -/
def writeMediaOpening (word : List Char) : List Char :=
  '@' :: mediaName ++ ' ' :: (word ++ [' ', '{'])

mutual

/-- A draft, written out. -/
def Draft.write : Draft → List Char
  | .declaration property value important => writeDeclaration property value important
  | .style selectors entries => writeOpening selectors ++ ' ' :: (writeInside entries ++ ['}'])
  | .media word items => writeMediaOpening word ++ ' ' :: (writeInside items ++ ['}'])

/-- Drafts in a block, with a space after each. -/
def writeInside : List Draft → List Char
  | [] => []
  | d :: ds => d.write ++ ' ' :: writeInside ds

end

/-- A stylesheet, with a space between its items. -/
def writeSheet (items : List Draft) : List Char := [' '].intercalate (items.map Draft.write)

namespace Draft

/-- A rule rather than a declaration. -/
def isItem : Draft → Bool
  | declaration .. => false
  | _ => true

mutual

/-- How many blocks lie on the longest way down. -/
def depth : Draft → Nat
  | .declaration .. => 0
  | .style _ entries => depthIn entries + 1
  | .media _ items => depthIn items + 1

/-- How many blocks lie on the longest way down through some drafts. -/
def depthIn : List Draft → Nat
  | [] => 0
  | d :: ds => max d.depth (depthIn ds)

end

theorem depth_le_depthIn {d : Draft} {ds : List Draft} (member : d ∈ ds) :
    d.depth ≤ depthIn ds := by
  induction ds with
  | nil => cases member
  | cons e ds ih =>
      rw [depthIn]
      rcases List.mem_cons.mp member with rfl | later
      · exact Nat.le_max_left _ _
      · exact (ih later).trans (Nat.le_max_right _ _)

end Draft

/-- A word of small letters. -/
structure IsWord (w : List Char) : Prop where
  some_ : w ≠ []
  small : ∀ c ∈ w, c.isLower

/-- Some words. -/
structure AreWords (ws : List (List Char)) : Prop where
  some_ : ws ≠ []
  each : ∀ w ∈ ws, IsWord w

instance (w : List Char) : Decidable (IsWord w) :=
  decidable_of_iff (w ≠ [] ∧ w.all Char.isLower)
    ⟨fun h => ⟨h.1, List.all_eq_true.mp h.2⟩, fun h => ⟨h.1, List.all_eq_true.mpr h.2⟩⟩

instance (ws : List (List Char)) : Decidable (AreWords ws) :=
  decidable_of_iff (ws ≠ [] ∧ ∀ w ∈ ws, IsWord w) ⟨fun h => ⟨h.1, h.2⟩, fun h => ⟨h.1, h.2⟩⟩

/-- **Drafts that can be read back.** Declarations stand in style rules only. -/
inductive Draft.Fine : Draft → Prop
  | declaration {property : List Char} {value : List (List Char)} {important : Bool} :
      IsWord property → AreWords value → Fine (.declaration property value important)
  | style {selectors : List (List (List Char))} {entries : List Draft} :
      selectors ≠ [] → (∀ s ∈ selectors, AreWords s) → (∀ e ∈ entries, e.Fine) →
      Fine (.style selectors entries)
  | media {word : List Char} {items : List Draft} :
      IsWord word → (∀ d ∈ items, d.Fine) → (∀ d ∈ items, d.isItem) → Fine (.media word items)

/-- What a declaration means: its property, its value, whether it is important, and whether a `;`
ends it. -/
def Declaration.meaning (d : Declaration) : List Char × List Char × Bool × Bool :=
  (d.property, d.value, d.important.isSome, d.semicolon.isSome)

/-- What a draft of a declaration means. -/
def Draft.meaning? : Draft → Option (List Char × List Char × Bool × Bool)
  | declaration property value important => some (property, writeWords value, important, true)
  | _ => none

/-- An item says what a draft says. A style rule has the same selectors, and in its block the same
declarations and the same nested items, each in order; a `@media` rule has the same prelude and
the same items. Both have both braces. -/
inductive Draft.Shown : Draft → Item → Prop
  | style {selectors : List (List (List Char))} {entries : List Draft} {rule : StyleRule Item} :
      rule.selectors.map Selector.text = selectors.map writeWords → rule.keyframe = false →
      rule.block.declarations.map Declaration.meaning = entries.filterMap meaning? →
      List.Forall₂ Shown (entries.filter isItem) rule.block.nested → rule.block.comments = [] →
      rule.block.opening.isSome → rule.block.closing.isSome →
      Shown (.style selectors entries) (.style rule)
  | media {word : List Char} {items : List Draft} {rule : AtRule Item} {opening closing : Span}
      {nodes : List Item} :
      rule.name = mediaName → rule.prelude = word →
      rule.body = .rules opening (some closing) nodes → List.Forall₂ Shown items nodes →
      Shown (.media word items) (.atRule rule)

/-! ## Letters, as the lexer sees them -/

section Letters

variable {c : Char} {w rest : List Char}

theorem isNameChar_of_isLower (small : c.isLower) : isNameChar c := by
  simp [isNameChar, isNameStart, Char.isAlpha, small]

theorem isAlpha_of_isLower (small : c.isLower) : c.isAlpha := by
  rw [Char.isAlpha, small, Bool.or_true]

/-- A small letter is none of the signs that begin a lexeme of another shape. -/
theorem ne_signs_of_isLower (small : c.isLower) : '/' ≠ c ∧ '<' ≠ c ∧ '-' ≠ c ∧ '.' ≠ c ∧ '+' ≠ c := by
  refine ⟨?_, ?_, ?_, ?_, ?_⟩ <;>
  · rintro rfl
    cases small

/-- No word goes on here. -/
def EndsWord (rest : List Char) : Prop := ∀ c ∈ rest.head?, c ∈ [' ', ',', ':', ';']

/-- No space goes on here. -/
def EndsSpace (rest : List Char) : Prop := ∀ c ∈ rest.head?, isBlank c = false

/-- Begins with a small letter or with `@`. -/
def Begins (cs : List Char) : Prop := ∃ c, cs.head? = some c ∧ (c.isLower ∨ c = '@')

theorem Begins.append {cs : List Char} (begins : Begins cs) (rest : List Char) :
    Begins (cs ++ rest) := by
  obtain ⟨c, head, sign⟩ := begins
  exact ⟨c, by simp [head], sign⟩

theorem Begins.endsSpace (begins : Begins rest) : EndsSpace rest := by
  obtain ⟨c, head, sign⟩ := begins
  intro d member
  obtain rfl := Option.some.inj (head.symm.trans member)
  rcases sign with small | rfl
  · exact not_isBlank_of_isAlpha (isAlpha_of_isLower small)
  · rfl

theorem begins_intercalate {sep : List Char} {parts : List (List Char)} (some_ : parts ≠ [])
    (each : ∀ part ∈ parts, Begins part) : Begins (sep.intercalate parts) := by
  match parts with
  | [] => exact absurd rfl some_
  | [part] =>
      rw [List.intercalate_singleton]
      exact each part List.mem_cons_self
  | part :: part' :: parts =>
      rw [List.intercalate_cons_cons, List.append_assoc]
      exact (each part List.mem_cons_self).append _

theorem IsWord.begins (isWord : IsWord w) : Begins w := by
  obtain ⟨some_, small⟩ := isWord
  cases w with
  | nil => exact absurd rfl some_
  | cons c w => exact ⟨c, rfl, .inl (small c List.mem_cons_self)⟩

theorem AreWords.begins {ws : List (List Char)} (areWords : AreWords ws) :
    Begins (writeWords ws) :=
  begins_intercalate areWords.some_ fun w member => (areWords.each w member).begins

theorem begins_opening {selectors : List (List (List Char))} (some_ : selectors ≠ [])
    (each : ∀ s ∈ selectors, AreWords s) : Begins (writeOpening selectors) := by
  refine (begins_intercalate (by simpa using some_) ?_).append _
  intro part member
  obtain ⟨s, inside, rfl⟩ := List.mem_map.mp member
  exact (each s inside).begins

/-- What can be read back begins with a small letter or with `@`. -/
theorem Draft.Fine.begins {d : Draft} (fine : d.Fine) : Begins d.write := by
  cases fine with
  | declaration isWord areWords =>
      rw [write]
      exact isWord.begins.append _
  | style some_ each fine =>
      rw [write]
      exact (begins_opening some_ each).append _
  | media isWord fine items =>
      rw [write]
      exact ⟨'@', rfl, .inr rfl⟩

theorem begins_sheet {items : List Draft} (some_ : items ≠ []) (fine : ∀ d ∈ items, d.Fine) :
    Begins (writeSheet items) := by
  refine begins_intercalate (by simpa using some_) fun part member => ?_
  obtain ⟨d, inside, rfl⟩ := List.mem_map.mp member
  exact (fine d inside).begins

theorem nameExtent_nil (ends : EndsWord rest) : nameExtent rest = 0 := by
  match rest with
  | [] => rfl
  | [c] =>
      have sign := ends c rfl
      simp only [List.mem_cons, List.not_mem_nil, or_false] at sign
      rcases sign with rfl | rfl | rfl | rfl <;> rfl
  | c :: d :: rest =>
      have sign := ends c rfl
      simp only [List.mem_cons, List.not_mem_nil, or_false] at sign
      rcases sign with rfl | rfl | rfl | rfl <;> rfl

theorem nameExtent_cons (inName : isNameChar c) (cs : List Char) :
    nameExtent (c :: cs) = nameExtent cs + 1 := by
  cases cs with
  | nil => simp [nameExtent, inName]
  | cons d cs => rw [nameExtent, if_pos inName, Nat.add_comm]

theorem nameExtent_word (small : ∀ c ∈ w, c.isLower) (ends : EndsWord rest) :
    nameExtent (w ++ rest) = w.length := by
  induction w with
  | nil => exact nameExtent_nil ends
  | cons c w ih =>
      rw [List.forall_mem_cons] at small
      rw [List.cons_append, nameExtent_cons (isNameChar_of_isLower small.1), ih small.2,
        List.length_cons]

theorem IsWord.startsIdent (isWord : IsWord w) (rest : List Char) : startsIdent (w ++ rest) := by
  obtain ⟨some_, small⟩ := isWord
  cases w with
  | nil => exact absurd rfl some_
  | cons c w =>
      have letter := small c List.mem_cons_self
      have start : isNameStart c := by simp [isNameStart, Char.isAlpha, letter]
      have dash := (ne_signs_of_isLower letter).2.2.1
      simp [Css.startsIdent, Ne.symm dash, start]

theorem identLike_word (small : ∀ c ∈ w, c.isLower) (ends : EndsWord rest) :
    identLike (w ++ rest) = (.ident, w.length) := by
  simp only [identLike, nameExtent_word small ends, List.drop_left]
  split
  next inside =>
    have sign := ends '(' rfl
    contradiction
  next => rfl

end Letters

/-! ## Where written text is cut -/

section Cuts

variable {kind : TokenKind} {c : Char} {tail w rest : List Char} {ws : List (List Char)}
  {selectors : List (List (List Char))}

/-- A lexeme that is measured as it was written. -/
theorem cut_of_lexemeAt (measured : lexemeAt c (tail ++ rest) = (kind, (c :: tail).length)) :
    cut scan false (c :: tail ++ rest) = ⟨kind, c :: tail⟩ :: cut scan false rest := by
  rw [List.cons_append, cut_cons]
  simp [scan, measured]

/-- Where no byte order mark comes first, the beginning of a text is cut like any other place. -/
theorem cut_head {cs : List Char} (begins : ∀ c ∈ cs.head?, c ≠ '\uFEFF') :
    cut scan true cs = cut scan false cs := by
  cases cs with
  | nil => rw [cut_nil, cut_nil]
  | cons c rest =>
      have other := begins c rfl
      rw [cut_cons, cut_cons]
      simp [scan, other]

theorem cut_word (isWord : IsWord w) (ends : EndsWord rest) :
    cut scan false (w ++ rest) = ⟨.ident, w⟩ :: cut scan false rest := by
  have starts := isWord.startsIdent rest
  have whole := identLike_word isWord.small ends
  have blank := isWord.begins.endsSpace
  obtain ⟨some_, small⟩ := isWord
  cases w with
  | nil => exact absurd rfl some_
  | cons c w =>
      have letter := small c List.mem_cons_self
      obtain ⟨slash, less, dash, point, plus⟩ := ne_signs_of_isLower letter
      have number : startsNumber (c :: (w ++ rest)) = false := by
        simp [startsNumber, startsUnsigned, startsDigit, not_isDigit_of_isAlpha (isAlpha_of_isLower letter),
          Ne.symm dash, Ne.symm point, Ne.symm plus]
      refine cut_of_lexemeAt ?_
      rw [List.cons_append] at starts whole
      simp [lexemeAt, blank c rfl, List.isPrefixOf, slash, less, dash, number, starts, whole]

theorem cut_space (ends : EndsSpace rest) :
    cut scan false (' ' :: rest) = ⟨.blank, [' ']⟩ :: cut scan false rest := by
  have blank : isBlank ' ' = true := rfl
  have run : extentWhile isBlank (' ' :: rest) = 1 := by
    rw [extentWhile_cons (p := isBlank) blank]
    exact congrArg (· + 1) (extentWhile_append_stop (List.forall_mem_nil _) ends)
  have measured : lexemeAt ' ' ([] ++ rest) = (.blank, 1) := by
    rw [List.nil_append, lexemeAt, if_pos blank, run]
  exact cut_of_lexemeAt measured

/-- Signs that are lexemes of their own. -/
def signs : List Char := [',', ':', ';', '{', '}', '!']

theorem cut_sign (sign : c ∈ signs) (rest : List Char) :
    cut scan false (c :: rest) = ⟨signKind c, [c]⟩ :: cut scan false rest := by
  have measured : lexemeAt c ([] ++ rest) = (signKind c, 1) := by
    simp only [signs, List.mem_cons, List.not_mem_nil, or_false] at sign
    rcases sign with rfl | rfl | rfl | rfl | rfl | rfl <;>
      simp [lexemeAt, isBlank, List.isPrefixOf, startsNumber, startsUnsigned, startsDigit,
        startsIdent, isNameStart, startsEscape, isQuote]
  exact cut_of_lexemeAt measured

theorem endsWord_space (rest : List Char) : EndsWord (' ' :: rest) := by
  rintro c ⟨⟩
  exact List.mem_cons_self

/-- Written parts with a separator between them are cut if each part is and the separator is. -/
theorem cut_intercalate {α : Type} {text : α → List Char} {pieces : α → List (Lexeme TokenKind)}
    {sep : List Char} {sepPieces : List (Lexeme TokenKind)} {parts : List α}
    (each : ∀ a ∈ parts, ∀ rest, EndsWord rest →
      cut scan false (text a ++ rest) = pieces a ++ cut scan false rest)
    (between : ∀ a ∈ parts, ∀ rest,
      cut scan false (sep ++ (text a ++ rest)) = sepPieces ++ cut scan false (text a ++ rest))
    (stops : ∀ rest, EndsWord (sep ++ rest)) (ends : EndsWord rest) :
    cut scan false (sep.intercalate (parts.map text) ++ rest) =
      sepPieces.intercalate (parts.map pieces) ++ cut scan false rest := by
  match parts with
  | [] => rfl
  | [a] =>
      simp only [List.map_cons, List.map_nil, List.intercalate_singleton]
      exact each a List.mem_cons_self rest ends
  | a :: a' :: parts =>
      rw [List.forall_mem_cons] at each between
      have later := cut_intercalate each.2 between.2 stops ends
      have first := each.1 (sep ++ (sep.intercalate ((a' :: parts).map text) ++ rest)) (stops _)
      -- The separator is followed by the next part, whatever comes after that.
      have second : cut scan false (sep ++ (sep.intercalate ((a' :: parts).map text) ++ rest)) =
          sepPieces ++ cut scan false (sep.intercalate ((a' :: parts).map text) ++ rest) := by
        cases parts with
        | nil => simpa using between.2 a' List.mem_cons_self rest
        | cons a'' parts =>
            simpa [List.intercalate_cons_cons] using between.2 a' List.mem_cons_self
              (sep ++ (sep.intercalate ((a'' :: parts).map text) ++ rest))
      simp only [List.map_cons, List.intercalate_cons_cons, List.append_assoc] at first second later ⊢
      rw [first, second, later]

/-- The lexeme of a space. -/
def spaceLexeme : Lexeme TokenKind := ⟨.blank, [' ']⟩

/-- The lexemes of words. -/
def wordLexemes (ws : List (List Char)) : List (Lexeme TokenKind) :=
  [spaceLexeme].intercalate (ws.map fun w => [⟨.ident, w⟩])

/-- The lexemes of selectors. -/
def selectorLexemes (selectors : List (List (List Char))) : List (Lexeme TokenKind) :=
  [⟨.comma, [',']⟩, spaceLexeme].intercalate (selectors.map wordLexemes)

/-- The lexemes of a mark of importance. -/
def importantLexemes (important : Bool) : List (Lexeme TokenKind) :=
  if important then [spaceLexeme, ⟨.delim, ['!']⟩, ⟨.ident, "important".toList⟩] else []

/-- The lexemes of a value and all that follows it before the `;`. -/
def valueLexemes (value : List (List Char)) (important : Bool) : List (Lexeme TokenKind) :=
  wordLexemes value ++ importantLexemes important

theorem cut_words (areWords : ∀ w ∈ ws, IsWord w) (ends : EndsWord rest) :
    cut scan false (writeWords ws ++ rest) = wordLexemes ws ++ cut scan false rest := by
  have whole : cut scan false ([' '].intercalate (ws.map id) ++ rest) =
      [spaceLexeme].intercalate (ws.map fun w => [⟨.ident, w⟩]) ++ cut scan false rest :=
    cut_intercalate ?_ ?_ endsWord_space ends
  · rwa [List.map_id] at whole
  · exact fun w member rest ends => cut_word (areWords w member) ends
  · intro w member rest
    exact cut_space ((areWords w member).begins.append rest).endsSpace

theorem cut_selectors (each : ∀ s ∈ selectors, AreWords s) (ends : EndsWord rest) :
    cut scan false (writeSelectors selectors ++ rest) =
      selectorLexemes selectors ++ cut scan false rest := by
  refine cut_intercalate ?_ ?_ ?_ ends
  · exact fun s member rest ends => cut_words (each s member).each ends
  · intro s member rest
    rw [List.cons_append, cut_sign (by decide), List.singleton_append,
      cut_space ((each s member).begins.append rest).endsSpace]
    rfl
  · rintro rest c ⟨⟩
    decide

/-- The lexemes of a style rule up to its `{`. -/
def openingLexemes (selectors : List (List (List Char))) : List (Lexeme TokenKind) :=
  selectorLexemes selectors ++ [spaceLexeme, ⟨.braceOpen, ['{']⟩]

/-- **The beginning of a style rule is cut** into its selectors and its `{`. -/
theorem cut_opening (each : ∀ s ∈ selectors, AreWords s) (rest : List Char) :
    cut scan false (writeOpening selectors ++ rest) =
      openingLexemes selectors ++ cut scan false rest := by
  have brace : EndsSpace ('{' :: rest) := by
    rintro c ⟨⟩
    rfl
  have whole : writeOpening selectors ++ rest = writeSelectors selectors ++ ' ' :: '{' :: rest := by
    simp [writeOpening]
  rw [whole, cut_selectors each (endsWord_space _), cut_space brace, cut_sign (by decide)]
  simp [openingLexemes, spaceLexeme, signKind]

/-- The lexemes of a `@media` rule up to its `{`. -/
def mediaOpeningLexemes (w : List Char) : List (Lexeme TokenKind) :=
  [⟨.atKeyword, '@' :: mediaName⟩, spaceLexeme, ⟨.ident, w⟩, spaceLexeme, ⟨.braceOpen, ['{']⟩]

/-- A sign and a word after it make one lexeme. -/
theorem lexemeAt_keyword (isWord : IsWord w) (ends : EndsWord rest) :
    lexemeAt '@' (w ++ rest) = (.atKeyword, ('@' :: w).length) := by
  have name := nameExtent_word isWord.small ends
  have starts := isWord.startsIdent rest
  have other : startsIdent ('@' :: (w ++ rest)) = false := by
    simp [startsIdent, isNameStart, startsEscape]
  simp [lexemeAt, isBlank, List.isPrefixOf, startsNumber, startsUnsigned, startsDigit, isQuote,
    other, starts, name, Nat.add_comm]

/-- **The beginning of a `@media` rule is cut** into its keyword, its word and its `{`. -/
theorem cut_mediaOpening (isWord : IsWord w) (rest : List Char) :
    cut scan false (writeMediaOpening w ++ rest) =
      mediaOpeningLexemes w ++ cut scan false rest := by
  have brace : EndsSpace ('{' :: rest) := by
    rintro c ⟨⟩
    rfl
  have isName : IsWord mediaName := by decide
  have keyword := cut_of_lexemeAt (lexemeAt_keyword isName (endsWord_space (w ++ ' ' :: '{' :: rest)))
  have whole : writeMediaOpening w ++ rest =
      '@' :: mediaName ++ ' ' :: (w ++ ' ' :: '{' :: rest) := by
    simp [writeMediaOpening]
  rw [whole, keyword, cut_space (isWord.begins.append _).endsSpace,
    cut_word isWord (endsWord_space _), cut_space brace, cut_sign (by decide)]
  rfl

/-- The lexemes of a declaration. -/
def declarationLexemes (property : List Char) (value : List (List Char)) (important : Bool) :
    List (Lexeme TokenKind) :=
  ⟨.ident, property⟩ :: ⟨.colon, [':']⟩ :: spaceLexeme ::
    (valueLexemes value important ++ [⟨.semicolon, [';']⟩])

/-- **A declaration is cut** into its property, its colon, the words of its value, its mark of
importance and its `;`. -/
theorem cut_declaration {property : List Char} {value : List (List Char)} (isWord : IsWord property)
    (areWords : AreWords value) (important : Bool) (rest : List Char) :
    cut scan false (writeDeclaration property value important ++ rest) =
      declarationLexemes property value important ++ cut scan false rest := by
  have colon : EndsWord (':' :: ' ' ::
      (writeWords value ++ (writeImportant important ++ ';' :: rest))) := by
    rintro c ⟨⟩
    decide
  have semicolon : ∀ more, EndsWord (';' :: more) := by
    rintro more c ⟨⟩
    decide
  have mark : EndsWord (writeImportant important ++ ';' :: rest) ∧
      cut scan false (writeImportant important ++ ';' :: rest) =
        importantLexemes important ++ cut scan false (';' :: rest) := by
    cases important with
    | false => exact ⟨semicolon rest, rfl⟩
    | true =>
        have word : IsWord "important".toList := by decide
        have bang : EndsSpace ('!' :: ("important".toList ++ ';' :: rest)) := by
          rintro c ⟨⟩
          rfl
        refine ⟨endsWord_space _, ?_⟩
        change cut scan false (' ' :: '!' :: ("important".toList ++ ';' :: rest)) = _
        rw [cut_space bang, cut_sign (by decide), cut_word word (semicolon rest)]
        rfl
  have whole : writeDeclaration property value important ++ rest =
      property ++ ':' :: ' ' :: (writeWords value ++ (writeImportant important ++ ';' :: rest)) := by
    simp [writeDeclaration]
  rw [whole, cut_word isWord colon, cut_sign (by decide), cut_space (areWords.begins.append _).endsSpace,
    cut_words areWords.each mark.1, mark.2, cut_sign (by decide)]
  simp [declarationLexemes, valueLexemes, spaceLexeme, signKind]

end Cuts

end PageLint.Css
