/-
# PageLint.Proofs.Css.Bare — declarations with braces and without

A text that is a list of declarations is read by itself and as the block of a rule. Entries of a
block and items outside of blocks are told apart by different look aheads, yet both find the same
declarations, each moved by what stands before the list (`bare_as_in_braces`).

With one exception: a brace of a value that stands outside brackets. In a block the look ahead for a
rule leaves custom properties out; outside of blocks it does not, and makes a rule of one
(`custom_property_as_rule`).
-/
import PageLint.Proofs.Css.Seam
import PageLint.Proofs.Css.Shift
import PageLint.Proofs.Css.Spelling

namespace PageLint.Css

set_option autoImplicit false

open Text

variable {o : Position}

/-! ## Spellings, moved -/

theorem Nests.shift {braces inside : Bool} {ts : Tokens} (nests : Nests braces inside ts) :
    Nests braces inside (ts.map (Token.shift o)) := by
  induction nests with
  | nil => exact .nil
  | plain plain stays _ ih =>
      exact .plain ⟨plain.opens, plain.closes, plain.begins, plain.ends⟩ stays ih
  | group pairs stands _ _ inner outer =>
      rw [List.map_cons, List.map_append, List.map_cons]
      exact .group pairs stands inner outer

namespace Spelling

/-- The spelling where the text that it belongs to begins at a place. -/
def shift (o : Position) (s : Spelling) : Spelling :=
  { lead := s.lead.map (Token.shift o)
    property := s.property.shift o
    gap := s.gap.map (Token.shift o)
    colon := s.colon.shift o
    value := s.value.map (Token.shift o)
    semicolon := s.semicolon.shift o }

variable {s : Spelling} {ss : List Spelling}

theorem tokens_shift (s : Spelling) : (s.shift o).tokens = s.tokens.map (Token.shift o) := by
  simp [tokens, afterProperty, shift]

theorem flatMap_tokens_shift (ss : List Spelling) :
    (ss.map (shift o)).flatMap tokens = (ss.flatMap tokens).map (Token.shift o) := by
  rw [List.flatMap_map, List.map_flatMap]
  exact congrArg ss.flatMap (funext tokens_shift)

theorem Fine.shift (fine : s.Fine) : (s.shift o).Fine where
  lead := List.forall_mem_map.mpr fine.lead
  property := fine.property
  gap := List.forall_mem_map.mpr fine.gap
  colon := fine.colon
  value := fine.value.shift
  semicolon := fine.semicolon
  sound := by
    rw [tokens_shift]
    exact List.forall_mem_map.mpr fine.sound

/-- What is meant moves with it. -/
theorem Fine.declaration_shift (fine : s.Fine) : (s.shift o).declaration = s.declaration.shift o := by
  have moved := (fine.shift (o := o)).read? []
  have read := fine.read? []
  have after : (s.shift o).afterProperty = s.afterProperty.map (Token.shift o) := by
    simp [afterProperty, Spelling.shift]
  rw [List.append_nil] at moved read
  rw [after, show (s.shift o).property = s.property.shift o from rfl, read?_shift, read] at moved
  exact (Prod.mk.inj (Option.some.inj moved)).1.symm

end Spelling

/-! ## Without braces -/

/-- The block that declarations make with no braces around them. -/
def bareBlock (first : Declaration) (others : List Declaration) : Block Item :=
  { opening := none
    closing := none
    declarations := first :: others
    comments := []
    nested := []
    span := others.foldl (fun span d => span.join d.span) first.span }

theorem foldl_addDeclaration_bare (first : Declaration) (done others : List Declaration) :
    others.foldl Builder.addDeclaration ⟨[], [.declarations (bareBlock first done)]⟩ =
      ⟨[], [.declarations (bareBlock first (done ++ others))]⟩ := by
  induction others generalizing done with
  | nil => rw [List.append_nil, List.foldl_nil]
  | cons d others ih =>
      have added : Builder.addDeclaration ⟨[], [.declarations (bareBlock first done)]⟩ d =
          ⟨[], [.declarations (bareBlock first (done ++ [d]))]⟩ := by
        simp [Builder.addDeclaration, Builder.addBare, bareBlock]
      rw [List.foldl_cons, added, ih, List.append_assoc, List.singleton_append]

/-- **Fine spellings by themselves** are read without a fault as one block, if no brace stands outside
brackets. -/
theorem build_bare {cap : Nat} {s : Spelling} {ss : List Spelling} (fine : ∀ t ∈ s :: ss, t.Fine)
    (unbraced : ∀ t ∈ s :: ss, t.Unbraced) :
    buildItems cap ((s :: ss).flatMap Spelling.tokens) =
      ([.declarations (bareBlock s.declaration (ss.map Spelling.declaration))], []) := by
  have added : ((s :: ss).map Spelling.declaration).foldl Builder.addDeclaration .empty =
      ⟨[], [.declarations (bareBlock s.declaration (ss.map Spelling.declaration))]⟩ :=
    foldl_addDeclaration_bare s.declaration [] (ss.map Spelling.declaration)
  have run (last : Position) : Builder.empty.run cap last ((s :: ss).flatMap Spelling.tokens) =
      (⟨[], [.declarations (bareBlock s.declaration (ss.map Spelling.declaration))]⟩, []) := by
    have read : Builder.empty.run cap last ((s :: ss).flatMap Spelling.tokens ++ []) = _ :=
      Builder.run_spellings fine (.inr unbraced) []
    rw [List.append_nil, added, Builder.run] at read
    exact read
  simp only [buildItems, run, Spelling.tokenIssues_spellings fine]
  simp [Builder.finish, Builder.closeMany]

/-! ## With braces -/

/-- Where a text begins that a word and a brace stand before. -/
def inBraces : Position := Position.start.after "x\x7b".toList

/-- The rule around a text. -/
def shellAround (cs : List Char) : Shell :=
  { word := tokenAt .ident "x" 0
    gap := []
    opening := tokenAt .braceOpen "\x7b" 1
    closing := ⟨.braceClose, ['}'], .covering (inBraces.after cs) ['}']⟩ }

theorem fine_shellAround (cs : List Char) : (shellAround cs).Fine :=
  ⟨rfl, List.forall_mem_nil _, rfl, rfl⟩

theorem cut_opening_brace (rest : List Char) :
    cut scan true ("x\x7b".toList ++ rest) =
      ⟨.ident, ['x']⟩ :: ⟨.braceOpen, ['\x7b']⟩ :: cut scan false rest := by
  have word : lexemeAt 'x' ([] ++ '\x7b' :: rest) = (.ident, 1) := by cases rest <;> rfl
  have brace := cut_sign (c := '\x7b') (by decide) rest
  have begins : ∀ c ∈ ("x\x7b".toList ++ rest).head?, c ≠ '\uFEFF' := by
    rintro c ⟨⟩
    decide
  rw [cut_head begins]
  exact (cut_of_lexemeAt word).trans (congrArg _ brace)

namespace Spelling

variable {ss : List Spelling}

theorem kind_getLast? (some_ : ss ≠ []) (fine : ∀ s ∈ ss, s.Fine) :
    (ss.flatMap tokens).getLast?.map Token.kind = some .semicolon := by
  obtain ⟨front, s, rfl⟩ := (List.eq_nil_or_concat ss).resolve_left some_
  have semicolon := (fine s (by simp)).semicolon
  have ends : s.tokens = s.lead ++ s.property :: (s.gap ++ s.colon :: s.value) ++ [s.semicolon] := by
    simp [tokens, afterProperty]
  rw [List.concat_eq_append, List.flatMap_append, List.flatMap_singleton, ends, ← List.append_assoc,
    List.getLast?_concat, Option.map_some, semicolon]

theorem kind_head? (fine : ∀ s ∈ ss, s.Fine) :
    ∀ t ∈ (ss.flatMap tokens).head?, t.kind ≠ .byteOrderMark := by
  cases ss with
  | nil => simp
  | cons s ss =>
      obtain ⟨first, -⟩ := List.forall_mem_cons.mp fine
      rw [List.flatMap_cons, tokens]
      cases lead : s.lead with
      | nil => simp [first.property]
      | cons t lead => simp [first.lead t (by simp [lead])]

end Spelling

/-- **A list of declarations keeps its tokens in braces**, each one moved. -/
theorem tokenize_around {cs : List Char} {ss : List Spelling} (some_ : ss ≠ [])
    (fine : ∀ s ∈ ss, s.Fine) (spelled : tokenize cs .start = ss.flatMap Spelling.tokens) :
    tokenize ("x\x7b".toList ++ cs ++ ['}']) .start =
      (shellAround cs).around ((ss.map (Spelling.shift inBraces)).flatMap Spelling.tokens) := by
  have kinds : (lexemes cs).map Lexeme.kind = (ss.flatMap Spelling.tokens).map Token.kind := by
    rw [← spelled, tokenize, map_kind_locate]
  have begins : ∀ c ∈ cs.head?, c ≠ '\uFEFF' := by
    rintro c head rfl
    obtain ⟨rest, rfl⟩ := List.head?_eq_some_iff.mp head
    have mark : (lexemes ('\uFEFF' :: rest)).map Lexeme.kind =
        .byteOrderMark :: (cut scan false rest).map Lexeme.kind := by
      rw [lexemes, cut_cons]
      simp [scan]
    rw [mark] at kinds
    obtain ⟨t, others, tokens, kind, -⟩ := List.map_eq_cons_iff.mp kinds.symm
    exact Spelling.kind_head? fine t (by rw [tokens]; rfl) kind
  have same : lexemes cs = cut scan false cs := cut_head begins
  have last : ∃ piece, (cut scan false cs).getLast? = some piece ∧ piece.kind = .semicolon := by
    have final := Spelling.kind_getLast? some_ fine
    rw [← List.getLast?_map, ← kinds, List.getLast?_map, same] at final
    exact Option.map_eq_some_iff.mp final
  obtain ⟨piece, final, kind⟩ := last
  have closing : cut scan false ['}'] = [⟨.braceClose, ['}']⟩] := by
    rw [cut_sign (by decide), cut_nil]
    rfl
  have moved : locate inBraces (lexemes cs) =
      (ss.map (Spelling.shift inBraces)).flatMap Spelling.tokens := by
    rw [Spelling.flatMap_tokens_shift, ← spelled]
    exact tokenize_shift (Position.counted_start.after _) cs
  rw [tokenize, lexemes, List.append_assoc, cut_opening_brace, cut_append final kind, closing, ← same]
  have texts : (lexemes cs).flatMap Lexeme.text = cs := by
    rw [List.flatMap_def, lexemes, texts_cut]
  simp only [locate, locate_append, texts]
  rw [Shell.around, ← moved]
  rfl

/-! ## Both -/

section Both

variable {cs : List Char} {ss : List Spelling} (some_ : ss ≠ []) (fine : ∀ s ∈ ss, s.Fine)
  (spelled : tokenize cs .start = ss.flatMap Spelling.tokens)
include some_ fine spelled

/-- In braces a list of declarations makes one rule. -/
theorem ofText_braced :
    (Sheet.ofText ("x\x7b".toList ++ cs ++ ['}']) .start).items =
        [.style ((shellAround cs).rule (ss.map (·.declaration.shift inBraces)) [])] ∧
      (Sheet.ofText ("x\x7b".toList ++ cs ++ ['}']) .start).issues = [] := by
  have moved : (ss.map (Spelling.shift inBraces)).map Spelling.declaration =
      ss.map (·.declaration.shift inBraces) := by
    rw [List.map_map]
    exact List.map_congr_left fun s member => (fine s member).declaration_shift
  have built : buildItems depthCap _ = _ := (fine_shellAround cs).build_spellings (by decide)
    (List.forall_mem_map.mpr fun s member => (fine s member).shift (o := inBraces))
  rw [moved, ← tokenize_around some_ fine spelled] at built
  rw [Sheet.ofText, built]
  exact ⟨rfl, rfl⟩

/-- Without braces it makes one block. -/
theorem ofText_bare (unbraced : ∀ s ∈ ss, s.Unbraced) :
    ∃ span, (Sheet.ofText cs .start).items =
        [.declarations ⟨none, none, ss.map Spelling.declaration, [], [], span⟩] ∧
      (Sheet.ofText cs .start).issues = [] := by
  cases ss with
  | nil => exact absurd rfl some_
  | cons s ss =>
      have built : buildItems depthCap _ = _ := build_bare fine unbraced
      rw [← spelled] at built
      rw [Sheet.ofText, built]
      exact ⟨_, rfl, rfl⟩

/-- **A list of declarations is read in braces as it is without.** The text is a list of fine
spellings. In braces they are read without a fault, as the block of a rule that holds their
declarations, moved, and nothing else. So they are by themselves, as one block without braces that
holds the declarations, if no brace of a value stands outside brackets. -/
theorem bare_as_in_braces :
    ∃ rule, (Sheet.ofText ("x\x7b".toList ++ cs ++ ['}']) .start).items = [.style rule] ∧
      (Sheet.ofText ("x\x7b".toList ++ cs ++ ['}']) .start).issues = [] ∧
      rule.block.declarations = ss.map (·.declaration.shift inBraces) ∧
      rule.block.comments = [] ∧ rule.block.nested = [] ∧
      ((∀ s ∈ ss, s.Unbraced) → ∃ bare, (Sheet.ofText cs .start).items = [.declarations bare] ∧
        (Sheet.ofText cs .start).issues = [] ∧
        bare.opening = none ∧ bare.closing = none ∧ bare.comments = [] ∧ bare.nested = [] ∧
        bare.declarations = ss.map Spelling.declaration ∧
        rule.block.declarations = bare.declarations.map (Declaration.shift inBraces)) := by
  obtain ⟨braced, quiet⟩ := ofText_braced some_ fine spelled
  refine ⟨_, braced, quiet, rfl, rfl, rfl, fun unbraced => ?_⟩
  obtain ⟨span, alone, calm⟩ := ofText_bare some_ fine spelled unbraced
  refine ⟨_, alone, calm, rfl, rfl, rfl, rfl, rfl, ?_⟩
  exact (List.map_map (f := Spelling.declaration) (g := Declaration.shift inBraces)).symm

end Both

/-- A value with braces and a `;` in a function, marked important, and one of a custom property, with
white space around its colon. -/
theorem bare_as_in_braces_function :
    let s : Spelling :=
      ⟨[], tokenAt .ident "a" 0, [], tokenAt .colon ":" 1, [tokenAt .function "f(" 2,
        tokenAt .braceOpen "\x7b" 4, tokenAt .semicolon ";" 5, tokenAt .braceClose "\x7d" 6,
        tokenAt .parenClose ")" 7, tokenAt .delim "!" 8, tokenAt .ident "important" 9],
        tokenAt .semicolon ";" 18⟩
    let custom : Spelling :=
      ⟨[tokenAt .blank " " 19], tokenAt .ident "--c" 20, [tokenAt .blank " " 23],
        tokenAt .colon ":" 24, [tokenAt .bracketOpen "[" 25, tokenAt .bracketClose "]" 26],
        tokenAt .semicolon ";" 27⟩
    let text := "a:f(\x7b;\x7d)!important; --c :[];".toList
    [s, custom] ≠ [] ∧ (∀ t ∈ [s, custom], t.Fine ∧ t.Unbraced) ∧
      tokenize text .start = [s, custom].flatMap Spelling.tokens ∧
      ∃ rule bare, (Sheet.ofText ("x\x7b".toList ++ text ++ ['}']) .start).items = [.style rule] ∧
        (Sheet.ofText text .start).items = [.declarations bare] ∧
        rule.block.declarations = bare.declarations.map (Declaration.shift inBraces) ∧
        bare.declarations.map (fun d => (String.ofList d.value, d.important.isSome)) =
          [("f(\x7b;\x7d)", true), ("[]", false)] := by
  intro s custom text
  have paren (braces : Bool) : Nests braces false s.value := by
    refine .group (by decide) (by decide +revert)
      (.group (by decide) (fun _ => .inr rfl)
        (.plain (plain_of_kind (by decide)) (fun _ => rfl) .nil) .nil)
      (nests_of_plain ?_)
    exact List.forall_mem_cons.mpr ⟨⟨plain_of_kind (by decide), by decide⟩,
      List.forall_mem_singleton.mpr ⟨plain_of_kind (by decide), by decide⟩⟩
  have bracket (braces : Bool) : Nests braces false custom.value :=
    .group (by decide) (by decide +revert) .nil .nil
  have fine : s.Fine := ⟨by decide, rfl, by decide, rfl, paren _, rfl, by decide⟩
  have customFine : custom.Fine := ⟨by decide, rfl, by decide, rfl, bracket _, rfl, by decide⟩
  have each : ∀ t ∈ [s, custom], t.Fine ∧ t.Unbraced :=
    List.forall_mem_cons.mpr ⟨⟨fine, paren _⟩, List.forall_mem_singleton.mpr ⟨customFine, bracket _⟩⟩
  have spelled : tokenize text .start = [s, custom].flatMap Spelling.tokens := by decide +kernel
  obtain ⟨rule, braced, -, -, -, -, unbraced⟩ := bare_as_in_braces (List.cons_ne_nil _ _)
    (fun t member => (each t member).1) spelled
  obtain ⟨bare, alone, -, -, -, -, -, declarations, same⟩ := unbraced fun t member => (each t member).2
  refine ⟨List.cons_ne_nil _ _, each, spelled, rule, bare, braced, alone, same, ?_⟩
  rw [declarations]
  decide +kernel

/-- **A custom property whose value is in braces** makes a rule where it stands by itself, though it
is a declaration in braces. -/
theorem custom_property_as_rule :
    let s : Spelling :=
      ⟨[], tokenAt .ident "--x" 0, [], tokenAt .colon ":" 3, [tokenAt .braceOpen "\x7b" 4,
        tokenAt .braceClose "\x7d" 5], tokenAt .semicolon ";" 6⟩
    s.Fine ∧ tokenize "--x:\x7b\x7d;".toList .start = s.tokens ∧
      (∃ rule, (Sheet.ofText "x\x7b--x:\x7b\x7d;\x7d".toList .start).items = [.style rule] ∧
        rule.block.declarations = [s.declaration.shift inBraces]) ∧
      ¬∃ bare, (Sheet.ofText "--x:\x7b\x7d;".toList .start).items = [.declarations bare] := by
  intro s
  have fine : s.Fine := ⟨by decide, rfl, by decide, rfl, .group (by decide)
    (fun _ => .inl rfl) .nil .nil, rfl, by decide⟩
  have spelled : tokenize "--x:\x7b\x7d;".toList .start = s.tokens := by decide +kernel
  have rules : (Sheet.ofText "--x:\x7b\x7d;".toList .start).items.map
      (·.opening?.isSome) = [true] := by decide +kernel
  have list : tokenize "--x:\x7b\x7d;".toList .start = [s].flatMap Spelling.tokens := by
    rw [spelled, List.flatMap_singleton]
  have braced := ofText_braced (List.cons_ne_nil _ _) (List.forall_mem_singleton.mpr fine) list
  refine ⟨fine, spelled, ⟨_, braced.1, rfl⟩, ?_⟩
  rintro ⟨bare, alone⟩
  rw [alone] at rules
  cases rules

end PageLint.Css
