/-
# PageLint.Proofs.Css.Words — names and numbers of a stylesheet lie on one line

A name may hold any character, but a line feed ends it even behind a backslash; a number is made of
digits and signs. So the lexemes that are names or numbers lie on one line
(`newline_notMem_of_isWord`), whatever else may go over several: white space, comments, strings with
an escaped line feed, addresses without quotes.

So do the properties of declarations and the words in selectors, preludes and values, which are such
tokens (`Sheet.worded_subjects`); and of all that is told of a stylesheet only a stray entry of a
block, whose first token is quoted, may go over several lines (`Sheet.strayInBlock_of_newline`).
-/
import PageLint.Proofs.Css.Making
import PageLint.Proofs.Html.Building
import PageLint.Proofs.Text.OneLine

namespace PageLint

set_option autoImplicit false

open Text

namespace Css

/-- Names and numbers. -/
def isWordKind : TokenKind → Bool
  | .ident | .atKeyword | .hash | .number | .percentage | .dimension => true
  | _ => false

/-! ## Lexemes -/

theorem newline_notMem_nameExtent (cs : List Char) : '\n' ∉ cs.take (nameExtent cs) := by
  have feed : isNameChar '\n' = false := by decide
  have different : ∀ {c : Char}, isNameChar c → '\n' ≠ c := by
    rintro c name rfl
    rw [feed] at name
    cases name
  fun_induction nameExtent cs with
  | case1 => simp
  | case2 c name => simpa using different name
  | case3 c name => simp
  | case4 c d cs name ih =>
      rw [Nat.add_comm, List.take_succ_cons, List.mem_cons, not_or]
      exact ⟨different name, ih⟩
  | case5 c d cs name escape ih =>
      simp only [Bool.and_eq_true, beq_iff_eq, bne_iff_ne] at escape
      rw [Nat.add_comm, List.take_succ_cons, List.take_succ_cons, List.mem_cons, List.mem_cons,
        not_or, not_or, escape.1]
      exact ⟨by decide, Ne.symm escape.2, ih⟩
  | case6 c d cs name escape => simp

theorem newline_notMem_digitsExtent (cs : List Char) : '\n' ∉ cs.take (digitsExtent cs) := by
  rw [digitsExtent, take_extentWhile]
  exact notMem_takeWhile (by decide) cs

/-- A first character other than a line feed. -/
theorem newline_notMem_take_one {cs : List Char} {c : Char} (head : cs.head? = some c)
    (other : c ≠ '\n') : '\n' ∉ cs.take 1 := by
  obtain ⟨rest, rfl⟩ := List.head?_eq_some_iff.mp head
  simpa using Ne.symm other

theorem newline_notMem_signExtent (cs : List Char) : '\n' ∉ cs.take (signExtent cs) := by
  rw [signExtent]
  split
  next sign =>
    rcases sign with plus | minus
    · exact newline_notMem_take_one plus (by decide)
    · exact newline_notMem_take_one minus (by decide)
  next => simp

theorem newline_notMem_fractionExtent (cs : List Char) : '\n' ∉ cs.take (fractionExtent cs) := by
  rw [fractionExtent]
  split
  next point =>
    exact notMem_take_add (newline_notMem_take_one point.1 (by decide))
      (newline_notMem_digitsExtent _)
  next => simp

theorem newline_notMem_exponentExtent (cs : List Char) : '\n' ∉ cs.take (exponentExtent cs) := by
  rw [exponentExtent]
  split
  next mark =>
    have first : '\n' ∉ cs.take 1 := by
      rcases mark with small | capital
      · exact newline_notMem_take_one small (by decide)
      · exact newline_notMem_take_one capital (by decide)
    dsimp only
    split
    · exact notMem_take_add (notMem_take_add first (newline_notMem_signExtent _))
        (newline_notMem_digitsExtent _)
    · simp
  next => simp

theorem newline_notMem_numberExtent (cs : List Char) : '\n' ∉ cs.take (numberExtent cs) := by
  simp only [numberExtent]
  exact notMem_take_add
    (notMem_take_add
      (notMem_take_add (newline_notMem_signExtent _) (newline_notMem_digitsExtent _))
      (newline_notMem_fractionExtent _))
    (newline_notMem_exponentExtent _)

theorem newline_notMem_numeric (cs : List Char) : '\n' ∉ cs.take (numeric cs).2 := by
  have number := newline_notMem_numberExtent cs
  simp only [numeric]
  split
  next percent => exact notMem_take_add number (newline_notMem_take_one percent (by decide))
  next =>
    split
    · exact notMem_take_add number (newline_notMem_nameExtent _)
    · exact number

/-- **A name or a number lies on one line.** The cases are those of the lexer: any other shape is
of another kind. -/
theorem newline_notMem_lexemeAt {c : Char} {rest : List Char}
    (word : isWordKind (lexemeAt c rest).1) : '\n' ∉ (c :: rest).take (lexemeAt c rest).2 := by
  have name := newline_notMem_nameExtent rest
  revert word
  simp only [lexemeAt]
  split
  · rintro ⟨⟩
  split
  · rintro ⟨⟩
  split
  · rintro ⟨⟩
  split
  · rintro ⟨⟩
  split
  · exact fun _ => newline_notMem_numeric (c :: rest)
  split
  · intro word
    simp only [identLike] at word ⊢
    split at word
    · split at word
      · split at word <;> cases word
      · cases word
    next => exact newline_notMem_nameExtent (c :: rest)
  split
  · intro word
    split at word <;> cases word
  split
  next hash =>
    simp only [Bool.and_eq_true, beq_iff_eq] at hash
    intro _
    refine notMem_take_add ?_ name
    simp [hash.1]
  split
  next keyword =>
    simp only [Bool.and_eq_true, beq_iff_eq] at keyword
    intro _
    refine notMem_take_add ?_ name
    simp [keyword.1]
  next =>
    intro word
    rw [signKind.eq_def] at word
    split at word
    all_goals try cases word
    split at word <;> cases word

variable {cs : List Char} {origin : Position} {t : Token TokenKind}

/-- **Tokens that are names or numbers lie on one line.** -/
theorem newline_notMem_of_isWord (member : t ∈ tokenize cs origin) (word : isWordKind t.kind) :
    '\n' ∉ t.text := by
  have pieces : ∀ piece ∈ lexemes cs, isWordKind piece.kind → '\n' ∉ piece.text := by
    refine Html.forall_cut (I := fun _ => True) (fun _ _ _ _ => trivial) ?_ true cs trivial
    intro atHead c rest _ word
    rw [scan] at word ⊢
    split at word
    · cases word
    next inside =>
      rw [if_neg inside]
      have first := newline_notMem_lexemeAt word
      have whole : c :: rest.take ((lexemeAt c rest).2 - 1) =
          (c :: rest).take (lexemeAt c rest).2 := by
        obtain ⟨more, extent⟩ := Nat.exists_eq_succ_of_ne_zero (lexemeAt_pos c rest).ne'
        rw [extent]
        rfl
      rwa [← whole] at first
  exact pieces _ (mem_of_mem_locate member) word

/-! ## Pieces of a stylesheet -/

/-- The words among some tokens lie on one line each. -/
def Worded (ts : Tokens) : Prop := ∀ t ∈ ts, isWordKind t.kind → '\n' ∉ t.text

theorem worded_tokenize (cs : List Char) (origin : Position) : Worded (tokenize cs origin) :=
  fun _ => newline_notMem_of_isWord

theorem Worded.subset {ts us : Tokens} (worded : Worded us) (inside : ts ⊆ us) : Worded ts :=
  fun t member => worded t (inside member)

/-- The property of a declaration and the words of its value lie on one line. -/
structure Declaration.Worded (d : Declaration) : Prop where
  property : '\n' ∉ d.property
  value : Css.Worded d.valueTokens

theorem Declaration.From.worded {ts : Tokens} {d : Declaration} (from_ : d.From ts)
    (worded : Css.Worded ts) : d.Worded where
  property := by
    obtain ⟨t, member, kind, same⟩ := from_.property
    rw [same]
    exact worded t member (by rw [kind]; rfl)
  value := worded.subset from_.value

end Css

/-- The names in a start tag lie on one line each. -/
structure Html.StartTag.Worded (tag : StartTag) : Prop where
  name : '\n' ∉ tag.rawName
  attributes : ∀ a ∈ tag.attributes, '\n' ∉ a.rawName

/-- The words that a rule reads off a piece lie on one line each: the names in the tags of a page,
and the names and numbers of a stylesheet. -/
def Subject.Worded : Subject → Prop
  | htmlElement e _ => e.tag.Worded
  | cssStyleRule r => ∀ s ∈ r.selectors, Css.Worded s.tokens
  | cssAtRule r => Css.Worded r.preludeTokens
  | cssBlock b => ∀ d ∈ b.declarations, d.Worded
  | cssDeclaration d => d.Worded
  | _ => True

namespace Css

/-- **The words of a stylesheet lie on one line each.** -/
theorem Sheet.worded_subjects (cs : List Char) (origin : Position) :
    ∀ s ∈ (Sheet.ofText cs origin).subjects, s.Worded := by
  intro s member
  have from_ := Sheet.subjects_from cs origin s member
  have worded := worded_tokenize cs origin
  have css := (Sheet.ofText cs origin).isCss_subjects s member
  cases s with
  | cssStyleRule r => exact fun selector found => worded.subset (from_ selector found)
  | cssAtRule r => exact worded.subset from_
  | cssBlock b => exact fun d found => (from_ d found).worded worded
  | cssDeclaration d => exact Declaration.From.worded from_ worded
  | htmlElement e ancestors => cases css
  | _ => trivial

/-- **What is told of a stylesheet goes over several lines only where it quotes a stray entry.** -/
theorem Sheet.strayInBlock_of_newline {cs : List Char} {origin : Position} {issue : Issue}
    (member : issue ∈ (Sheet.ofText cs origin).issues) (broken : '\n' ∈ issue.fault.message.toList) :
    ∃ text, issue.fault = .strayInBlock text := by
  obtain ⟨fault, span⟩ := issue
  cases fault with
  | strayInBlock text => exact ⟨text, rfl⟩
  | tooDeep cap =>
      have told : '\n' ∈ ("blocks nested more than " ++ toString cap ++
        " levels deep are skipped").toList := broken
      simp [newline_notMem_toDigits cap] at told
  | unterminatedAtRule name =>
      obtain ⟨t, found, kind, same⟩ := keyword_of_unterminated member rfl
      have keyword := newline_notMem_of_isWord found (by rw [kind]; rfl)
      have plain : '\n' ∉ name := by
        rw [same, mem_lowerAscii_newline]
        exact fun inside => keyword (List.mem_of_mem_drop inside)
      exact absurd broken (newline_notMem_around (by decide) plain (by decide))
  | _ => exact absurd broken (by dsimp only; decide)

end Css

end PageLint
