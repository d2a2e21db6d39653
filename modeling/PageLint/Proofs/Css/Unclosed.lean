/-
# PageLint.Proofs.Css.Unclosed — comments and addresses that are not closed

Comments and addresses are read up to their closing marks (`Delimited`), or to the end of the input. The
lexer makes the same kind of lexeme of both, and which it was is found in the text of the token
(`tokenFault?`). So what is told of the token is told just if the input came to its end there
(`tellsUnclosed`): none of the faults of structure is taken for one of these (`lexical_buildItems`).
-/
import PageLint.Proofs.Css.Kinds
import PageLint.Proofs.Css.Lookahead
import PageLint.Proofs.Css.Making
import PageLint.Proofs.Css.Splice
import PageLint.Proofs.Text.Closing

namespace PageLint

set_option autoImplicit false

open Text

/-- A construct is told to lack its closing mark if it runs out, and only then; it is not told if it is
closed, and only then. -/
structure Judged (told : Prop) (opening closing text rest : List Char) : Prop where
  runsOut : told ↔ RunsOut opening closing text rest
  closed : ¬ told ↔ Closed opening closing text

/-- What is told if it is not closed is judged right, where there is nothing else that it can be. -/
theorem Judged.of_closed_iff {told : Prop} {opening closing text rest : List Char}
    (either : Closed opening closing text ∨ RunsOut opening closing text rest)
    (closed : ¬ told ↔ Closed opening closing text) : Judged told opening closing text rest where
  runsOut := by
    constructor
    · intro isTold
      exact either.resolve_left fun isClosed => closed.mpr isClosed isTold
    · intro runsOut
      by_contra notTold
      exact runsOut.not_closed (closed.mp notTold)
  closed := closed

namespace Css

variable {cs : List Char} {origin : Position} {before later : Tokens} {t : Token TokenKind}
  {c : Char} {rest : List Char} {n : Nat}

/-- The constructs of a stylesheet that are read up to a closing mark: of what kind they are, what is told
of those that lack the mark, how they begin, and the mark. -/
inductive Delimited : TokenKind → Fault → (opening closing : List Char) → Prop
  | comment : Delimited .comment .unterminatedComment "/*" "*/"
  | url {name : List Char} : sameIgnoringCase name "url" →
    Delimited .url .unterminatedUrl (name ++ ['(']) ")"

/-! ## How they are read -/

theorem comment_of_lexemeAt (measured : lexemeAt c rest = (.comment, n)) :
    ∃ inside, c :: rest = "/*".toList ++ inside ∧
      n = "/*".toList.length + extentThrough "*/" inside := by
  have others : ∀ kind ∈ numberKinds ++ (wordKinds ++ signKinds), kind ≠ .comment := by decide
  simp only [lexemeAt] at measured
  split at measured
  next => cases measured
  split at measured
  next leads =>
    obtain ⟨inside, whole⟩ := List.isPrefixOf_iff_prefix.mp leads
    rw [← whole] at measured ⊢
    exact ⟨inside, rfl, (Prod.mk.inj measured).2.symm⟩
  split at measured
  next => cases measured
  split at measured
  next => cases measured
  split at measured
  next =>
    have number := List.mem_append_left (wordKinds ++ signKinds) (kind_numeric (c :: rest))
    exact absurd (congrArg Prod.fst measured) (others _ number)
  split at measured
  next =>
    have word := List.mem_append_left signKinds (kind_identLike (c :: rest))
    exact absurd (congrArg Prod.fst measured) (others _ (List.mem_append_right _ word))
  split at measured
  next => split at measured <;> cases measured
  split at measured
  next => cases measured
  split at measured
  next => cases measured
  next =>
    have sign := List.mem_append_right wordKinds (kind_signKind c)
    exact absurd (congrArg Prod.fst measured) (others _ (List.mem_append_right _ sign))

theorem url_of_lexemeAt (measured : lexemeAt c rest = (.url, n)) :
    ∃ name inside, c :: rest = name ++ ['('] ++ inside ∧ sameIgnoringCase name "url" ∧
      n = (name ++ ['(']).length + extentThrough ")" inside := by
  cases shape_of measured with
  | number _ _ own => exact absurd own (by decide)
  | sign _ _ own => exact absurd own (by decide)
  | word _ own =>
      rw [identLike_eq] at own
      split at own
      next paren =>
        split at own
        next named =>
          split at own
          next => cases own
          next =>
            obtain ⟨inside, left⟩ := List.head?_eq_some_iff.mp paren
            have behind : (c :: rest).drop (nameExtent (c :: rest) + 1) = inside := by
              rw [← List.tail_drop, left]
              rfl
            have within : ((c :: rest).take (nameExtent (c :: rest))).length = nameExtent (c :: rest) :=
              List.length_take_of_le (nameExtent_le _)
            refine ⟨(c :: rest).take (nameExtent (c :: rest)), inside, ?_, named, ?_⟩
            · rw [List.append_assoc, List.singleton_append, ← left, List.take_append_drop]
            · rw [← (Prod.mk.inj own).2, behind, List.length_append, within, List.length_singleton]
        next => cases own
      next => cases own

/-- **Comments and addresses are read up to their closing marks.** -/
theorem exists_delimited (split : tokenize cs origin = before ++ t :: later)
    (kind : t.kind = .comment ∨ t.kind = .url) : ∃ fault opening closing part,
      Delimited t.kind fault opening closing ∧ t.text = opening ++ part ∧
        extentThrough closing (part ++ textOf later) = part.length := by
  have plain : t.kind ≠ .byteOrderMark := by
    intro mark
    rcases kind with same | same <;> simp [mark] at same
  obtain ⟨c, tail, text, measured⟩ := exists_lexemeAt_text split plain
  rcases kind with kind | kind <;> rw [kind] at measured ⊢
  · obtain ⟨inside, whole, length⟩ := comment_of_lexemeAt measured
    obtain ⟨part, same, extent⟩ := exists_part whole length
    exact ⟨_, _, _, part, .comment, text.trans same, extent⟩
  · obtain ⟨name, inside, whole, named, length⟩ := url_of_lexemeAt measured
    obtain ⟨part, same, extent⟩ := exists_part whole length
    exact ⟨_, _, _, part, .url named, text.trans same, extent⟩

/-! ## What is told of them -/

theorem getLast?_eq_some_iff_suffix {text : List Char} {sign : Char} :
    text.getLast? = some sign ↔ [sign] <:+ text := by
  rw [List.getLast?_eq_some_iff]
  constructor
  · rintro ⟨front, rfl⟩
    exact List.suffix_append front [sign]
  · rintro ⟨front, whole⟩
    exact ⟨front, whole.symm⟩

/-- **What is wrong with a comment or an address is told off its text**: that it is not closed. -/
theorem Delimited.tokenFault?_eq {fault : Fault} {opening closing part rest : List Char}
    (delimited : Delimited t.kind fault opening closing) (text : t.text = opening ++ part)
    (extent : extentThrough closing (part ++ rest) = part.length) :
    (Closed opening closing t.text → tokenFault? t = none) ∧
      (¬ Closed opening closing t.text → tokenFault? t = some fault) := by
  unfold tokenFault?
  rw [text]
  generalize t.kind = kind at delimited
  cases delimited with
  | comment =>
      have test : (("/*".toList ++ part).length < 4 ||
          !"*/".toList.isSuffixOf ("/*".toList ++ part)) = true ↔
            ¬ Closed "/*".toList "*/".toList ("/*".toList ++ part) :=
        short_or_unended_iff (by decide) extent
      constructor
      · intro isClosed
        exact if_neg fun told => test.mp told isClosed
      · intro open_
        exact if_pos (test.mpr open_)
  | url named =>
      rename_i name
      have apart : '(' ∉ ")".toList := by decide
      have closed : Closed (name ++ ['(']) ")".toList (name ++ ['('] ++ part) ↔ _ :=
        closed_iff_of_apart apart (by decide) extent
      have last : (name ++ ['('] ++ part).getLast? = some ')' ↔ _ :=
        getLast?_eq_some_iff_suffix.trans closed.symm
      constructor
      · intro isClosed
        exact if_pos (last.mpr isClosed)
      · intro open_
        exact if_neg (last.not.mpr open_)

theorem Delimited.mark {kind : TokenKind} {fault : Fault} {opening closing : List Char}
    (delimited : Delimited kind fault opening closing) : closing ≠ [] := by
  cases delimited <;> decide

theorem Delimited.fault_eq {kind : TokenKind} {fault : Fault} {opening closing : List Char}
    (delimited : Delimited kind fault opening closing) :
    fault = .unterminatedComment ∨ fault = .unterminatedUrl := by
  cases delimited
  · exact .inl rfl
  · exact .inr rfl

/-- A fault of a comment or of an address is told of a token by itself. -/
theorem exists_tokenFault? {issue : Issue} (told : issue ∈ (Sheet.ofText cs origin).issues)
    (lexical : issue.fault = .unterminatedComment ∨ issue.fault = .unterminatedUrl) :
    ∃ t ∈ tokenize cs origin, tokenFault? t = some issue.fault ∧ t.span = issue.span := by
  rcases Sheet.told_by told with single | ⟨t, -, at_⟩ | ended
  · exact single
  · rcases lexical with fault | fault <;> rw [fault] at at_ <;> exact at_.elim
  · rcases lexical with fault | fault <;> rw [fault] at ended <;> cases ended

/-- What is told of a token by itself is told of the stylesheet, where the token lies. -/
theorem Delimited.told_iff {fault : Fault} {opening closing : List Char}
    (delimited : Delimited t.kind fault opening closing) (member : t ∈ tokenize cs origin) :
    ⟨fault, t.span⟩ ∈ (Sheet.ofText cs origin).issues ↔ tokenFault? t = some fault := by
  constructor
  · intro told
    obtain ⟨u, other, own, same⟩ := exists_tokenFault? told delimited.fault_eq
    rwa [eq_of_span other member same] at own
  · intro own
    have single : ⟨fault, t.span⟩ ∈ tokenIssues (tokenize cs origin) :=
      List.mem_filterMap.mpr ⟨t, member, by rw [own]; rfl⟩
    simp only [Sheet.ofText, buildItems, List.append_assoc, List.mem_append]
    exact .inl single

/-- Only comments and addresses are told for by these faults. -/
theorem exists_delimited_of_fault {fault : Fault} (own : tokenFault? t = some fault)
    (lexical : fault = .unterminatedComment ∨ fault = .unterminatedUrl) :
    ∃ opening closing, Delimited t.kind fault opening closing := by
  unfold tokenFault? at own
  split at own
  · cases own
    simp at lexical
  next kind =>
    split at own
    · cases own
      exact kind ▸ ⟨_, _, .comment⟩
    · cases own
  next kind =>
    split at own
    · cases own
    · cases own
      have named : sameIgnoringCase "url".toList "url" := rfl
      exact kind ▸ ⟨_, _, .url named⟩
  · cases own

/-- **What is told of the comments and the addresses of a stylesheet**: of each one whether the input
came to its end in it, and of nothing else. -/
structure TellsUnclosed (cs : List Char) (origin : Position) : Prop where
  each : ∀ before t later, tokenize cs origin = before ++ t :: later →
    t.kind = .comment ∨ t.kind = .url → ∃ fault opening closing,
      Delimited t.kind fault opening closing ∧
        Judged (⟨fault, t.span⟩ ∈ (Sheet.ofText cs origin).issues) opening closing t.text
          (textOf later)
  only : ∀ issue ∈ (Sheet.ofText cs origin).issues,
    issue.fault = .unterminatedComment ∨ issue.fault = .unterminatedUrl →
    ∃ t ∈ tokenize cs origin, t.span = issue.span ∧
      ∃ opening closing, Delimited t.kind issue.fault opening closing

theorem tellsUnclosed (cs : List Char) (origin : Position) : TellsUnclosed cs origin where
  each before t later split kind := by
    obtain ⟨fault, opening, closing, part, delimited, text, extent⟩ := exists_delimited split kind
    obtain ⟨nothing, own⟩ := delimited.tokenFault?_eq text extent
    refine ⟨fault, opening, closing, delimited, .of_closed_iff ?_ ?_⟩
    · rw [text]
      exact closed_or_runsOut delimited.mark extent
    · rw [delimited.told_iff (split ▸ by simp)]
      constructor
      · intro notTold
        by_contra open_
        exact notTold (own open_)
      · intro isClosed
        simp [nothing isClosed]
  only issue told lexical := by
    obtain ⟨t, member, own, same⟩ := exists_tokenFault? told lexical
    exact ⟨t, member, same, exists_delimited_of_fault own lexical⟩

end Css

end PageLint
