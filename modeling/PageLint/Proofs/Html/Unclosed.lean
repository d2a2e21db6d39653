/-
# PageLint.Proofs.Html.Unclosed — comments, sections and values that are not closed

Comments, CDATA sections and quoted values are read up to their closing marks (`Delimited`). The lexer
does not keep whether it has found the mark, and what is told is told off the text; it is right all the
same (`tellsUnclosed`): told is just what the page came to its end in.
-/
import PageLint.Proofs.Css.Unclosed
import PageLint.Proofs.Html.Revision

namespace PageLint

set_option autoImplicit false

open Text

namespace Html

variable {cs : List Char} {before later : List (Token TokenKind)} {t : Token TokenKind} {issue : Issue}
  {opening closing text rest name gap margin part : List Char} {mode : Mode} {c q : Char}

/-- The constructs of a page that are read up to a closing mark, by the token that holds them: what is
told of those that lack the mark, how they begin, the mark, and their text. A quoted value is the end of
its attribute, and its quote is both of the marks. -/
inductive Delimited (t : Token TokenKind) : Issue → (opening closing text : List Char) → Prop
  | comment : t.kind = .comment → Delimited t ⟨.unterminatedComment, t.span⟩ "<!--" "-->" t.text
  | cdata : t.kind = .cdata → Delimited t ⟨.unterminatedCdata, t.span⟩ "<![CDATA[" "]]>" t.text
  | value {name gap margin part : List Char} {q : Char} : t.kind = .attr → IsAttributeName name →
    (∀ c ∈ gap, isBlank c) → (∀ c ∈ margin, isBlank c) → isQuote q →
    t.text = name ++ (gap ++ '=' :: (margin ++ q :: part)) →
    Delimited t ⟨.unterminatedValue name,
      .covering (t.span.start.after (name ++ (gap ++ '=' :: margin))) (q :: part)⟩ [q] [q] (q :: part)

/-! ## How they are read -/

/-- Comments and sections are cut off between tags. -/
theorem scan_eq_scanContent (holdsText : mode.HoldsText)
    (kind : (scan mode c rest).kind ∈ [TokenKind.comment, .cdata]) :
    scan mode c rest = scanContent c rest := by
  cases mode with
  | head =>
      rw [scan] at kind ⊢
      split at kind
      · simp at kind
      next other => exact if_neg other
  | content => rfl
  | tag name =>
      rw [scan] at kind ⊢
      split at kind
      next opens => exact if_pos opens
      next =>
        simp only [scanTag] at kind
        repeat' split at kind
        all_goals simp at kind
  | raw name kind' =>
      rw [scan] at kind ⊢
      split at kind
      next => rfl
      next => rcases holdsText with rfl | rfl <;> simp at kind

/-- How a token of a page is cut off, by what stands behind it. -/
theorem exists_scan (split : tokenize cs = before ++ t :: later) : ∃ mode c tail next,
    mode.HoldsText ∧ t.text = c :: tail ∧
      scan mode c (tail ++ textOf later) = ⟨t.kind, tail.length, next⟩ := by
  obtain ⟨mode, c, rest, holdsText, whole, kind, text, -, -⟩ :=
    locate_cut_split (s := Mode.head) (I := Mode.HoldsText)
      (fun mode c rest _ => scan_holdsText mode c rest) trivial split
  have own := textOf_tokenize cs
  rw [split, textOf_append, whole] at own
  have follows : c :: rest = t.text ++ textOf later := by
    simpa [textOf] using (List.append_cancel_left own).symm
  have length := List.length_take_of_le (scan_more_le mode c rest)
  rw [text, List.cons_append, List.cons.injEq] at follows
  refine ⟨mode, c, _, (scan mode c rest).state, holdsText, text, ?_⟩
  rw [← follows.2, length, kind]

theorem comment_of_scanContent (kind : (scanContent c rest).kind = .comment) : ∃ inside,
    c :: rest = "<!--".toList ++ inside ∧
      (scanContent c rest).more + 1 = "<!--".toList.length + extentThrough "-->" inside := by
  simp only [scanContent] at kind ⊢
  split at kind
  next leads =>
    rw [if_pos leads]
    obtain ⟨inside, whole⟩ := List.isPrefixOf_iff_prefix.mp leads
    obtain ⟨rfl, rfl⟩ := List.cons.inj whole
    exact ⟨inside, rfl, by rw [Nat.add_right_comm]; rfl⟩
  next =>
    repeat' split at kind
    all_goals cases kind

theorem cdata_of_scanContent (kind : (scanContent c rest).kind = .cdata) : ∃ inside,
    c :: rest = "<![CDATA[".toList ++ inside ∧
      (scanContent c rest).more + 1 = "<![CDATA[".toList.length + extentThrough "]]>" inside := by
  simp only [scanContent] at kind ⊢
  split at kind
  next => cases kind
  next noComment =>
  split at kind
  next => cases kind
  next noDoctype =>
  split at kind
  next leads =>
    rw [if_neg noComment, if_neg noDoctype, if_pos leads]
    obtain ⟨inside, whole⟩ := List.isPrefixOf_iff_prefix.mp leads
    obtain ⟨rfl, rfl⟩ := List.cons.inj whole
    exact ⟨inside, rfl, by rw [Nat.add_right_comm]; rfl⟩
  next =>
    repeat' split at kind
    all_goals cases kind

/-- **Comments, sections and quoted values are read up to their closing marks.** -/
theorem Delimited.exists_part (delimited : Delimited t issue opening closing text)
    (split : tokenize cs = before ++ t :: later) :
    ∃ part, text = opening ++ part ∧ extentThrough closing (part ++ textOf later) = part.length := by
  obtain ⟨mode, c, tail, next, holdsText, own, scanned⟩ := exists_scan split
  cases delimited with
  | comment isComment =>
      rw [scan_eq_scanContent holdsText (by simp [scanned, isComment])] at scanned
      obtain ⟨inside, lead, extent⟩ :=
        comment_of_scanContent ((congrArg Scan.kind scanned).trans isComment)
      rw [scanned] at extent
      rw [own]
      exact Text.exists_part lead extent
  | cdata isSection =>
      rw [scan_eq_scanContent holdsText (by simp [scanned, isSection])] at scanned
      obtain ⟨inside, lead, extent⟩ :=
        cdata_of_scanContent ((congrArg Scan.kind scanned).trans isSection)
      rw [scanned] at extent
      rw [own]
      exact Text.exists_part lead extent
  | @value name gap margin part q isAttr isName gapBlank marginBlank quote said =>
      obtain ⟨n, rfl⟩ := exists_tag_of_attr holdsText ((congrArg Scan.kind scanned).trans isAttr)
      obtain ⟨first, label, rfl⟩ := List.exists_cons_of_ne_nil isName.1
      rw [own, List.cons_append] at said
      obtain ⟨rfl, parted⟩ := List.cons.inj said
      have extent := valueExtent_eq_length isName gapBlank marginBlank (head_quoted quote part)
        (List.cons_ne_nil q part) parted (congrArg Scan.more scanned)
      rw [List.cons_append, valueExtent, if_pos quote, List.length_cons] at extent
      exact ⟨part, rfl, by omega⟩

/-! ## What is told of them -/

/-- What a token of a page is told for by itself, where a closing mark is missing. -/
def openOf (t : Token TokenKind) : List Issue :=
  match t.kind with
  | .attr => (Attribute.ofToken t).2
  | _ => openToken t

theorem openOf_eq_nil (other : t.kind ∉ [TokenKind.comment, .cdata, .attr]) : openOf t = [] := by
  unfold openOf openToken
  cases kind : t.kind <;> simp_all

theorem flatMap_openOf_parts {parts : List (Token TokenKind)} (within : ∀ t ∈ parts, isTagPart t) :
    parts.flatMap openOf =
      (parts.filter (·.kind == .attr)).flatMap fun t => (Attribute.ofToken t).2 := by
  induction parts with
  | nil => rfl
  | cons t parts ih =>
      obtain ⟨part, later⟩ := List.forall_mem_cons.mp within
      rw [List.flatMap_cons, ih later]
      by_cases attr : t.kind = .attr
      · have own : openOf t = (Attribute.ofToken t).2 := by
          unfold openOf
          rw [attr]
        rw [List.filter_cons_of_pos (by simp [attr]), List.flatMap_cons, own]
      · have own : openOf t = [] := by
          apply openOf_eq_nil
          intro among
          cases kind : t.kind <;> simp_all [isTagPart]
        rw [List.filter_cons_of_neg (by simp [attr]), own, List.nil_append]

/-- A piece of markup is told for as its tokens are. -/
theorem openParts_eq {piece : Markup} (member : piece ∈ Markup.ofTokens (tokenize cs)) :
    piece.openParts = piece.tokens.flatMap openOf := by
  have formed := formed_tokenize cs piece member
  cases piece with
  | tag head parts close =>
      obtain ⟨opens, -, within, ends⟩ := formed
      have first : openOf head = [] := openOf_eq_nil (by simp [opens])
      have last : close.toList.flatMap openOf = [] := by
        refine List.flatMap_eq_nil_iff.mpr fun t isLast => openOf_eq_nil ?_
        have isEnd := ends t (Option.mem_toList.mp isLast)
        intro among
        cases kind : t.kind <;> simp_all [isTagEnd]
      rw [Markup.tokens, List.flatMap_append, List.flatMap_cons, first, last,
        flatMap_openOf_parts within, List.append_nil, List.nil_append]
      rfl
  | single t =>
      obtain ⟨more, aside⟩ := ((lexed_tokenize cs).aside id).single member
      have other := aside.ne_attr
      have own : openOf t = openToken t := by
        unfold openOf
        split
        next attr => exact absurd attr other
        next => rfl
      rw [Markup.tokens, List.flatMap_singleton, own]
      rfl

/-- **What is told to be open**, of each token of a page in order, and of nothing else. -/
theorem openParts_ofText (cs : List Char) :
    openParts (Page.ofText cs).issues = (tokenize cs).flatMap openOf := by
  refine (openParts_buildTree (some depthCap) (tokenize cs)).trans ?_
  conv_rhs => rw [← Markup.flatMap_tokens_ofTokens (tokenize cs), List.flatMap_assoc]
  exact List.flatMap_congr fun piece member => openParts_eq member

/-- **What a token is told for by itself is a construct without its closing mark.** -/
theorem exists_delimited (member : t ∈ tokenize cs) (own : issue ∈ openOf t) :
    ∃ opening closing text, Delimited t issue opening closing text := by
  unfold openOf openToken at own
  split at own
  next attr =>
    obtain ⟨_, name, _, raw, -, isName, written, -⟩ := written_token member attr
    generalize said : t.text = whole at written
    cases written with
    | bare =>
        rw [ofToken_bare isName said] at own
        cases own
    | @assigned gap margin raw _ gapBlank marginBlank begins =>
        rw [ofToken_assigned isName gapBlank marginBlank begins said] at own
        obtain ⟨value, quote, read, -⟩ := readValue_marked name raw
          (t.span.start.after (name ++ (gap ++ '=' :: margin)))
        simp only [read] at own
        split at own
        next lacks =>
          rw [List.mem_singleton.mp own]
          cases raw with
          | nil => cases lacks
          | cons q part =>
              rw [lacksQuote, Bool.and_eq_true] at lacks
              exact ⟨_, _, _, .value attr isName gapBlank marginBlank lacks.1 said⟩
        next => cases own
  next =>
    split at own
    next isComment =>
      split at own
      · rw [List.mem_singleton.mp own]
        exact ⟨_, _, _, .comment isComment⟩
      · cases own
    next isSection =>
      split at own
      · cases own
      · rw [List.mem_singleton.mp own]
        exact ⟨_, _, _, .cdata isSection⟩
    · cases own

/-- A construct ends where its token does. -/
theorem Delimited.finish_eq (delimited : Delimited t issue opening closing text)
    (member : t ∈ tokenize cs) : issue.span.finish = t.span.finish := by
  cases delimited with
  | comment => rfl
  | cdata => rfl
  | @value name gap margin part q _ _ _ _ _ said =>
      have shown := (Page.reads_tokens cs).shows t member
      rw [shown.2, said, assigned_parted]
      exact (Position.after_append _ _ _).symm

theorem Delimited.isOpen (delimited : Delimited t issue opening closing text) : issue.fault.isOpen := by
  cases delimited <;> rfl

/-- What is told of a token by itself is told of the page, for that token. -/
theorem Delimited.told_iff (delimited : Delimited t issue opening closing text)
    (member : t ∈ tokenize cs) : issue ∈ (Page.ofText cs).issues ↔ issue ∈ openOf t := by
  constructor
  · intro told
    have among : issue ∈ openParts (Page.ofText cs).issues := List.mem_filter.mpr ⟨told, delimited.isOpen⟩
    rw [openParts_ofText] at among
    obtain ⟨u, other, own⟩ := List.mem_flatMap.mp among
    obtain ⟨_, _, _, delimited'⟩ := exists_delimited other own
    have same : t.span.finish = u.span.finish :=
      (delimited.finish_eq member).symm.trans (delimited'.finish_eq other)
    rwa [(Page.reads_tokens cs).eq_of_finish (offset_lt_of_mem_tokenize cs) member other same]
  · intro own
    have among : issue ∈ openParts (Page.ofText cs).issues := by
      rw [openParts_ofText]
      exact List.mem_flatMap.mpr ⟨t, member, own⟩
    exact List.mem_of_mem_filter among

/-- **What a token is told for is told off its text**: that a construct is not closed. -/
theorem Delimited.mem_openOf_iff (delimited : Delimited t issue opening closing text)
    (whole : text = opening ++ part) (extent : extentThrough closing (part ++ rest) = part.length) :
    issue ∈ openOf t ↔ ¬ Closed opening closing text := by
  cases delimited with
  | comment isComment =>
      have test : (t.text.length < 7 || !"-->".toList.isSuffixOf t.text) = true ↔
          ¬ Closed "<!--" "-->" t.text := by
        rw [whole]
        exact short_or_unended_iff (by decide) extent
      rw [← test]
      simp only [openOf, openToken, isComment]
      split
      next holds => exact iff_of_true (List.mem_singleton_self _) holds
      next fails => exact iff_of_false List.not_mem_nil fails
  | cdata isSection =>
      have test : "]]>".toList.isSuffixOf t.text = true ↔ Closed "<![CDATA[" "]]>" t.text := by
        have apart : '[' ∉ "]]>".toList := by decide
        have closed : Closed ("<![CDATA".toList ++ ['[']) "]]>" _ ↔ _ :=
          closed_iff_of_apart apart (by decide) extent
        rw [whole, List.isSuffixOf_iff_suffix]
        exact closed.symm
      rw [← test]
      simp only [openOf, openToken, isSection]
      split
      next holds => exact iff_of_false List.not_mem_nil (not_not.mpr holds)
      next fails => exact iff_of_true (List.mem_singleton_self _) fails
  | @value name gap margin part' q isAttr isName gapBlank marginBlank quote said =>
      obtain rfl : part' = part := List.tail_eq_of_cons_eq whole
      have begins := head_quoted quote part'
      have test : lacksQuote (q :: part') = true ↔ ¬ Closed [q] [q] (q :: part') := by
        rw [lacksQuote, quote, Bool.true_and, Bool.not_eq_true', ← Bool.not_eq_true,
          List.isSuffixOf_iff_suffix]
        exact (closed_iff (List.cons_ne_nil q []) extent).not.symm
      obtain ⟨value, quote', read, -⟩ := readValue_marked name (q :: part')
        (t.span.start.after (name ++ (gap ++ '=' :: margin)))
      rw [← test]
      simp only [openOf, isAttr, ofToken_assigned isName gapBlank marginBlank begins said, read]
      split
      next holds => exact iff_of_true (List.mem_singleton_self _) holds
      next fails => exact iff_of_false List.not_mem_nil fails

/-- **What is told of the comments, the CDATA sections and the quoted values of a page**: of each one
whether the page came to its end in it, and of nothing else. -/
structure TellsUnclosed (cs : List Char) : Prop where
  each : ∀ before t later, tokenize cs = before ++ t :: later → ∀ issue opening closing text,
    Delimited t issue opening closing text →
      Judged (issue ∈ (Page.ofText cs).issues) opening closing text (textOf later)
  only : ∀ issue ∈ (Page.ofText cs).issues, issue.fault.isOpen →
    ∃ t ∈ tokenize cs, ∃ opening closing text, Delimited t issue opening closing text

theorem tellsUnclosed (cs : List Char) : TellsUnclosed cs where
  each before t later split issue opening closing text delimited := by
    obtain ⟨part, whole, extent⟩ := delimited.exists_part split
    have mark : closing ≠ [] := by
      cases delimited <;> simp
    refine .of_closed_iff ?_ ?_
    · rw [whole]
      exact closed_or_runsOut mark extent
    · rw [delimited.told_iff (split ▸ by simp), delimited.mem_openOf_iff whole extent, not_not]
  only issue told isOpen := by
    have among : issue ∈ openParts (Page.ofText cs).issues := List.mem_filter.mpr ⟨told, isOpen⟩
    rw [openParts_ofText] at among
    obtain ⟨t, member, own⟩ := List.mem_flatMap.mp among
    exact ⟨t, member, exists_delimited member own⟩

end Html

/-- **What is not closed is told, and nothing that is closed**: in stylesheets of comments and addresses,
wherever they begin, and in pages of comments, CDATA sections and quoted values. -/
theorem unclosed_told (cs : List Char) :
    (∀ origin, Css.TellsUnclosed cs origin) ∧ Html.TellsUnclosed cs :=
  ⟨Css.tellsUnclosed cs, Html.tellsUnclosed cs⟩

/-- The opening of a comment does not close it, though it may end like the closing mark. -/
example : (Css.Sheet.ofText "/*/".toList .start).issues.map Css.Issue.fault = [.unterminatedComment] ∧
    (Html.Page.ofText "<!-->".toList).issues.map Html.Issue.fault = [.unterminatedComment] := by
  decide +kernel

end PageLint
