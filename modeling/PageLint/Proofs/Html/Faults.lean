/-
# PageLint.Proofs.Html.Faults — faults of markup lie in markup

What is wrong with a start tag lies in the tag, and everything else that is wrong with a page
is a single token that is no raw text. So every fault of a page begins inside such a token
(`inMarkup_issue`), and none of them inside a stylesheet (`InMarkup.outside`).
-/
import PageLint.Proofs.Html.Stylesheets

namespace PageLint.Html

set_option autoImplicit false

open Text

variable {g : Passage} {ts : List (Token TokenKind)} {t : Token TokenKind}

/-- A stretch that is not empty and begins inside a token that is no raw text. -/
def InMarkup (ts : List (Token TokenKind)) (s : Span) : Prop :=
  s.start.offset < s.finish.offset ∧ ∃ t ∈ ts, isRawText t = false ∧
    t.span.start.offset ≤ s.start.offset ∧ s.start.offset < t.span.finish.offset

/-- What begins in markup does not begin in a raw text. -/
theorem InMarkup.outside {s : Span} (inMarkup : InMarkup ts s) (reads : g.Reads ts)
    {u : Token TokenKind} (member : u ∈ ts) (raw : isRawText u) :
    s.start.offset < u.span.start.offset ∨ u.span.finish.offset ≤ s.start.offset := by
  obtain ⟨-, t, found, plain, after, before⟩ := inMarkup
  have different : t ≠ u := by
    rintro rfl
    rw [plain] at raw
    cases raw
  have apart := reads.apart found member different
  omega

/-- A token of markup begins in itself. -/
theorem inMarkup_span (member : t ∈ ts) (plain : isRawText t = false)
    (nonempty : t.span.start.offset < t.span.finish.offset) : InMarkup ts t.span :=
  ⟨nonempty, t, member, plain, le_rfl, nonempty⟩

/-! ## Start tags -/

theorem mem_readValue {rawName raw : List Char} {p : Position} {issue : Issue}
    (member : issue ∈ (Attribute.readValue rawName p raw).2.2) :
    raw ≠ [] ∧ issue.span = .covering p raw := by
  cases raw with
  | nil => cases member
  | cons q body =>
      refine ⟨List.cons_ne_nil q body, ?_⟩
      rw [Attribute.readValue] at member
      split at member
      · dsimp only at member
        split at member
        · cases member
        · rw [List.mem_singleton.mp member]
      · cases member

/-- A value that is not closed begins inside the text of its attribute. -/
theorem inMarkup_ofToken (member : t ∈ ts) (plain : isRawText t = false)
    (shown : g.Shows t.span t.text) :
    ∀ issue ∈ (Attribute.ofToken t).2, InMarkup ts issue.span := by
  intro issue found
  simp only [Attribute.ofToken] at found
  split at found
  next afterSign left =>
    obtain ⟨some_, span⟩ := mem_readValue found
    have ending : trimStart afterSign <:+ t.text := by
      refine (trimStart_suffix afterSign).trans ?_
      refine (List.suffix_cons '=' afterSign).trans ?_
      rw [← left]
      exact (trimStart_suffix _).trans (List.drop_suffix _ _)
    obtain ⟨front, whole⟩ := ending
    have positive := bytes_pos some_
    have finish : t.span.finish.offset =
        t.span.start.offset + bytes front + bytes (trimStart afterSign) := by
      rw [shown.2, Position.offset_after, ← whole, bytes_append, Nat.add_assoc]
    have start : (t.span.start.after
        (t.text.take (t.text.length - (trimStart afterSign).length))).offset =
        t.span.start.offset + bytes front := by
      have passed : t.text.take (t.text.length - (trimStart afterSign).length) = front := by
        rw [← whole]
        simp
      rw [passed, Position.offset_after]
    rw [span]
    generalize t.span.start.after
      (t.text.take (t.text.length - (trimStart afterSign).length)) = p at start
    refine ⟨?_, t, member, plain, ?_, ?_⟩
    · rw [Span.covering_start, Span.covering_finish, Position.offset_after]
      omega
    · rw [Span.covering_start]
      omega
    · rw [Span.covering_start]
      omega
  next => cases found

theorem inMarkup_readParts (name : List Char) {parts : List (Token TokenKind)}
    (inside : ∀ t ∈ parts, t ∈ ts) (shown : ∀ t ∈ parts, g.Shows t.span t.text)
    (nonempty : ∀ t ∈ parts, t.span.start.offset < t.span.finish.offset) :
    ∀ issue ∈ (readParts name parts).2, InMarkup ts issue.span := by
  induction parts with
  | nil => simp [readParts]
  | cons t parts ih =>
      rw [List.forall_mem_cons] at inside shown nonempty
      have later := ih inside.2 shown.2 nonempty.2
      simp only [readParts]
      split
      next kind =>
        have plain : isRawText t = false := by simp [isRawText, kind]
        exact List.forall_mem_append.mpr ⟨inMarkup_ofToken inside.1 plain shown.1, later⟩
      next kind =>
        have plain : isRawText t = false := by simp [isRawText, kind]
        exact List.forall_mem_cons.mpr ⟨inMarkup_span inside.1 plain nonempty.1, later⟩
      next => exact later

/-- A piece of markup has its start tag and its faults in markup. -/
theorem sites_inMarkup (reads : g.Reads ts)
    (nonempty : ∀ t ∈ ts, t.span.start.offset < t.span.finish.offset) {piece : Markup}
    (member : piece ∈ Markup.ofTokens ts) : piece.Sites (InMarkup ts) := by
  have inside := Markup.tokens_sublist member
  cases piece with
  | tag head parts close =>
      obtain ⟨kind, found⟩ := Markup.kind_of_mem_ofTokens member
      have own : g.Reads (head :: (parts ++ close.toList)) := reads.sublist inside
      have span : InMarkup ts (StartTag.ofTokens head parts close).1.span := by
        have last := own.finish_le (List.getLast_mem (List.cons_ne_nil head _))
        have here := nonempty head found
        exact ⟨here.trans_le last, head, found, by simp [isRawText, kind], le_rfl, here⟩
      refine ⟨span, ?_⟩
      have partsInside : ∀ t ∈ parts, t ∈ ts := by
        intro t isPart
        exact inside.subset (by simp [Markup.tokens, isPart])
      have issues := inMarkup_readParts (lowerAscii (head.text.drop 1)) partsInside
        (fun t isPart => reads.shows t (partsInside t isPart))
        (fun t isPart => nonempty t (partsInside t isPart))
      intro issue isIssue
      simp only [StartTag.ofTokens] at isIssue
      split at isIssue
      · rcases List.mem_append.mp isIssue with isIssue | isIssue
        · exact issues issue isIssue
        · rw [List.mem_singleton.mp isIssue]
          exact span
      · exact issues issue isIssue
  | single t =>
      intro other
      have found : t ∈ ts := inside.subset (by simp [Markup.tokens])
      exact inMarkup_span found (by simpa [isRawText] using other) (nonempty t found)

/-- **Faults of markup begin in markup.** -/
theorem inMarkup_issue (cs : List Char) :
    ∀ issue ∈ (Page.ofText cs).issues, InMarkup (tokenize cs) issue.span :=
  forall_issues_buildTree (some depthCap) fun _ member =>
    sites_inMarkup (Page.reads_tokens cs) (offset_lt_of_mem_tokenize cs) member

end PageLint.Html
