/-
# PageLint.Proofs.Css.Splice — a text in the place of some tokens

A fix puts a text in the place of some tokens of a stylesheet that stand one after the other. The text
before them and the text behind them stay (`splice_tokens`), and so do their tokens: those in front, if
the new text looks to them like the old one (`Alike`, `EndsBefore`), and those behind, if the new text
is cut up where they begin (`lexemes_spliced`, `tokenize_spliced`).
-/
import PageLint.Proofs.Css.Kinds
import PageLint.Proofs.Css.Lookahead
import PageLint.Proofs.Text.Edit

namespace PageLint.Css

set_option autoImplicit false

open Text

variable {cs put : List Char} {front mid back : Tokens} {t u : Token TokenKind} {origin : Position}
  {pieces : List (Lexeme TokenKind)}

/-! ## Tokens in their text -/

theorem offset_lt (member : t ∈ tokenize cs origin) : t.span.start.offset < t.span.finish.offset :=
  (sheet_tokens_lossless cs origin).2.offset_lt member

theorem nodup_spans (cs : List Char) (origin : Position) :
    ((tokenize cs origin).map Token.span).Nodup := by
  have reads : Passage.Reads ⟨cs, origin⟩ (tokenize cs origin) := Passage.reads_cut scan true _
  exact reads.nodup_spans fun t => offset_lt

/-- No two tokens lie at one place. -/
theorem eq_of_span (one : t ∈ tokenize cs origin) (other : u ∈ tokenize cs origin)
    (same : t.span = u.span) : t = u :=
  List.inj_on_of_nodup_map (nodup_spans cs origin) one other same

theorem apart (one : t ∈ tokenize cs origin) (other : u ∈ tokenize cs origin) (different : t ≠ u) :
    t.span.finish.offset ≤ u.span.start.offset ∨ u.span.finish.offset ≤ t.span.start.offset := by
  have reads : Passage.Reads ⟨cs, origin⟩ (tokenize cs origin) := Passage.reads_cut scan true _
  exact reads.apart one other different

/-- No two tokens begin at one place. -/
theorem eq_of_start (one : t ∈ tokenize cs origin) (other : u ∈ tokenize cs origin)
    (same : t.span.start = u.span.start) : t = u := by
  by_contra different
  have place := congrArg Position.offset same
  have own := offset_lt one
  have own' := offset_lt other
  rcases apart one other different with before | after <;> omega

/-- No two tokens end at one place. -/
theorem eq_of_finish (one : t ∈ tokenize cs origin) (other : u ∈ tokenize cs origin)
    (same : t.span.finish = u.span.finish) : t = u := by
  have reads : Passage.Reads ⟨cs, origin⟩ (tokenize cs origin) := Passage.reads_cut scan true _
  exact reads.eq_of_finish (fun t => offset_lt) one other same

/-- A token has one place among the others. -/
theorem split_unique {front' back' : Tokens} (split : tokenize cs origin = front ++ t :: back)
    (split' : tokenize cs origin = front' ++ u :: back') (same : t.span = u.span) :
    front = front' ∧ t = u ∧ back = back' := by
  have one : t ∈ tokenize cs origin := by simp [split]
  have other : u ∈ tokenize cs origin := by simp [split']
  have own := eq_of_span one other same
  have nodup : (front ++ t :: back).Nodup := split ▸ (nodup_spans cs origin).of_map
  rw [List.nodup_middle, List.nodup_cons, List.mem_append, not_or] at nodup
  rw [own] at nodup
  exact (List.append_cons_inj_of_notMem nodup.1.1 nodup.1.2).mp (split.symm.trans split')

theorem text_ne_nil (member : t ∈ tokenize cs origin) : t.text ≠ [] :=
  cut_text_ne_nil scan true cs _ (mem_of_mem_locate member)

theorem textOf_split (split : tokenize cs origin = front ++ back) : cs = textOf front ++ textOf back := by
  rw [← textOf_append, ← split, textOf_tokenize]

theorem span_of_split (split : tokenize cs origin = front ++ t :: back) :
    t.span = .covering (origin.after (textOf front)) t.text := by
  obtain ⟨-, -, last⟩ := locate_split split
  rw [List.map_cons, locate, List.cons.injEq] at last
  rw [← last.1]

/-- What begins where a token ends stands right behind it. -/
theorem split_of_glued (one : t ∈ tokenize cs origin) (other : u ∈ tokenize cs origin)
    (glued : u.span.start = t.span.finish) :
    ∃ front back, tokenize cs origin = front ++ ([t] ++ u :: back) := by
  obtain ⟨front, rest, split⟩ := List.append_of_mem one
  have reads : Passage.Reads ⟨cs, origin⟩ (tokenize cs origin) := Passage.reads_cut scan true _
  have ordered := (List.pairwise_append.mp (split ▸ reads.ordered)).2.2
  have own := offset_lt one
  have own' := offset_lt other
  have place := congrArg Position.offset glued
  have later : u ∈ rest := by
    rw [split, List.mem_append, List.mem_cons] at other
    rcases other with before | rfl | later
    · have early := ordered u before t List.mem_cons_self
      omega
    · omega
    · exact later
  cases rest with
  | nil => cases later
  | cons v back =>
      have split' : tokenize cs origin = (front ++ [t]) ++ v :: back := by simp [split]
      have touch : v.span.start = t.span.finish := by
        rw [span_of_split split', span_of_split split, textOf_append, Position.after_append]
        simp [textOf]
      have next : v ∈ tokenize cs origin := by simp [split]
      obtain rfl := eq_of_start other next (glued.trans touch.symm)
      exact ⟨front, back, split⟩

/-- The stretch of two tokens that stand together. -/
theorem join_of_split (split : tokenize cs origin = front ++ ([t] ++ u :: back)) :
    t.span.join u.span = .covering (origin.after (textOf front)) (textOf ([t] ++ [u])) := by
  have split' : tokenize cs origin = (front ++ [t]) ++ u :: back := by simp [split]
  rw [span_of_split split, span_of_split split', textOf_append, Position.after_append,
    show textOf [t] = t.text by simp [textOf], Span.join_covering, textOf_append]
  simp [textOf]

/-- Tokens behind others are cut by themselves. -/
theorem cut_behind (split : tokenize cs origin = front ++ back) (some_ : front ≠ []) :
    cut scan false (textOf back) = back.map Token.lexeme := by
  obtain ⟨cuts, -, -⟩ := locate_split split
  rw [← texts_lexemes, cut_split cuts (by simpa using some_)]

/-- Where a token was cut off. -/
theorem exists_lexemeAt_split (split : tokenize cs origin = front ++ t :: back)
    (kind : t.kind ≠ .byteOrderMark) : ∃ c rest n, lexemeAt c rest = (t.kind, n) ∧
      t.text = (c :: rest).take n ∧ textOf back = (c :: rest).drop n := by
  obtain ⟨s, c, rest, -, -, own, text, -, later⟩ :=
    locate_cut_split (I := fun _ => True) (fun _ _ _ _ => trivial) trivial split
  obtain ⟨n, extent⟩ := Nat.exists_eq_succ_of_ne_zero (lexemeAt_pos c rest).ne'
  have inside : ¬ (s ∧ c = '\uFEFF') := by
    intro mark
    rw [scan, if_pos mark] at own
    exact kind own
  have seen : scan s c rest = ⟨(lexemeAt c rest).1, n, false⟩ := by
    simp [scan, inside, extent]
  rw [seen] at own text later
  refine ⟨c, rest, n + 1, Prod.ext own.symm extent, text, ?_⟩
  rw [later, textOf, map_text_locate, texts_cut]
  rfl

/-- The same, with the text of the token taken off. -/
theorem exists_lexemeAt_text (split : tokenize cs origin = front ++ t :: back)
    (kind : t.kind ≠ .byteOrderMark) : ∃ c tail, t.text = c :: tail ∧
      lexemeAt c (tail ++ textOf back) = (t.kind, (c :: tail).length) := by
  obtain ⟨c, rest, n, measured, text, behind⟩ := exists_lexemeAt_split split kind
  have some_ := lexemeAt_pos c rest
  have short := lexemeAt_le c rest
  rw [measured] at some_ short
  obtain ⟨n, rfl⟩ := Nat.exists_eq_succ_of_ne_zero some_.ne'
  refine ⟨c, rest.take n, text, ?_⟩
  rw [behind, List.drop_succ_cons, List.take_append_drop, measured, List.length_cons,
    List.length_take_of_le (Nat.le_of_succ_le_succ short)]

/-- **A text in the place of some tokens**: the text around them stays. -/
theorem splice_tokens (split : tokenize cs .start = front ++ (mid ++ back)) (some_ : mid ≠ [])
    (put : List Char) :
    Source.splice ⟨cs⟩ (.covering (Position.start.after (textOf front)) (textOf mid)) put =
      textOf front ++ (put ++ textOf back) := by
  have inside : textOf mid ≠ [] := by
    obtain ⟨t, rest, rfl⟩ := List.exists_cons_of_ne_nil some_
    have member : t ∈ tokenize cs .start := by
      rw [split]
      simp
    rw [textOf_cons]
    exact List.append_ne_nil_of_left_ne_nil (text_ne_nil member) _
  let e : Edit := ⟨textOf front, textOf mid, put, textOf back, inside⟩
  have whole : e.old = cs := by
    rw [textOf_split split, textOf_append]
    rfl
  have spliced := Source.splice_span e
  rwa [whole] at spliced

theorem splice_token (split : tokenize cs .start = front ++ t :: back) (put : List Char) :
    Source.splice ⟨cs⟩ t.span put = textOf front ++ (put ++ textOf back) := by
  have alone : textOf [t] = t.text := by rw [textOf_cons, textOf, List.map_nil, List.flatten_nil,
    List.append_nil]
  rw [← List.singleton_append] at split
  rw [span_of_split split, ← alone]
  exact splice_tokens split (List.cons_ne_nil t []) put

/-! ## Trivia between tokens -/

section Trivia

variable {gap : Tokens} {z : List Char}

theorem textOf_blanks (inText : ∀ t ∈ gap, t ∈ tokenize cs origin) (blank : ∀ t ∈ gap, t.kind = .blank) :
    ∀ c ∈ textOf gap, isBlank c := by
  intro c member
  obtain ⟨text, found, inside⟩ := List.mem_flatten.mp member
  obtain ⟨t, isToken, rfl⟩ := List.mem_map.mp found
  exact blanks_of_blank (mem_of_mem_locate (inText t isToken)) (blank t isToken) c inside

/-- Trivia that show only white space up to what is none are white space. -/
theorem blanks_of_head {p : Char → Bool} (slash : p '/' = false)
    (inText : ∀ t ∈ gap, t ∈ tokenize cs origin) (trivia : ∀ t ∈ gap, isTrivia t)
    (head : (trimStart (textOf gap ++ z)).head?.any p) : ∀ t ∈ gap, t.kind = .blank := by
  induction gap with
  | nil => simp
  | cons t gap ih =>
      rw [List.forall_mem_cons] at inText trivia ⊢
      have either : t.kind = .blank ∨ t.kind = .comment := by simpa [isTrivia] using trivia.1
      rw [textOf_cons, List.append_assoc] at head
      rcases either with blank | comment
      · rw [trimStart_blanks (blanks_of_blank (mem_of_mem_locate inText.1) blank)] at head
        exact ⟨blank, ih inText.2 trivia.2 head⟩
      · obtain ⟨more, text⟩ := text_of_comment (mem_of_mem_locate inText.1) comment
        rw [show t.text = '/' :: more from text] at head
        have solid : isBlank '/' = false := by decide
        simp [trimStart, trimStartBy, solid, slash] at head

/-- Trivia whose characters are all white space are white space. -/
theorem blanks_of_textOf (inText : ∀ t ∈ gap, t ∈ tokenize cs origin)
    (trivia : ∀ t ∈ gap, isTrivia t) (blank : ∀ c ∈ textOf gap, isBlank c) :
    ∀ t ∈ gap, t.kind = .blank := by
  refine blanks_of_head (z := ['"']) (p := isQuote) rfl inText trivia ?_
  rw [trimStart_blanks blank]
  rfl

end Trivia

/-! ## The new tokens -/

/-- **Around a text that is put in the place of some tokens, the lexemes stay**: those in front, if it
looks to them like what stood there, and those behind, if it is cut up where they begin. -/
theorem lexemes_spliced (split : tokenize cs origin = front ++ (mid ++ back))
    (alike : Alike (textOf (mid ++ back)) (put ++ textOf back))
    (mark : (put ++ textOf back).head? ≠ some '\uFEFF')
    (ends : ∀ t ∈ front.getLast?,
      EndsBefore (textOf (mid ++ back)) (put ++ textOf back) t.lexeme)
    (own : cut scan false (put ++ textOf back) = pieces ++ back.map Token.lexeme) :
    lexemes (textOf front ++ (put ++ textOf back)) =
      front.map Token.lexeme ++ (pieces ++ back.map Token.lexeme) := by
  obtain ⟨cuts, -, -⟩ := locate_split split
  have last : ∀ piece ∈ (front.map Token.lexeme).getLast?,
      EndsBefore (textOf (mid ++ back)) (put ++ textOf back) piece := by
    intro piece member
    rw [List.getLast?_map] at member
    obtain ⟨t, isLast, rfl⟩ := Option.map_eq_some_iff.mp member
    exact ends t isLast
  rw [textOf_split split, lexemes] at cuts
  rw [← own, lexemes, cut_alike alike (fun _ _ => mark) last cuts (texts_lexemes front)]

/-- The same with the places of the tokens. -/
theorem tokenize_spliced (split : tokenize cs origin = front ++ (mid ++ back))
    (alike : Alike (textOf (mid ++ back)) (put ++ textOf back))
    (mark : (put ++ textOf back).head? ≠ some '\uFEFF')
    (ends : ∀ t ∈ front.getLast?,
      EndsBefore (textOf (mid ++ back)) (put ++ textOf back) t.lexeme)
    (own : cut scan false (put ++ textOf back) = pieces ++ back.map Token.lexeme) :
    tokenize (textOf front ++ (put ++ textOf back)) origin =
      front ++ locate (origin.after (textOf front)) (pieces ++ back.map Token.lexeme) := by
  obtain ⟨-, first, -⟩ := locate_split split
  rw [tokenize, lexemes_spliced split alike mark ends own, locate_append, first, List.flatMap_def,
    texts_lexemes]

/-- **Another text for one token, of the same width**: every token stays in its place, and all but that
one stay as they are. -/
theorem tokenize_reworded {lead : Tokens} {w : List Char} (split : tokenize cs origin = front ++ (lead ++ t :: back))
    (wide : ∀ p : Position, p.after w = p.after t.text)
    (alike : Alike (textOf (lead ++ t :: back)) (textOf lead ++ (w ++ textOf back)))
    (mark : (textOf lead ++ (w ++ textOf back)).head? ≠ some '\uFEFF')
    (ends : ∀ u ∈ front.getLast?,
      EndsBefore (textOf (lead ++ t :: back)) (textOf lead ++ (w ++ textOf back)) u.lexeme)
    (own : cut scan false (textOf lead ++ (w ++ textOf back)) =
      lead.map Token.lexeme ++ ⟨t.kind, w⟩ :: back.map Token.lexeme) :
    tokenize (textOf front ++ (textOf lead ++ (w ++ textOf back))) origin =
      front ++ (lead ++ { t with text := w } :: back) := by
  have whole : lead ++ t :: back = (lead ++ [t]) ++ back := by simp
  obtain ⟨-, -, located⟩ := locate_split split
  rw [whole] at split alike ends
  rw [← List.append_assoc (textOf lead)] at alike mark ends own ⊢
  rw [List.append_cons] at own
  rw [tokenize_spliced split alike mark ends own, ← List.append_cons, locate_reworded located wide]

end PageLint.Css
