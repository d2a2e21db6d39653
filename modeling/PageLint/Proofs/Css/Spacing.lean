/-
# PageLint.Proofs.Css.Spacing — what stands between two tokens

Two tokens of a stylesheet have trivia between them, or nothing (`Gap`). A space in place of what stands
there, and nothing at all in front of a colon, leave all other tokens as they are (`tokenize_respaced`):
no token begins with a space or a colon, so that none in front goes on, and what follows is cut by
itself. There is one exception. A line feed ends a string that is not closed, and keeps a backslash from
escaping anything, and a space does not (`LineEnded`).

What counts of a stylesheet are its tokens but for white space (`solids`). They stay just if there was
no comment in the gap (`solids_respaced`). They never stay if a sign is lost (`count_solids`).
-/
import PageLint.Proofs.Css.Segments
import PageLint.Proofs.Css.Splice

namespace PageLint.Css

set_option autoImplicit false

open Text

variable {cs put : List Char} {ts front front' mid mid' back back' : Tokens}
  {left left' right right' : Token TokenKind} {origin : Position}

/-! ## Gaps -/

/-- **Two tokens with trivia between them**, or with nothing. -/
structure Gap (ts front : Tokens) (left : Token TokenKind) (mid : Tokens) (right : Token TokenKind)
    (back : Tokens) : Prop where
  split : ts = front ++ left :: (mid ++ right :: back)
  left : isTrivia left = false
  right : isTrivia right = false
  trivia : ∀ t ∈ mid, isTrivia t

/-- Trivia at the end of some tokens go back to the last token that is none. -/
theorem trivia_unique (same : front ++ left :: mid = front' ++ left' :: mid')
    (solid : isTrivia left = false) (solid' : isTrivia left' = false) (trivia : ∀ t ∈ mid, isTrivia t)
    (trivia' : ∀ t ∈ mid', isTrivia t) : front = front' ∧ left = left' ∧ mid = mid' := by
  have ending : ∀ (front : Tokens) {left : Token TokenKind} {mid : Tokens}, isTrivia left = false →
      (∀ t ∈ mid, isTrivia t) → ((front ++ left :: mid).reverse.takeWhile isTrivia) = mid.reverse := by
    intro front left mid solid trivia
    rw [List.reverse_append, List.reverse_cons, List.append_assoc]
    refine takeWhile_append_stop (fun t member => trivia t (List.mem_reverse.mp member)) ?_
    simpa using solid
  have mids := ending front solid trivia
  rw [same, ending front' solid' trivia'] at mids
  obtain rfl : mid = mid' := (List.reverse_injective mids).symm
  rw [List.append_cons, List.append_cons front'] at same
  obtain ⟨rfl, last⟩ := List.append_inj' (List.append_cancel_right same) rfl
  exact ⟨rfl, List.singleton_inj.mp last, rfl⟩

/-- What stands between two tokens goes by the second one. -/
theorem Gap.unique (gap : Gap (tokenize cs origin) front left mid right back)
    (gap' : Gap (tokenize cs origin) front' left' mid' right' back') (same : right.span = right'.span) :
    front = front' ∧ left = left' ∧ mid = mid' ∧ right = right' ∧ back = back' := by
  have split : tokenize cs origin = (front ++ left :: mid) ++ right :: back := by simp [gap.split]
  have split' : tokenize cs origin = (front' ++ left' :: mid') ++ right' :: back' := by
    simp [gap'.split]
  obtain ⟨before, own, behind⟩ := split_unique split split' same
  obtain ⟨first, last, inside⟩ := trivia_unique before gap.left gap'.left gap.trivia gap'.trivia
  exact ⟨first, last, inside, own, behind⟩

section Gap

variable (gap : Gap (tokenize cs origin) front left mid right back)
include gap

theorem Gap.mem_left : left ∈ tokenize cs origin := by simp [gap.split]

theorem Gap.mem_right : right ∈ tokenize cs origin := by simp [gap.split]

theorem Gap.mem_mid {t : Token TokenKind} (member : t ∈ mid) : t ∈ tokenize cs origin := by
  simp [gap.split, member]

theorem Gap.around : tokenize cs origin = (front ++ [left]) ++ (mid ++ right :: back) := by
  simp [gap.split]

theorem Gap.textOf_eq_nil : textOf mid = [] ↔ mid = [] := by
  refine ⟨fun none_ => List.eq_nil_iff_forall_not_mem.mpr fun t member => ?_, fun none_ => none_ ▸ rfl⟩
  exact text_ne_nil (gap.mem_mid member)
    (List.flatten_eq_nil_iff.mp none_ t.text (List.mem_map_of_mem member))

/-- Where the gap is. -/
theorem Gap.span : ⟨left.span.finish, right.span.start⟩ =
    Span.covering (origin.after (textOf (front ++ [left]))) (textOf mid) := by
  have split : tokenize cs origin = (front ++ left :: mid) ++ right :: back := by simp [gap.split]
  rw [span_of_split gap.split, span_of_split split]
  simp only [Span.covering, textOf_append, textOf_cons, Position.after_append]
  simp [textOf, Position.after]

/-- What comes behind the gap begins with no white space. -/
theorem Gap.solid_right : ∃ c more, textOf (right :: back) = c :: more ∧ isBlank c = false := by
  have kind : right.kind ≠ .blank := by
    intro blank
    have solid := gap.right
    simp [isTrivia, blank] at solid
  obtain ⟨c, more, text, solid⟩ := solid_of_ne_blank (mem_of_mem_locate gap.mem_right) kind
  exact ⟨c, more ++ textOf back, by rw [textOf_cons, show right.text = c :: more from text]; rfl, solid⟩

theorem Gap.ne_blank : left.kind ≠ .blank := by
  intro blank
  have solid := gap.left
  simp [isTrivia, blank] at solid

end Gap

theorem Gap.touch (gap : Gap (tokenize cs origin) front left [] right back) :
    left.span.finish = right.span.start := by
  have here := gap.span
  exact (congrArg Span.start here).trans (congrArg Span.finish here).symm

/-- What ends where the second token begins is the first one, or trivia between the two. -/
theorem Gap.before_right (gap : Gap (tokenize cs origin) front left mid right back)
    {t : Token TokenKind} (member : t ∈ tokenize cs origin) (ends : t.span.finish = right.span.start) :
    mid = [] ∧ t = left ∨ isTrivia t := by
  rcases List.eq_nil_or_concat mid with rfl | ⟨before, u, rfl⟩
  · exact .inl ⟨rfl, eq_of_finish member gap.mem_left (ends.trans gap.touch.symm)⟩
  · have split : tokenize cs origin = (front ++ left :: before) ++ u :: (right :: back) := by
      simp [gap.split]
    have split' : tokenize cs origin = (front ++ left :: before ++ [u]) ++ right :: back := by
      simp [gap.split]
    have touch : u.span.finish = right.span.start := by
      rw [span_of_split split, span_of_split split', textOf_append (front ++ left :: before),
        Position.after_append]
      simp [Span.covering, textOf]
    have inMid : u ∈ before.concat u := by simp
    rw [eq_of_finish member (gap.mem_mid inMid) (ends.trans touch.symm)]
    exact .inr (gap.trivia u inMid)

/-- What begins where the first token ends is the second one, or trivia between the two. -/
theorem Gap.behind_left (gap : Gap (tokenize cs origin) front left mid right back)
    {t : Token TokenKind} (member : t ∈ tokenize cs origin) (begins : t.span.start = left.span.finish) :
    mid = [] ∧ t = right ∨ isTrivia t := by
  have touch : ∀ u later, mid ++ right :: back = u :: later → u.span.start = left.span.finish := by
    intro u later parted
    have split : tokenize cs origin = (front ++ [left]) ++ u :: later := by
      rw [gap.around, parted]
    rw [span_of_split split, span_of_split gap.split, textOf_append, Position.after_append]
    simp [Span.covering, textOf]
  cases mid with
  | nil => exact .inl ⟨rfl, eq_of_start member gap.mem_right (begins.trans (touch _ _ rfl).symm)⟩
  | cons u mid =>
      rw [eq_of_start member (gap.mem_mid List.mem_cons_self) (begins.trans (touch _ _ rfl).symm)]
      exact .inr (gap.trivia u List.mem_cons_self)

theorem Gap.slice (gap : Gap (tokenize cs .start) front left mid right back) :
    Source.slice ⟨cs⟩ ⟨left.span.finish, right.span.start⟩ = textOf mid := by
  rw [gap.span]
  refine Source.slice_of_holds ⟨textOf (front ++ [left]), ⟨textOf (right :: back), ?_⟩, rfl⟩
  rw [List.append_assoc, ← textOf_append, ← textOf_append, ← gap.around, textOf_tokenize]
  rfl

/-- What takes the place of a gap stands between what the tokens around it spell. -/
theorem Gap.splice (gap : Gap (tokenize cs .start) front left mid right back) (some_ : mid ≠ [])
    (put : List Char) : Source.splice ⟨cs⟩ ⟨left.span.finish, right.span.start⟩ put =
      textOf (front ++ [left]) ++ (put ++ textOf (right :: back)) := by
  rw [gap.span]
  exact splice_tokens gap.around some_ put

/-! ## Other gaps -/

/-- Ends before a line feed because of that: a string that is not closed, or a backslash that escapes
nothing. -/
def LineEnded (t : Token TokenKind) : Prop := t.kind = .badString ∨ t.text = ['\\']

/-- The space, or nothing, as a piece of its own. -/
def spaces (put : List Char) : List (Lexeme TokenKind) := put.map fun c => ⟨.blank, [c]⟩

/-- What may take the place of what stands before a token: a space, or nothing before a colon. -/
def Admits (right : Token TokenKind) (put : List Char) : Prop :=
  put = [' '] ∨ put = [] ∧ right.kind = .colon

section Respaced

variable (gap : Gap (tokenize cs origin) front left mid right back) (spaced : Admits right put)
include gap spaced

theorem Gap.begins : ∃ c rest, put ++ textOf (right :: back) = c :: rest ∧ (c = ' ' ∨ c = ':') := by
  rcases spaced with rfl | ⟨rfl, kind⟩
  · exact ⟨' ', _, rfl, .inl rfl⟩
  · have sign : right.text = [':'] :=
      text_of_sign (d := ':') (by decide) (mem_of_mem_locate gap.mem_right) kind
    exact ⟨':', textOf back, by rw [textOf_cons, sign]; rfl, .inr rfl⟩

/-- A quote that comes next still does, and then there was no comment in the gap. -/
theorem Gap.quote (quote : (trimStart (textOf (mid ++ right :: back))).head?.any isQuote) :
    (trimStart (put ++ textOf (right :: back))).head?.any isQuote := by
  rw [textOf_append] at quote
  have blanks := textOf_blanks (fun t => gap.mem_mid)
    (blanks_of_head rfl (fun t => gap.mem_mid) gap.trivia quote)
  rw [trimStart_blanks blanks] at quote
  have lead : ∀ c ∈ put, isBlank c := by
    rcases spaced with rfl | ⟨rfl, -⟩ <;> simp [isBlank]
  rwa [trimStart_blanks lead]

theorem Gap.alike : Alike (textOf (mid ++ right :: back)) (put ++ textOf (right :: back)) := by
  obtain ⟨c, rest, begins, sign⟩ := gap.begins spaced
  obtain ⟨d, more, own, -⟩ := gap.solid_right
  have some_ : textOf (mid ++ right :: back) ≠ [] := by
    rw [textOf_append, own]
    simp
  have inert : isInert c := by
    rcases sign with rfl | rfl <;> decide
  have quote := gap.quote spaced
  rw [begins] at quote ⊢
  exact alike_of_inert inert some_ quote

/-- **Another gap leaves the tokens around it as they are.** -/
theorem tokenize_respaced (line : (textOf mid).head? = some '\n' → ¬ LineEnded left) :
    tokenize (textOf (front ++ [left]) ++ (put ++ textOf (right :: back))) origin =
      (front ++ [left]) ++ locate (origin.after (textOf (front ++ [left])))
        (spaces put ++ (right :: back).map Token.lexeme) := by
  obtain ⟨c, rest, begins, sign⟩ := gap.begins spaced
  obtain ⟨d, more, solid, blank⟩ := gap.solid_right
  have mark : (put ++ textOf (right :: back)).head? ≠ some '\uFEFF' := by
    rw [begins]
    rcases sign with rfl | rfl <;> simp
  have ends : ∀ t ∈ (front ++ [left]).getLast?, EndsBefore (textOf (mid ++ right :: back))
      (put ++ textOf (right :: back)) t.lexeme := by
    intro t member
    obtain rfl : left = t := by simpa using member
    refine ⟨fun kind => absurd kind gap.ne_blank, fun feed => .inr ?_⟩
    rw [textOf_append, List.head?_append, solid] at feed
    have inMid : (textOf mid).head? = some '\n' := by
      cases first : (textOf mid).head? with
      | some e => rwa [first] at feed
      | none =>
          rw [first] at feed
          obtain rfl : d = '\n' := Option.some.inj feed
          cases blank
    exact not_or.mp (line inMid)
  have parted : tokenize cs origin = (front ++ [left] ++ mid) ++ right :: back := by
    simp [gap.split]
  have behind := cut_behind parted (by simp)
  have own : cut scan false (put ++ textOf (right :: back)) =
      spaces put ++ (right :: back).map Token.lexeme := by
    rcases spaced with rfl | ⟨rfl, -⟩
    · have stops : EndsSpace (textOf (right :: back)) := by
        rw [solid]
        simpa [EndsSpace] using blank
      rw [List.singleton_append, cut_space stops, behind]
      rfl
    · rw [List.nil_append, behind]
      rfl
  exact tokenize_spliced gap.around (gap.alike spaced) mark ends own

/-- In the text with another gap the two tokens have that gap between them. -/
theorem Gap.exists_respaced (line : (textOf mid).head? = some '\n' → ¬ LineEnded left) :
    ∃ mid' right' back', Gap (tokenize (textOf (front ++ [left]) ++ (put ++ textOf (right :: back))) origin)
      front left mid' right' back' ∧ textOf mid' = put ∧
        (right' :: back').map Token.lexeme = (right :: back).map Token.lexeme := by
  have tokens := tokenize_respaced gap spaced line
  rw [locate_append, List.map_cons, locate, List.append_assoc, List.singleton_append] at tokens
  refine ⟨_, _, _, ⟨tokens, gap.left, gap.right, fun t member => ?_⟩, ?_, ?_⟩
  · obtain ⟨c, -, piece⟩ := List.mem_map.mp (mem_of_mem_locate member)
    have blank : t.kind = .blank := (Lexeme.mk.inj piece).1.symm
    simp [isTrivia, blank]
  · rw [textOf, map_text_locate, spaces, List.map_map]
    rcases spaced with rfl | ⟨rfl, -⟩ <;> rfl
  · rw [List.map_cons, map_lexeme_locate, List.map_cons]
    rfl

end Respaced

/-! ## What counts -/

/-- The tokens but for white space, without their places. -/
def solids (ts : Tokens) : List (Lexeme TokenKind) := (ts.map Token.lexeme).filter (·.kind != .blank)

theorem solids_append (ts us : Tokens) : solids (ts ++ us) = solids ts ++ solids us := by
  simp [solids]

theorem solids_eq_nil : solids ts = [] ↔ ∀ t ∈ ts, t.kind = .blank := by
  simp [solids, Token.lexeme]

/-- **What counts of a stylesheet stays with another gap just if there was no comment in it.** -/
theorem solids_respaced (gap : Gap (tokenize cs origin) front left mid right back)
    (spaced : Admits right put) (line : (textOf mid).head? = some '\n' → ¬ LineEnded left) :
    solids (tokenize (textOf (front ++ [left]) ++ (put ++ textOf (right :: back))) origin) =
      solids (tokenize cs origin) ↔ ∀ t ∈ mid, t.kind = .blank := by
  have none_ : (spaces put).filter (·.kind != .blank) = [] := by simp [spaces]
  have located : ∀ p, solids (locate p (spaces put ++ (right :: back).map Token.lexeme)) =
      solids (right :: back) := by
    intro p
    rw [solids, map_lexeme_locate, List.filter_append, none_, List.nil_append, solids]
  rw [tokenize_respaced gap spaced line, solids_append _ (locate _ _), located, gap.around,
    solids_append (front ++ [left]), solids_append mid, List.append_cancel_left_eq,
    List.self_eq_append_left]
  exact solids_eq_nil

/-- Every character that is no white space counts. -/
theorem count_solids {c : Char} (solid : isBlank c = false) (cs : List Char) (origin : Position) :
    ((solids (tokenize cs origin)).flatMap Lexeme.text).count c = cs.count c := by
  have blank : ∀ t ∈ tokenize cs origin, t.kind = .blank → t.text.count c = 0 := by
    intro t member kind
    refine List.count_eq_zero.mpr fun inside => ?_
    have own := blanks_of_blank (mem_of_mem_locate member) kind c inside
    rw [solid] at own
    cases own
  conv_rhs => rw [← textOf_tokenize cs origin]
  generalize tokenize cs origin = ts at blank
  induction ts with
  | nil => rfl
  | cons t ts ih =>
      rw [List.forall_mem_cons] at blank
      have later := ih blank.2
      rw [solids] at later ⊢
      rw [textOf_cons, List.count_append, ← later, List.map_cons]
      by_cases kind : t.kind = .blank
      · rw [blank.1 kind, List.filter_cons_of_neg (by simp [Token.lexeme, kind]), Nat.zero_add]
      · rw [List.filter_cons_of_pos (by simp [Token.lexeme, kind]), List.flatMap_cons,
          List.count_append]
        rfl

end PageLint.Css
