/-
# PageLint.Proofs.Html.Revision — one token of a page written anew

A fix changes the text of one token. If the token then is still one, of the same kind, and the
lexer goes on behind it as before, all other tokens stay as they are and move along
(`Revision.tokens`): those behind it because they are cut from the same text in the same mode, those
in front of it because they look no further than `Mode.Alike` says. A `Carry` that follows the edit
then takes the page to the new one, tree and faults (`Revision.nodes`, `Revision.issues`).
-/
import PageLint.Proofs.Html.Attributes
import PageLint.Proofs.Html.Carry
import PageLint.Proofs.Html.Lookahead
import PageLint.Proofs.Text.Edit

namespace PageLint.Html

set_option autoImplicit false

open Text

variable {e : Edit} {f : Carry} {spot : Span} {text name raw : List Char} {p : Position}
  {t : Token TokenKind}

/-! ## What an edit leaves alone -/

/-- The places move as the edit says; at a spot the text is written anew, and elsewhere it is left as
it is; no attribute but that whose value is edited is quoted otherwise. -/
structure Carry.Follows (f : Carry) (e : Edit) (spot : Span) (text : List Char) : Prop where
  place : f.place = e.move
  content : ∀ s old, f.content s old = if s = spot then text else old
  quote : ∀ a : Attribute, a.valueSpan ≠ some e.span → f.quote a = a.quote
  mends : ∀ s, s ≠ e.span → f.mends s = false

/-- The page after a text was written anew: places move as the edit says. -/
def Carry.retexting (e : Edit) (spot : Span) (text : List Char) : Carry where
  place := e.move
  content s old := if s = spot then text else old
  quote a := a.quote
  mends _ := false

theorem Carry.follows_retexting (e : Edit) (spot : Span) (text : List Char) :
    (Carry.retexting e spot text).Follows e spot text where
  place := rfl
  content _ _ := rfl
  quote _ _ := rfl
  mends _ _ := rfl

namespace Carry.Follows

theorem span_covering (follows : f.Follows e spot text) (spares : e.Spares p raw) :
    f.span (.covering p raw) = .covering (f.place p) raw := by
  have moved : f.span (.covering p raw) = e.moveSpan (.covering p raw) := by
    rw [Carry.span, follows.place]
    rfl
  rw [moved, spares.moveSpan, follows.place]

theorem keeps (follows : f.Follows e spot text) (apart : t.span ≠ spot) : f.Keeps t := by
  rw [Keeps, follows.content, if_neg apart]

/-- A value that is left alone is read as it was. -/
theorem readValue (follows : f.Follows e spot text) (spares : e.Spares p raw) :
    Attribute.readValue name (f.place p) raw =
      ((Attribute.readValue name p raw).1, (Attribute.readValue name p raw).2.1,
        f.issues (Attribute.readValue name p raw).2.2) := by
  have left : f.mends (.covering p raw) = false :=
    follows.mends _ (spares.ne le_rfl le_rfl)
  have told : f.issues [⟨.unterminatedValue name, .covering p raw⟩] =
      [⟨.unterminatedValue name, .covering (f.place p) raw⟩] := by
    simp [Carry.issues, isMended, left, follows.span_covering spares]
  cases raw with
  | nil => rfl
  | cons q body =>
      simp only [Attribute.readValue]
      split
      · split
        · rfl
        · rw [told]
      · rfl

/-- **An attribute that is left alone is read as it was**, and moves along. -/
theorem reads (follows : f.Follows e spot text) (spares : e.Spares t.span.start t.text)
    (apart : t.span ≠ spot) : f.Reads t := by
  have said : (f.token t).text = t.text := follows.keeps apart
  have start : (f.token t).span.start = f.place t.span.start := rfl
  rw [Reads, Attribute.ofToken, Attribute.ofToken, said, start]
  generalize label : (t.text.takeWhile fun c => !(c == '=' || isBlank c)) = name
  obtain ⟨after, named⟩ : name <+: t.text := label ▸ List.takeWhile_prefix _
  have own := (named ▸ spares).left
  have nameSpan := (follows.span_covering own).symm
  have ends : trimStart (t.text.drop name.length) <:+ t.text :=
    (trimStart_suffix _).trans (List.drop_suffix _ _)
  dsimp only
  generalize trimStart (t.text.drop name.length) = rest at ends
  split
  next rest afterSign =>
    have ends' : trimStart afterSign <:+ t.text :=
      (trimStart_suffix _).trans ((List.suffix_cons _ _).trans ends)
    have whole := List.suffix_iff_eq_append.mp ends'
    generalize trimStart afterSign = raw at whole
    generalize t.text.take (t.text.length - raw.length) = front at whole
    have value := (whole ▸ spares).right
    have inner : f.place (t.span.start.after front) = (f.place t.span.start).after front := by
      rw [follows.place]
      exact (whole ▸ spares).left.move_after
    have unquoted : ∀ a : Attribute, a.valueSpan = some (.covering (t.span.start.after front) raw) →
        f.quote a = a.quote := by
      intro a same
      refine follows.quote a ?_
      rw [same]
      exact fun taken => value.ne le_rfl le_rfl (Option.some.inj taken)
    rw [← inner, follows.readValue value, nameSpan, ← follows.span_covering value]
    refine Prod.ext ?_ rfl
    rw [Carry.attr, unquoted _ rfl]
    rfl
  next =>
    have unquoted : ∀ a : Attribute, a.valueSpan = none → f.quote a = a.quote := by
      intro a none_
      exact follows.quote a (by simp [none_])
    rw [nameSpan]
    refine Prod.ext ?_ rfl
    rw [Carry.attr, unquoted _ rfl]
    rfl

end Carry.Follows

/-! ## Attributes stand in start tags -/

section Asides

variable {mode : Mode} {c : Char} {rest : List Char} {ts : List (Token TokenKind)}

theorem scan_ne_attr (text : mode.HoldsText) (outside : ¬ mode.InTag) :
    (scan mode c rest).kind ≠ .attr := by
  cases mode with
  | head =>
      rw [scan]
      split
      · simp
      · exact scanContent_ne_attr c rest
  | content => exact scanContent_ne_attr c rest
  | tag name => exact absurd trivial outside
  | raw name kind =>
      rw [scan]
      split
      · exact scanContent_ne_attr c rest
      · rcases text with rfl | rfl <;> simp

/-- The mode in which an attribute is cut off is that of a start tag. -/
theorem exists_tag_of_attr (text : mode.HoldsText) (attr : (scan mode c rest).kind = .attr) :
    ∃ name, mode = .tag name := by
  cases mode with
  | tag name => exact ⟨name, rfl⟩
  | _ => exact absurd attr (scan_ne_attr text id)

theorem Aside.ne_attr (aside : Aside (t :: ts)) : t.kind ≠ .attr := by
  obtain ⟨mode, lexed, first⟩ := aside
  by_cases inTag : mode.InTag
  · intro attr
    have part := first inTag t rfl
    simp [isTagPart, attr] at part
  · obtain ⟨c, rest, kind, -, -⟩ := lexed.step
    rw [kind]
    exact scan_ne_attr lexed.1 inTag

/-- A token that is a piece by itself is read outside start tags. -/
theorem Aside.single (aside : Aside ts) (member : .single t ∈ Markup.ofTokens ts) :
    ∃ more, Aside (t :: more) := by
  fun_induction Markup.ofTokens ts with
  | case1 => cases member
  | case2 u ts opens parts ended => simp at member
  | case3 u ts opens parts e rest left closes ih =>
      obtain ⟨mode, lexed, -⟩ := aside
      obtain ⟨next, tail⟩ := lexed.tail
      have after := tail.aside_dropWhile
      rw [left] at after
      have ending : e.kind ≠ .tagOpen := by
        intro opens
        simp [isTagEnd, opens] at closes
      exact ih (after.tail ending) (by simpa using member)
  | case4 u ts opens parts e rest left other ih =>
      obtain ⟨mode, lexed, -⟩ := aside
      obtain ⟨next, tail⟩ := lexed.tail
      have after := tail.aside_dropWhile
      rw [left] at after
      exact ih after (by simpa using member)
  | case5 u ts other ih =>
      rcases List.mem_cons.mp member with here | later
      · cases here
        exact ⟨ts, aside⟩
      · exact ih (aside.tail other) later

end Asides

/-! ## One token written anew -/

/-- One token of a page is written anew: of its text, which goes from `left` to `right`, the middle is
edited, and the lexer cuts the new text as it cuts the old one. -/
structure Revision (e : Edit) where
  front : List (Lexeme TokenKind)
  kind : TokenKind
  left : List Char
  right : List Char
  back : List (Lexeme TokenKind)
  before : e.before = (front.map Lexeme.text).flatten ++ left
  old : lexemes e.old = front ++ ⟨kind, left ++ (e.cut ++ right)⟩ :: back
  new : lexemes e.new = front ++ ⟨kind, left ++ (e.put ++ right)⟩ :: back

namespace Revision

variable (r : Revision e)

/-- Where the token begins. -/
def start : Position := Position.start.after (r.front.map Lexeme.text).flatten

/-- The token as it was. -/
def token : Token TokenKind :=
  ⟨r.kind, left r ++ (e.cut ++ right r), .covering r.start (r.left ++ (e.cut ++ r.right))⟩

/-- What the token says afterwards. -/
def written : List Char := r.left ++ (e.put ++ r.right)

theorem start_after : r.start.after r.left = e.start := by
  rw [start, ← Position.after_append, ← r.before]
  rfl

theorem token_finish : r.token.span.finish = e.span.finish.after r.right := by
  rw [token, Span.covering_finish, Position.after_append, start_after, Position.after_append]
  rfl

theorem tokenize_old : tokenize e.old =
    locate .start r.front ++ r.token :: locate (e.span.finish.after r.right) r.back := by
  rw [tokenize, r.old, locate_append, locate, ← token_finish]
  rfl

theorem tokenize_new : tokenize e.new = locate .start r.front ++
    ⟨r.kind, r.written, .covering r.start r.written⟩ ::
      locate (e.finish.after r.right) r.back := by
  have finish : r.start.after r.written = e.finish.after r.right := by
    rw [written, Position.after_append, start_after, Position.after_append]
    rfl
  rw [tokenize, r.new, locate_append, locate, ← finish]
  rfl

/-- A stretch that is left alone is not that of the token. -/
theorem span_ne (span : t.span = .covering t.span.start t.text)
    (spares : e.Spares t.span.start t.text) : t.span ≠ r.token.span := by
  rw [span]
  refine spares.ne ?_ ?_
  · rw [← r.start_after, Position.offset_after]
    exact Nat.le_add_right _ _
  · rw [r.token_finish, Position.offset_after]
    exact Nat.le_add_right _ _

/-- The tokens in front are left alone. -/
theorem spares_front : ∀ t ∈ locate .start r.front,
    e.Spares t.span.start t.text ∧ t.span ≠ r.token.span := by
  intro t member
  have stands : e.Spares (Position.start.after []) (r.front.map Lexeme.text).flatten :=
    .front (r.before ▸ List.prefix_append _ _)
  obtain ⟨span, spares⟩ := e.spares_locate stands t member
  exact ⟨spares, r.span_ne span spares⟩

/-- The tokens behind are left alone. -/
theorem spares_back : ∀ t ∈ locate (e.span.finish.after r.right) r.back,
    e.Spares t.span.start t.text ∧ t.span ≠ r.token.span := by
  intro t member
  obtain ⟨span, spares⟩ := e.spares_locate (.behind r.right _) t member
  exact ⟨spares, r.span_ne span spares⟩

theorem spares_other (member : t ∈ tokenize e.old) (other : t ≠ r.token) :
    e.Spares t.span.start t.text ∧ t.span ≠ r.token.span := by
  rw [r.tokenize_old, List.mem_append, List.mem_cons] at member
  rcases member with front | here | back
  · exact r.spares_front t front
  · exact absurd here other
  · exact r.spares_back t back

variable {r}

/-- **All tokens of the page go where the edit takes them.** -/
theorem tokens (follows : f.Follows e r.token.span r.written) :
    tokenize e.new = (tokenize e.old).map f.token := by
  have each : ∀ ts : List (Token TokenKind), (∀ t ∈ ts, t.span ≠ r.token.span) →
      ts.map f.token = ts.map e.moveToken := by
    intro ts apart
    refine List.map_congr_left fun t member => ?_
    rw [Carry.token, follows.keeps (apart t member), Carry.span, follows.place]
    rfl
  have start : e.move r.start = r.start := by
    refine Edit.move_before ?_
    rw [r.before]
    exact List.prefix_append _ _
  have finish : r.start.after r.written = e.finish.after r.right := by
    rw [written, Position.after_append, start_after, Position.after_append]
    rfl
  have own : f.token r.token = ⟨r.kind, r.written, .covering r.start r.written⟩ := by
    rw [Carry.token, follows.content, if_pos rfl, Carry.span, follows.place, r.token_finish,
      e.move_after, ← finish]
    exact congrArg (fun p => (⟨_, _, p, _⟩ : Token TokenKind)) start
  have passed : [] ++ (r.front.map Lexeme.text).flatten <+: e.before :=
    r.before ▸ List.prefix_append _ _
  have front := e.locate_before passed
  rw [r.tokenize_old, r.tokenize_new, List.map_append, List.map_cons, own,
    each _ fun t member => (r.spares_front t member).2,
    each _ fun t member => (r.spares_back t member).2, e.locate_after]
  exact congrArg (· ++ _) front.symm

/-- **Each piece of the page is carried over**, if what is written anew is a text between tags, or an
attribute that is read as the edit says. -/
theorem fits (follows : f.Follows e r.token.span r.written)
    (own : r.kind = .text ∨ r.kind = .attr ∧ f.Reads r.token) :
    ∀ piece ∈ Markup.ofTokens (tokenize e.old), f.Fits piece := by
  intro piece isPiece
  have within : ∀ t ∈ piece.tokens, t ∈ tokenize e.old := (Markup.tokens_sublist isPiece).subset
  have kinds : ∀ t : Token TokenKind, t.kind ≠ .text → t.kind ≠ .attr → t ≠ r.token := by
    rintro t text attr rfl
    exact own.elim text fun isAttr => attr isAttr.1
  have formed := formed_tokenize e.old piece isPiece
  cases piece with
  | tag head parts close =>
      obtain ⟨opens, opening, inside, -⟩ := formed
      have other : head ≠ r.token := kinds head (by simp [opens]) (by simp [opens])
      obtain ⟨spares, apart⟩ := r.spares_other (within head (by simp [Markup.tokens])) other
      refine ⟨follows.keeps apart, ?_, fun t part notAttr => ?_, fun t part attr => ?_⟩
      · obtain ⟨name, text⟩ := opening opens
        rw [text, ← List.singleton_append] at spares
        rw [follows.place]
        exact spares.left.move_after
      · have isPart := isTagPart_iff.mp (inside t part)
        have other : t ≠ r.token := kinds t (by rintro text; simp [text] at isPart) notAttr
        exact follows.keeps (r.spares_other (within t (by simp [Markup.tokens, part])) other).2
      · by_cases here : t = r.token
        · subst here
          refine own.elim (fun text => ?_) And.right
          exact absurd (attr.symm.trans text) (by simp)
        · obtain ⟨spares, apart⟩ := r.spares_other (within t (by simp [Markup.tokens, part])) here
          exact follows.reads spares apart
  | single t =>
      intro text
      obtain ⟨more, aside⟩ := ((lexed_tokenize e.old).aside id).single isPiece
      have other : t ≠ r.token := kinds t text aside.ne_attr
      exact follows.keeps (r.spares_other (within t (by simp [Markup.tokens])) other).2

/-- **The page goes where the edit takes it**: its tokens, its nodes and its faults. -/
theorem page (follows : f.Follows e r.token.span r.written)
    (own : r.kind = .text ∨ r.kind = .attr ∧ f.Reads r.token) :
    (Page.ofText e.new).tokens = (Page.ofText e.old).tokens.map f.token ∧
      (Page.ofText e.new).nodes = f.nodes (Page.ofText e.old).nodes ∧
      (Page.ofText e.new).issues = f.issues (Page.ofText e.old).issues := by
  have same := tokens follows
  have built := Carry.buildTree_token (fits follows own) (some depthCap)
  simp only [Page.ofText, same, built]
  exact ⟨trivial, trivial, trivial⟩

/-- The tokens that are not written anew stay as they are. -/
theorem token_still {f : Carry} (follows : f.Follows e r.token.span r.written)
    (still : e.finish = e.span.finish ∨ e.after = []) (member : t ∈ tokenize e.old)
    (other : t ≠ r.token) : f.token t = t := by
  obtain ⟨spares, apart⟩ := r.spares_other member other
  have shown := (Page.reads_tokens e.old).shows t member
  have within := offset_lt_of_mem_tokenize e.old t member
  have last := shown.covers.finish.offset_le
  have inside : t.span.start.offset < bytes e.old := by
    simp only [Passage.whole, Position.start] at last
    omega
  have span : t.span = .covering t.span.start t.text := congrArg (Span.mk _) shown.2
  have moved : f.span t.span = t.span := by
    rw [Carry.span, follows.place]
    conv_rhs => rw [span, ← Edit.moveSpan_still still spares inside, ← span]
    rfl
  rw [Carry.token, follows.keeps apart, moved]

end Revision

/-! ## How a token comes to be written anew -/

/-- **A token where it is cut off**: what stands before it, the mode in which it is read, what follows
it, and the mode which it leaves. -/
theorem token_cut {cs : List Char} (member : t ∈ tokenize cs) :
    ∃ front x c tail rest mode next, t.text = c :: tail ∧
      t.span = .covering (Position.start.after x) (c :: tail) ∧ cs = x ++ (c :: tail ++ rest) ∧
      mode.Proper ∧ Cuts (c :: tail ++ rest) .head x front mode ∧
      scan mode c (tail ++ rest) = ⟨t.kind, tail.length, next⟩ := by
  obtain ⟨before, later, split⟩ := List.append_of_mem member
  have pieces : lexemes cs = (tokenize cs).map fun u => ⟨u.kind, u.text⟩ :=
    (map_lexeme_locate .start (lexemes cs)).symm
  rw [split, List.map_append, List.map_cons] at pieces
  obtain ⟨x, c, tail, rest, mode, next, text, whole, proper, cuts, scanned, -⟩ :=
    cuts_of_piece (show Mode.head.Proper from trivial) pieces
  obtain ⟨-, -, -, -, -, -, -, span, -⟩ := locate_cut_split (s := Mode.head) (I := Mode.HoldsText)
    (fun mode c rest _ => scan_holdsText mode c rest) trivial split
  have front : textOf before = x := by
    rw [← cuts.texts, List.map_map]
    rfl
  have said : t.text = c :: tail := text
  rw [front, said] at span
  exact ⟨_, x, c, tail, rest, mode, next, text, span, whole, proper, cuts, scanned⟩

variable {x left cut right put rest tail more : List Char} {c d : Char} {mode next : Mode}
  {kind : TokenKind} {front : List (Lexeme TokenKind)}

/-- **A token may be written anew** where the new text is one token of the same kind, what stands
before it sees no difference, and the lexer goes on as before. -/
theorem exists_revision (cuts : Cuts (c :: tail ++ rest) .head x front mode)
    (scanned : scan mode c (tail ++ rest) = ⟨kind, tail.length, next⟩)
    (old : c :: tail = left ++ (cut ++ right)) (new : d :: more = left ++ (put ++ right))
    (scanned' : scan mode d (more ++ rest) = ⟨kind, more.length, next⟩)
    (alike : mode.Alike (c :: tail ++ rest) (d :: more ++ rest)) (some_ : cut ≠ []) :
    ∃ r : Revision ⟨x ++ left, cut, put, right ++ rest, some_⟩,
      r.token = ⟨kind, c :: tail, .covering (Position.start.after x) (c :: tail)⟩ ∧
        r.left = left ∧ r.right = right := by
  have texts := cuts.texts
  have cuts' := cuts.alike trivial alike
  refine ⟨⟨front, kind, left, right, PageLint.cut scan next rest, by rw [texts], ?_, ?_⟩, ?_, rfl,
    rfl⟩
  · have whole : Edit.old ⟨x ++ left, cut, put, right ++ rest, some_⟩ =
        x ++ (c :: tail ++ rest) := by
      simp [Edit.old, old]
    rw [whole, lexemes, cuts.cut, cut_of_scan scanned, old]
  · have whole : Edit.new ⟨x ++ left, cut, put, right ++ rest, some_⟩ =
        x ++ (d :: more ++ rest) := by
      simp [Edit.new, new]
    rw [whole, lexemes, cuts'.cut, cut_of_scan scanned', new]
  · show (⟨kind, left ++ (cut ++ right), .covering (Position.start.after (front.map
      Lexeme.text).flatten) (left ++ (cut ++ right))⟩ : Token TokenKind) = _
    rw [texts, old]

end PageLint.Html
