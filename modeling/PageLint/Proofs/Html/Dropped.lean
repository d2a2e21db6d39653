/-
# PageLint.Proofs.Html.Dropped — an attribute taken out of its tag

An attribute can be taken out of a page if white space stands before it and no `=` follows. Then the
white space on both sides of it comes to be one piece, and all other pieces are cut as before
(`exists_dropping`): those behind it because they are cut from the same text in the same mode, those in
front of it because they see white space as before, and no `=` behind that. So the page has the tree
that it had, moved along, in which the one attribute is missing from its start tag (`Dropping.nodes`).
Without white space before it more may change: a `/` in front of it may come to end the tag, and a name
in front of it may come to have a value.
-/
import PageLint.Proofs.Html.Omission
import PageLint.Proofs.Html.Retag
import PageLint.Proofs.Html.Revision

namespace PageLint.Html

set_option autoImplicit false

open Text

/-! ## White space in a start tag -/

section Blanks

variable {c : Char} {w : List Char}

theorem scan_blank (blank : isBlank c) (n rest : List Char) :
    scan (.tag n) c rest = ⟨.blank, extentWhile isBlank rest, .tag n⟩ := by
  have inside : c ≠ '<' := (ne_signs_of_isBlank blank).1
  rw [scan, if_neg inside, scanTag, if_pos blank]

theorem isBlank_of_scan {n rest : List Char} (blank : (scan (.tag n) c rest).kind = .blank) :
    isBlank c := by
  by_contra solid
  rw [scan] at blank
  split at blank
  · exact scanContent_ne_blank c rest blank
  · simp only [scanTag, if_neg solid] at blank
    repeat' split at blank
    all_goals cases blank

/-- White space is one piece with the white space behind it. -/
theorem cut_blanks (blank : ∀ d ∈ w, isBlank d) (some_ : w ≠ []) (n rest : List Char) :
    cut scan (.tag n) (w ++ rest) =
      ⟨.blank, w ++ rest.takeWhile isBlank⟩ :: cut scan (.tag n) (trimStart rest) := by
  obtain ⟨c, tail, rfl⟩ := List.exists_cons_of_ne_nil some_
  obtain ⟨first, others⟩ := List.forall_mem_cons.mp blank
  have all : ∀ d ∈ tail ++ rest.takeWhile isBlank, isBlank d :=
    List.forall_mem_append.mpr ⟨others, fun d member => List.mem_takeWhile_imp member⟩
  have scanned : scan (.tag n) c (tail ++ rest.takeWhile isBlank ++ trimStart rest) =
      ⟨.blank, (tail ++ rest.takeWhile isBlank).length, .tag n⟩ := by
    rw [scan_blank first, extentWhile_append_stop all (head_trimStart rest)]
  have parted : rest = rest.takeWhile isBlank ++ trimStart rest :=
    List.takeWhile_append_dropWhile.symm
  conv_lhs => rw [parted, List.cons_append, ← List.append_assoc]
  exact cut_of_scan scanned

/-- White space before a text, if there is any, is a piece by itself. -/
theorem cut_trimStart (n rest : List Char) : ∃ gap,
    cut scan (.tag n) rest = gap ++ cut scan (.tag n) (trimStart rest) ∧
      (gap.map Lexeme.text).flatten = rest.takeWhile isBlank ∧
        ∀ piece ∈ gap, piece.kind = .blank := by
  have parted : rest.takeWhile isBlank ++ trimStart rest = rest := List.takeWhile_append_dropWhile
  by_cases none_ : rest.takeWhile isBlank = []
  · rw [none_, List.nil_append] at parted
    exact ⟨[], by rw [parted]; rfl, none_.symm, by simp⟩
  · have space : ∀ d ∈ rest.takeWhile isBlank, isBlank d := fun d member => List.mem_takeWhile_imp member
    have whole := cut_blanks space none_ n (trimStart rest)
    have stops := head_trimStart rest
    have still : trimStart (trimStart rest) = trimStart rest := dropWhile_of_stops stops
    have bare : (trimStart rest).takeWhile isBlank = [] :=
      takeWhile_append_stop (List.forall_mem_nil _) stops
    rw [parted, still, bare, List.append_nil] at whole
    exact ⟨[⟨.blank, rest.takeWhile isBlank⟩], whole, by simp, by simp⟩

end Blanks

/-! ## An attribute taken out -/

/-- White space stands before the attribute at a stretch, and no `=` follows it. -/
def StandsFree (cs : List Char) (s : Span) : Prop :=
  ∃ front w t back, tokenize cs = front ++ w :: t :: back ∧ w.kind = .blank ∧ t.kind = .attr ∧
    t.span = s ∧ (trimStart (textOf back)).head? ≠ some '='

/-- An edit takes an attribute out of a start tag. White space stands before it, and comes to be one
piece with the white space behind it. -/
structure Dropping (e : Edit) where
  front : List (Lexeme TokenKind)
  margin : List Char
  gap : List (Lexeme TokenKind)
  back : List (Lexeme TokenKind)
  opening : ∃ init head parts, front = init ++ head :: parts ∧ head.kind = .tagOpen ∧
    ∀ piece ∈ parts, piece.kind ∈ [TokenKind.blank, .attr, .unknown]
  some_ : margin ≠ []
  blank : ∀ piece ∈ gap, piece.kind = .blank
  put : e.put = []
  before : e.before = (front.map Lexeme.text).flatten ++ margin
  old : lexemes e.old = front ++ ⟨.blank, margin⟩ :: ⟨.attr, e.cut⟩ :: (gap ++ back)
  new : lexemes e.new = front ++ ⟨.blank, margin ++ (gap.map Lexeme.text).flatten⟩ :: back

variable {cs : List Char} {s : Span}

/-- White space before an attribute is cut off inside a start tag, and so is the attribute, and the
lexer is still there behind it. -/
theorem cuts_of_free {margin own : List Char} {front back : List (Lexeme TokenKind)}
    (pieces : lexemes cs = front ++ ⟨.blank, margin⟩ :: ⟨.attr, own⟩ :: back) : ∃ x after n,
      cs = x ++ (margin ++ (own ++ after)) ∧ margin ≠ [] ∧ own ≠ [] ∧ (∀ d ∈ margin, isBlank d) ∧
        Cuts (margin ++ (own ++ after)) .head x front (.tag n) ∧
          cut scan (.tag n) after = back := by
  obtain ⟨x, c, tail, rest, mode, next, rfl, rfl, proper, cuts, scanned, left⟩ :=
    cuts_of_piece (show Mode.head.Proper from trivial) pieces
  obtain ⟨n, rfl⟩ : ∃ n, mode = .tag n := by
    cases mode with
    | tag n => exact ⟨n, rfl⟩
    | _ => exact absurd (congrArg Scan.kind scanned) (scan_ne_blank proper.holdsText id)
  have space := isBlank_of_scan (congrArg Scan.kind scanned)
  rw [scan_blank space] at scanned
  obtain ⟨-, length, rfl⟩ := Scan.mk.inj scanned
  have blanks : ∀ d ∈ c :: tail, isBlank d :=
    List.forall_mem_cons.mpr ⟨space, (extentWhile_eq_length length).1⟩
  replace left : cut scan (.tag n) rest = [] ++ ⟨.attr, own⟩ :: back := left
  obtain ⟨x', d, label, after, last, next, rfl, rfl, -, none_, scanned', left'⟩ :=
    cuts_of_piece proper left
  cases none_
  have letter := (scan_attr proper.holdsText (congrArg Scan.kind scanned')).1
  obtain rfl : next = .tag n := by
    rw [scan_label letter] at scanned'
    exact (Scan.mk.inj scanned').2.2.symm
  exact ⟨x, after, n, rfl, List.cons_ne_nil c tail, List.cons_ne_nil d label, blanks, cuts, left'⟩

/-- **An attribute that stands free can be taken out.** -/
theorem exists_dropping (free : StandsFree cs s) :
    ∃ (e : Edit) (_ : Dropping e), e.old = cs ∧ e.span = s := by
  obtain ⟨front, ⟨_, margin, place⟩, ⟨_, own, _⟩, back, split, rfl, rfl, rfl, bare⟩ := free
  obtain ⟨pieces, -, places⟩ := locate_split split
  obtain ⟨x, after, n, rfl, some_, some_', blanks, cuts, left⟩ := cuts_of_free pieces
  obtain ⟨gap, whole, spaces, inGap⟩ := cut_trimStart n after
  have behind : textOf back = after := by rw [← texts_lexemes, ← left, texts_cut]
  rw [behind] at bare
  have skipped : trimStart (margin ++ after) = trimStart after := trimStart_blanks blanks after
  have alike : (Mode.tag n).Alike (margin ++ (own ++ after)) (margin ++ after) := by
    refine ⟨?_, ?_, fun _ => assignmentExtent_of_bare (skipped ▸ bare)⟩
    · simp [some_]
    · rw [List.head?_append_of_ne_nil _ some_, List.head?_append_of_ne_nil _ some_]
  have new := (cuts.alike trivial alike).cut
  rw [cut_blanks blanks some_, ← spaces] at new
  refine ⟨⟨x ++ margin, own, [], after, some_'⟩,
    { front := front.map Token.lexeme, margin, gap, back := cut scan (.tag n) (trimStart after)
      opening := cuts.opening trivial, some_, blank := inGap, put := rfl
      before := by rw [cuts.texts], old := ?_, new := ?_ }, ?_, ?_⟩
  · rw [← whole, left]
    simpa [Edit.old, Token.lexeme] using pieces
  · simpa [lexemes, Edit.new] using new
  · simp [Edit.old]
  · rw [← texts_lexemes, cuts.texts] at places
    obtain ⟨-, later⟩ := List.cons.inj places
    obtain ⟨place, -⟩ := List.cons.inj later
    rw [← congrArg Token.span place, Edit.span, Edit.start, Position.after_append]
    rfl

/-! ## The start tag without it -/

section Tags

variable {head : Token TokenKind} {inside inside' more : List (Token TokenKind)}
  {close : Option (Token TokenKind)}

theorem Retag.tag_dropping_of_apart {tag : StartTag} (apart : ∀ a ∈ tag.attributes, a.span ≠ s) :
    (Retag.dropping s).tag tag = tag := by
  have all : tag.attributes.filter (·.span != s) = tag.attributes :=
    List.filter_eq_self.mpr fun a member => bne_iff_ne.mpr (apart a member)
  exact congrArg (fun attributes => { tag with attributes }) all

theorem attributes_ofTokens (head : Token TokenKind) (parts : List (Token TokenKind))
    (close : Option (Token TokenKind)) : (StartTag.ofTokens head parts close).1.attributes =
      (parts.filter (·.kind == .attr)).map fun t => (Attribute.ofToken t).1 :=
  (readParts_attributes _ parts).1

/-- A start tag is read off its first token, its attributes and its last token. -/
theorem tag_ofTokens (head : Token TokenKind) (parts : List (Token TokenKind))
    (close : Option (Token TokenKind)) : (StartTag.ofTokens head parts close).1 =
      ⟨head.text.drop 1, ⟨head.span.start.next '<', head.span.finish⟩,
        (parts.filter (·.kind == .attr)).map fun t => (Attribute.ofToken t).1,
        close.any (·.kind == .selfClosingTagEnd), close.map Token.span,
        ⟨head.span.start, ((parts ++ close.toList).getLast?.getD head).span.finish⟩⟩ := by
  rw [← span_ofTokens, ← attributes_ofTokens head parts close]
  rfl

/-- A piece that does not hold the attribute is left as it is. -/
theorem Retag.fits_dropping_self {piece : Markup} (apart : ∀ t ∈ piece.tokens, t.span ≠ s) :
    (Retag.dropping s).Fits piece piece := by
  cases piece with
  | single t => exact .single t
  | tag head parts close =>
      refine .tag (Retag.tag_dropping_of_apart fun a member => ?_).symm
      rw [attributes_ofTokens] at member
      obtain ⟨t, attr, rfl⟩ := List.mem_map.mp member
      rw [span_ofToken]
      exact apart t (by simp [Markup.tokens, List.mem_of_mem_filter attr])

/-- A start tag of which the attribute is taken out, and that ends where it did. -/
theorem Retag.fits_dropping (attributes : inside'.filter (·.kind == .attr) =
      (inside.filter (·.kind == .attr)).filter (·.span != s))
    (last : inside'.getLast?.map (·.span.finish) = inside.getLast?.map (·.span.finish))
    (apart : ∀ t ∈ more, t.span ≠ s) :
    (Retag.dropping s).Fits (.tag head (inside ++ more) close) (.tag head (inside' ++ more) close) := by
  have ends : ((inside' ++ more ++ close.toList).getLast?.getD head).span.finish =
      ((inside ++ more ++ close.toList).getLast?.getD head).span.finish := by
    have parted : ∀ ts, (ts ++ more ++ close.toList).getLast? =
        (more ++ close.toList).getLast?.or ts.getLast? := fun ts => by
      rw [List.append_assoc, List.getLast?_append]
    rw [parted, parted]
    cases (more ++ close.toList).getLast? with
    | some t => rfl
    | none =>
        have both := congrArg (Option.getD · head.span.finish) last
        simpa using both
  have left : ((inside' ++ more).filter (·.kind == .attr)).map (fun t => (Attribute.ofToken t).1) =
      (((inside ++ more).filter (·.kind == .attr)).map fun t => (Attribute.ofToken t).1).filter
        (·.span != s) := by
    have kept : (more.filter (·.kind == .attr)).filter (·.span != s) = more.filter (·.kind == .attr) :=
      List.filter_eq_self.mpr fun t member => bne_iff_ne.mpr (apart t (List.mem_of_mem_filter member))
    have spans : ((fun a : Attribute => a.span != s) ∘ fun t => (Attribute.ofToken t).1) =
        fun t : Token TokenKind => t.span != s := funext fun t => by simp [span_ofToken]
    rw [List.filter_map, spans, List.filter_append, List.filter_append, List.filter_append, attributes,
      kept]
  refine .tag ?_
  rw [tag_ofTokens, tag_ofTokens, left, ends]
  rfl

/-- **Only the start tag changes**, if no other token has the place of the attribute. -/
theorem Retag.fits_ofTokens {init : List (Token TokenKind)} (opens : head.kind = .tagOpen)
    (parts : ∀ t ∈ inside, isTagPart t) (parts' : ∀ t ∈ inside', isTagPart t)
    (attributes : inside'.filter (·.kind == .attr) =
      (inside.filter (·.kind == .attr)).filter (·.span != s))
    (last : inside'.getLast?.map (·.span.finish) = inside.getLast?.map (·.span.finish))
    (apart : ∀ t ∈ init ++ more, t.span ≠ s) :
    List.Forall₂ (Retag.dropping s).Fits (Markup.ofTokens (init ++ head :: (inside ++ more)))
      (Markup.ofTokens (init ++ head :: (inside' ++ more))) := by
  have single : ∀ ts : List (Token TokenKind), (∀ t ∈ ts, t.span ≠ s) →
      List.Forall₂ (Retag.dropping s).Fits (Markup.ofTokens ts) (Markup.ofTokens ts) := by
    intro ts other
    exact List.forall₂_same.mpr fun piece member => fits_dropping_self fun t inPiece =>
      other t ((Markup.tokens_sublist member).subset inPiece)
  have begins : ∀ ts : List (Token TokenKind), ∀ t ∈ (head :: ts).head?,
      isTagPart t = false ∧ isTagEnd t = false := by
    rintro ts t ⟨⟩
    simp [isTagPart, isTagEnd, opens]
  obtain ⟨before, behind⟩ := List.forall_mem_append.mp apart
  rw [Markup.ofTokens_append (begins _), Markup.ofTokens_append (begins _)]
  refine List.rel_append (single init before) ?_
  obtain ⟨ps, rest, rfl, within, stops⟩ : ∃ ps rest, more = ps ++ rest ∧ (∀ t ∈ ps, isTagPart t) ∧
      ∀ t ∈ rest.head?, isTagPart t = false := by
    refine ⟨more.takeWhile isTagPart, more.dropWhile isTagPart,
      List.takeWhile_append_dropWhile.symm, fun t member => List.mem_takeWhile_imp member,
      fun t first => ?_⟩
    have stops := List.head?_dropWhile_not isTagPart more
    rwa [Option.mem_def.mp first] at stops
  obtain ⟨inTag, after⟩ := List.forall_mem_append.mp behind
  rw [← List.append_assoc, ← List.append_assoc,
    Markup.ofTokens_group opens (List.forall_mem_append.mpr ⟨parts, within⟩) stops,
    Markup.ofTokens_group opens (List.forall_mem_append.mpr ⟨parts', within⟩) stops]
  refine .cons (fits_dropping attributes last inTag) (single _ fun t member => after t ?_)
  split at member
  · exact List.mem_of_mem_tail member
  · exact member

end Tags

/-! ## The page without it -/

/-- Tokens that stand behind one another end where their text does. -/
theorem finish_locate (t : Token TokenKind) (pieces : List (Lexeme TokenKind)) :
    (t :: locate t.span.finish pieces).getLast?.map (·.span.finish) =
      some (t.span.finish.after (pieces.map Lexeme.text).flatten) := by
  induction pieces generalizing t with
  | nil => rfl
  | cons piece pieces ih =>
      have later := ih ⟨piece.kind, piece.text, .covering t.span.finish piece.text⟩
      rw [locate, List.getLast?_cons_cons, List.map_cons, List.flatten_cons, Position.after_append]
      exact later

namespace Dropping

variable {e : Edit} (d : Dropping e)

/-- The white space behind the attribute. -/
def space : List Char := (d.gap.map Lexeme.text).flatten

/-- Where the white space before it begins. -/
def start : Position := Position.start.after (d.front.map Lexeme.text).flatten

/-- The white space before the attribute. -/
def white : Token TokenKind := ⟨.blank, d.margin, .covering d.start d.margin⟩

/-- The attribute. -/
def token (_ : Dropping e) : Token TokenKind := ⟨.attr, e.cut, e.span⟩

/-- The white space on both sides of the attribute, with its place. -/
def joined : Token TokenKind :=
  ⟨.blank, d.margin ++ d.space, ⟨d.start, e.span.finish.after d.space⟩⟩

/-- The tokens that come after that. -/
def later : List (Token TokenKind) := locate (e.span.finish.after d.space) d.back

/-- The tokens that are left, where they were. -/
def kept : List (Token TokenKind) := locate .start d.front ++ d.joined :: d.later

theorem start_after : d.start.after d.margin = e.start := by
  rw [start, ← Position.after_append, ← d.before]
  rfl

theorem tokenize_old : tokenize e.old =
    locate .start d.front ++ d.white :: d.token :: (locate e.span.finish d.gap ++ d.later) := by
  have place : (Position.start.after (d.front.flatMap Lexeme.text)).after d.margin = e.start :=
    d.start_after
  rw [tokenize, d.old, locate_append, locate, locate, locate_append]
  dsimp only
  rw [place]
  rfl

theorem tokenize_new : tokenize e.new = d.kept.map e.moveToken := by
  have still : e.move d.start = d.start := by
    refine Edit.move_before ?_
    rw [d.before]
    exact List.prefix_append _ _
  have finish : d.start.after (d.margin ++ d.space) = e.finish.after d.space := by
    have here : e.finish = e.start := congrArg e.start.after d.put
    rw [Position.after_append, here, d.start_after]
  have passed : [] ++ (d.front.map Lexeme.text).flatten <+: e.before :=
    d.before ▸ List.prefix_append _ _
  have front : (locate .start d.front).map e.moveToken = locate .start d.front :=
    e.locate_before passed
  have joined : e.moveToken d.joined =
      ⟨.blank, d.margin ++ d.space, .covering d.start (d.margin ++ d.space)⟩ := by
    have span : e.moveSpan d.joined.span = .covering d.start (d.margin ++ d.space) := by
      rw [Edit.moveSpan, Span.covering, finish, ← e.move_after d.space]
      exact congrArg (Span.mk · _) still
    exact congrArg (Token.mk _ _) span
  rw [kept, List.map_append, List.map_cons, later, e.locate_after, front, joined, tokenize, d.new,
    locate_append, locate, ← finish]
  rfl

/-! ### Where the tokens stand -/

/-- What is left of the page but the white space is left alone by the edit. -/
theorem spares : ∀ t ∈ locate .start d.front ++ d.later,
    t.span = .covering t.span.start t.text ∧ e.Spares t.span.start t.text := by
  have before : e.Spares (Position.start.after []) (d.front.map Lexeme.text).flatten :=
    .front (d.before ▸ List.prefix_append _ _)
  exact List.forall_mem_append.mpr
    ⟨e.spares_locate before, e.spares_locate (.behind d.space _)⟩

theorem span_ne : ∀ t ∈ locate .start d.front ++ d.later, t.span ≠ e.span := by
  intro t member
  obtain ⟨span, spares⟩ := d.spares t member
  rw [span]
  exact spares.ne le_rfl le_rfl

theorem span_joined_ne : d.joined.span ≠ e.span := by
  have ahead := bytes_pos d.some_
  intro same
  have start : d.start = e.start := congrArg Span.start same
  have place := congrArg Position.offset d.start_after
  rw [start, Position.offset_after] at place
  omega

theorem mem_kept {t : Token TokenKind} :
    t ∈ d.kept ↔ t = d.joined ∨ t ∈ locate .start d.front ++ d.later := by
  rw [kept, List.mem_append, List.mem_cons, List.mem_append]
  exact or_left_comm

theorem span_ne_kept : ∀ t ∈ d.kept, t.span ≠ e.span := by
  intro t member
  rcases d.mem_kept.mp member with rfl | other
  · exact d.span_joined_ne
  · exact d.span_ne t other

/-- The tokens in front end with the start tag so far. -/
theorem exists_opening : ∃ init head parts, locate .start d.front = init ++ head :: parts ∧
    head.kind = .tagOpen ∧ ∀ t ∈ parts, isTagPart t := by
  obtain ⟨init, head, parts, front, opens, inside⟩ := d.opening
  refine ⟨_, ⟨head.kind, head.text, _⟩, _, by rw [front, locate_append]; rfl, opens, fun t part => ?_⟩
  exact isTagPart_iff.mpr (inside _ (mem_of_mem_locate part))

/-- **The tokens that are left make the start tag without the attribute**, and all else as it was. -/
theorem fits_old : List.Forall₂ (Retag.dropping e.span).Fits (Markup.ofTokens (tokenize e.old))
    (Markup.ofTokens d.kept) := by
  obtain ⟨init, head, parts, front, opens, inside⟩ := d.exists_opening
  have others := d.span_ne
  rw [front] at others
  have gap : ∀ t ∈ locate e.span.finish d.gap, t.kind = .blank := fun t member =>
    d.blank _ (mem_of_mem_locate member)
  have old : tokenize e.old = init ++ head ::
      ((parts ++ d.white :: d.token :: locate e.span.finish d.gap) ++ d.later) := by
    rw [d.tokenize_old, front]
    simp
  have kept : d.kept = init ++ head :: ((parts ++ [d.joined]) ++ d.later) := by
    rw [kept, front]
    simp
  rw [old, kept]
  refine Retag.fits_ofTokens opens ?_ ?_ ?_ ?_ ?_
  · refine List.forall_mem_append.mpr ⟨inside, ?_⟩
    refine List.forall_mem_cons.mpr ⟨rfl, List.forall_mem_cons.mpr ⟨rfl, fun t member => ?_⟩⟩
    simp [isTagPart, gap t member]
  · exact List.forall_mem_append.mpr ⟨inside, List.forall_mem_singleton.mpr rfl⟩
  · have spaces : (locate e.span.finish d.gap).filter (·.kind == .attr) = [] :=
      List.filter_eq_nil_iff.mpr fun t member => by simp [gap t member]
    have own : (parts.filter (·.kind == .attr)).filter (·.span != e.span) =
        parts.filter (·.kind == .attr) := by
      refine List.filter_eq_self.mpr fun t member => bne_iff_ne.mpr (others t ?_)
      simp [List.mem_of_mem_filter member]
    simp [joined, white, token, spaces, own]
  · have last := finish_locate d.token d.gap
    have ends : (parts ++ d.white :: d.token :: locate e.span.finish d.gap).getLast? =
        (d.token :: locate e.span.finish d.gap).getLast? := by
      rw [List.append_cons, List.getLast?_append_of_ne_nil _ (List.cons_ne_nil _ _)]
    rw [List.getLast?_concat, ends]
    exact last.symm
  · intro t member
    refine others t ?_
    simp only [List.mem_append, List.mem_cons] at member ⊢
    exact member.imp .inl id

/-- **The tokens that are left move along with all that is built of them.** -/
theorem fits_kept : ∀ piece ∈ Markup.ofTokens d.kept,
    (Carry.retexting e e.span e.put).Fits piece := by
  have follows := Carry.follows_retexting e e.span e.put
  have within : ∀ piece ∈ Markup.ofTokens d.kept, ∀ t ∈ piece.tokens, t ∈ d.kept :=
    fun piece isPiece => (Markup.tokens_sublist isPiece).subset
  have apart := d.span_ne_kept
  have left : ∀ t ∈ d.kept, t.kind ≠ .blank → t ∈ tokenize e.old ∧ e.Spares t.span.start t.text := by
    intro t member solid
    rcases d.mem_kept.mp member with rfl | other
    · exact absurd rfl solid
    · refine ⟨?_, (d.spares t other).2⟩
      rw [d.tokenize_old]
      rcases List.mem_append.mp other with front | later
      · exact List.mem_append_left _ front
      · simp [later]
  intro piece isPiece
  cases piece with
  | single t => exact fun _ => follows.keeps (apart t (within _ isPiece t (by simp [Markup.tokens])))
  | tag head parts close =>
      obtain ⟨opens, member⟩ := Markup.kind_of_mem_ofTokens isPiece
      obtain ⟨inText, spares⟩ := left head member (by simp [opens])
      have inTag : ∀ t ∈ parts, t ∈ d.kept := fun t part =>
        within _ isPiece t (by simp [Markup.tokens, part])
      refine ⟨follows.keeps (apart head member), ?_, fun t part _ => follows.keeps (apart t (inTag t part)),
        fun t part attr => ?_⟩
      · obtain ⟨name, text⟩ := opens_tagOpen e.old head inText opens
        rw [text, ← List.singleton_append] at spares
        rw [follows.place]
        exact spares.left.move_after
      · exact follows.reads (left t (inTag t part) (by simp [attr])).2 (apart t (inTag t part))

/-- **The page has the tree that it had**, moved along, with the attribute missing from its start tag. -/
theorem nodes (d : Dropping e) : (Page.ofText e.new).nodes = (Carry.retexting e e.span e.put).nodes
    ((Retag.dropping e.span).nodes (Page.ofText e.old).nodes) := by
  let f := Carry.retexting e e.span e.put
  have follows := Carry.follows_retexting e e.span e.put
  have moved : tokenize e.new = d.kept.map f.token := by
    rw [d.tokenize_new]
    refine List.map_congr_left fun t member => ?_
    rw [Carry.token, follows.keeps (d.span_ne_kept t member)]
    rfl
  have built := congrArg Prod.fst (Carry.buildTree_token d.fits_kept (some depthCap))
  show (buildTree (some depthCap) (tokenize e.new)).1 = _
  rw [moved, built, Retag.buildTree_retag d.fits_old]
  rfl

end Dropping

end PageLint.Html
