/-
# PageLint.Proofs.Html.StartTags — where a start tag ends

The lexer reads the inside of a start tag in one go, up to the sign that ends it, a `<` or the end of
the text (`tagScan`, `cut_tagScan`). The tokens that make up the tag are then told by their kinds.
Both agree where the tag has its sign. Where it has none, the tag stops before the next `<`, unless a
bogus comment begins there: that is of the same kind as a stray sign in a tag, and it and all bogus
comments that follow it directly are taken into the tag (`Markup.start_tag_takes`,
`Markup.bogus_taken_in`).
-/
import PageLint.Proofs.Html.Attributes

namespace PageLint.Html

set_option autoImplicit false

open Text

variable {c : Char} {cs rest name : List Char} {head sign t : Token TokenKind}
  {ts parts more later before : List (Token TokenKind)}

/-! ## The inside of a start tag -/

/-- What the inside of a start tag is cut into, and where and how the text is read on. -/
structure TagScan where
  pieces : List (Lexeme TokenKind)
  mode : Mode
  left : List Char

/-- **What stands in a start tag of this name**: all up to the sign that ends it, that included, or up
to a `<` or the end of the text. -/
def tagScan (name : List Char) (cs : List Char) : TagScan :=
  match cs with
  | [] => ⟨[], .content, []⟩
  | c :: rest =>
    if c = '<' then ⟨[], .content, c :: rest⟩
    else
      let s := scanTag name c rest
      let piece : Lexeme TokenKind := ⟨s.kind, c :: rest.take s.more⟩
      if s.kind = .tagEnd ∨ s.kind = .selfClosingTagEnd then ⟨[piece], s.state, rest.drop s.more⟩
      else
        let next := tagScan name (rest.drop s.more)
        ⟨piece :: next.pieces, next.mode, next.left⟩
termination_by cs.length
decreasing_by simp only [List.length_drop, List.length_cons]; omega

/-- What stands in a tag is a part of it or ends it, and only a part leaves the lexer in the tag. -/
theorem scanTag_parts (name : List Char) (c : Char) (rest : List Char) :
    (scanTag name c rest).kind ∈ [TokenKind.tagEnd, .selfClosingTagEnd] ∨
      (scanTag name c rest).kind ∈ [TokenKind.blank, .attr, .unknown] ∧
        (scanTag name c rest).state = .tag name := by
  simp only [scanTag]
  repeat' split
  all_goals simp

/-- **The lexer cuts the inside of a start tag in one go**, and reads on behind it. -/
theorem cut_tagScan (name cs : List Char) : cut scan (.tag name) cs =
    (tagScan name cs).pieces ++ cut scan (tagScan name cs).mode (tagScan name cs).left := by
  fun_induction tagScan name cs with
  | case1 => simp
  | case2 rest => rw [cut_cons, List.nil_append, cut_cons]; rfl
  | case3 c rest other s piece ends =>
      have here : scan (.tag name) c rest = s := if_neg other
      rw [cut_cons, here]
      rfl
  | case4 c rest other s piece goesOn next ih =>
      have here : scan (.tag name) c rest = s := if_neg other
      have state : s.state = .tag name := by
        refine ((scanTag_parts name c rest).resolve_left fun ends => goesOn ?_).2
        simpa using ends
      rw [cut_cons, here, state, ih]
      rfl

/-- How the inside of a start tag ends: with the sign that ends the tag, or without it, and then in
content, before a `<` or at the end of the text. -/
inductive TagScan.Ends (s : TagScan) : Prop
  | closed (parts : List (Lexeme TokenKind)) (sign : Lexeme TokenKind) : s.pieces = parts ++ [sign] →
    (∀ piece ∈ parts, piece.kind ∈ [TokenKind.blank, .attr, .unknown]) →
    sign.kind ∈ [TokenKind.tagEnd, .selfClosingTagEnd] → Ends s
  | broken : (∀ piece ∈ s.pieces, piece.kind ∈ [TokenKind.blank, .attr, .unknown]) →
    s.mode = .content → (∀ c ∈ s.left.head?, c = '<') → Ends s

theorem tagScan_ends (name cs : List Char) : (tagScan name cs).Ends ∧
    ∀ piece ∈ (tagScan name cs).pieces, piece.text.head? ≠ some '<' := by
  fun_induction tagScan name cs with
  | case1 => exact ⟨.broken (by simp) rfl (by simp), by simp⟩
  | case2 rest => exact ⟨.broken (by simp) rfl (by simp), by simp⟩
  | case3 c rest other s piece ends =>
      refine ⟨.closed [] piece rfl (by simp) (by simpa using ends), ?_⟩
      exact List.forall_mem_singleton.mpr fun same => other (Option.some.inj same)
  | case4 c rest other s piece goesOn next ih =>
      obtain ⟨ends, unmarked⟩ := ih
      have part := ((scanTag_parts name c rest).resolve_left fun ends => goesOn (by simpa using ends)).1
      refine ⟨?_, List.forall_mem_cons.mpr ⟨fun same => other (Option.some.inj same), unmarked⟩⟩
      cases ends with
      | closed parts sign pieces inside closes =>
          exact .closed (piece :: parts) sign (congrArg (piece :: ·) pieces)
            (List.forall_mem_cons.mpr ⟨part, inside⟩) closes
      | broken inside mode left => exact .broken (List.forall_mem_cons.mpr ⟨part, inside⟩) mode left

/-! ## Bogus comments -/

/-- Markup of no use that stands between tags: it begins with `<!`, `<?` or `</`. -/
def isBogusComment (t : Token TokenKind) : Bool := t.kind == .unknown && startsMarkup t.text

theorem startsMarkup_take {n : Nat} (starts : startsMarkup (c :: rest)) (some_ : 0 < n) :
    startsMarkup (c :: rest.take n) := by
  obtain ⟨n, rfl⟩ := Nat.exists_eq_succ_of_ne_zero some_.ne'
  cases rest with
  | nil => simp [startsMarkup] at starts
  | cons d rest =>
      rw [List.take_succ_cons]
      unfold startsMarkup at starts ⊢
      split at starts <;> simp_all

/-- Between tags nothing ends a start tag, and what looks like a part of one is a bogus comment. -/
theorem scanContent_parts (c : Char) (rest : List Char) :
    (scanContent c rest).kind ∉ [TokenKind.blank, .attr, .unknown, .tagEnd, .selfClosingTagEnd] ∨
      (scanContent c rest).kind = .unknown ∧ (scanContent c rest).state = .content ∧
        startsMarkup (c :: rest.take (scanContent c rest).more) := by
  have bogus : startsMarkup (c :: rest) → startsMarkup (c :: rest.take (extentThrough ">" rest)) := by
    intro markup
    cases rest with
    | nil => simp [startsMarkup] at markup
    | cons d rest => exact startsMarkup_take markup (extentThrough_pos (by decide))
  simp only [scanContent]
  split
  · simp
  split
  · simp
  split
  · simp
  split
  next markup =>
    split
    · split
      · simp
      · exact .inr ⟨rfl, rfl, bogus markup⟩
    · split
      · simp
      · exact .inr ⟨rfl, rfl, bogus markup⟩
    · simp
  · simp

/-- Tokens between tags: those that pass for parts of a start tag are the bogus comments in front, and
what follows them neither is a part of one nor ends one. -/
theorem Lexed.bogus (lexed : Lexed .content ts) :
    ts.takeWhile isTagPart = ts.takeWhile isBogusComment ∧
      ∀ t ∈ (ts.dropWhile isTagPart).head?, isTagPart t = false ∧ isTagEnd t = false := by
  induction ts with
  | nil => exact ⟨rfl, by simp⟩
  | cons t ts ih =>
      obtain ⟨c, rest, kind, text, later⟩ := lexed.step
      rcases scanContent_parts c rest with other | ⟨unknown, state, markup⟩
      · have outside : isTagPart t = false ∧ isTagEnd t = false ∧ isBogusComment t = false := by
          rw [show (scanContent c rest).kind = t.kind from kind.symm] at other
          simp only [List.mem_cons, List.not_mem_nil, or_false, not_or] at other
          simp [isTagPart, isTagEnd, isBogusComment, other]
        rw [List.takeWhile_cons_of_neg (by simp [outside]),
          List.takeWhile_cons_of_neg (by simp [outside]), List.dropWhile_cons_of_neg (by simp [outside])]
        refine ⟨rfl, ?_⟩
        rintro u ⟨⟩
        exact ⟨outside.1, outside.2.1⟩
      · have within : isTagPart t ∧ isBogusComment t := by
          rw [show (scanContent c rest).kind = t.kind from kind.symm] at unknown
          rw [show c :: rest.take (scanContent c rest).more = t.text from text.symm] at markup
          simp [isTagPart, isBogusComment, unknown, markup]
        obtain ⟨same, stops⟩ := ih (state ▸ later)
        rw [List.takeWhile_cons_of_pos within.1, List.takeWhile_cons_of_pos within.2,
          List.dropWhile_cons_of_pos within.1, same]
        exact ⟨rfl, stops⟩

/-! ## Start tags of a page -/

/-- The text behind a name that opens a tag is cut as the inside of that tag, and then read on. -/
theorem after_tagOpen (split : tokenize cs = before ++ head :: later) (opens : head.kind = .tagOpen) :
    let s := tagScan (lowerAscii (head.text.drop 1)) (textOf later)
    ∃ p, later = locate head.span.finish s.pieces ++ locate p (cut scan s.mode s.left) := by
  obtain ⟨mode, c, rest, holdsText, -, kind, text, -, behind⟩ :=
    locate_cut_split (s := Mode.head) (I := Mode.HoldsText)
      (fun mode c rest _ => scan_holdsText mode c rest) trivial split
  rw [opens] at kind
  have name : head.text.drop 1 = rest.take (scan mode c rest).more := by
    rw [text]
    rfl
  rw [state_of_tagOpen holdsText kind.symm, ← name] at behind
  have texts : textOf later = rest.drop (scan mode c rest).more := by
    rw [behind, textOf, map_text_locate, texts_cut]
  rw [← texts, cut_tagScan, locate_append] at behind
  exact ⟨_, behind⟩

theorem span_ofTokens (head : Token TokenKind) (parts : List (Token TokenKind))
    (close : Option (Token TokenKind)) : (StartTag.ofTokens head parts close).1.span =
      ⟨head.span.start, (((parts ++ close.toList).getLast?).getD head).span.finish⟩ := by
  have last : (head :: parts ++ close.toList).getLast (by simp) =
      ((parts ++ close.toList).getLast?).getD head := by
    rw [← Option.some_inj, ← List.getLast?_eq_getLast_of_ne_nil, List.cons_append,
      List.getLast?_cons]
  rw [← last]
  rfl

/-- **The name of a tag takes what was cut off after it in one go**, and if that does not end the tag,
the bogus comments that follow. -/
theorem ofTokens_tagScan {s : TagScan} {p q : Position} (opens : head.kind = .tagOpen)
    (ends : s.Ends) (whole : later = locate p s.pieces ++ locate q (cut scan s.mode s.left)) :
    ∃ behind bogus after parts close,
      later = locate p s.pieces ++ behind ∧ behind = bogus ++ after ∧
      bogus = (if close.isSome then [] else behind.takeWhile isBogusComment) ∧
      parts ++ close.toList = locate p s.pieces ++ bogus ∧
      (close.isSome ↔ ∃ t ∈ locate p s.pieces, isTagEnd t) ∧
      Markup.ofTokens (head :: later) = .tag head parts close :: Markup.ofTokens after := by
  cases ends with
  | closed pieces sign parted within closes =>
      have located : ∃ parts e, locate p s.pieces = parts ++ [e] ∧ e.kind = sign.kind ∧
          ∀ t ∈ parts, isTagPart t := by
        rw [parted, locate_append]
        exact ⟨_, _, rfl, rfl,
          fun t member => isTagPart_iff.mpr (within _ (mem_of_mem_locate member))⟩
      obtain ⟨parts, e, here, kind, inside⟩ := located
      have ends : isTagEnd e := by
        rw [← kind] at closes
        simpa [isTagEnd] using closes
      refine ⟨_, [], _, parts, some e, whole, rfl, rfl, by rw [here]; simp, ?_, ?_⟩
      · exact iff_of_true rfl ⟨e, by simp [here], ends⟩
      · rw [whole, here, List.append_assoc, List.singleton_append,
          Markup.ofTokens_closed opens inside ends]
  | broken within mode left =>
      have inside : ∀ t ∈ locate p s.pieces, isTagPart t :=
        fun t member => isTagPart_iff.mpr (within _ (mem_of_mem_locate member))
      have lexed : Lexed .content (locate q (cut scan s.mode s.left)) :=
        ⟨trivial, q, s.left, by rw [mode]⟩
      generalize locate q (cut scan s.mode s.left) = behind at whole lexed
      obtain ⟨same, stops⟩ := lexed.bogus
      have split := List.takeWhile_append_dropWhile (p := isTagPart) (l := behind)
      refine ⟨behind, behind.takeWhile isTagPart, behind.dropWhile isTagPart,
        locate p s.pieces ++ behind.takeWhile isTagPart, none, whole, split.symm, same, by simp,
        ?_, ?_⟩
      · refine iff_of_false Bool.false_ne_true ?_
        rintro ⟨t, member, ends⟩
        exact absurd (inside t member) (by simp [isTagPart_of_isTagEnd ends])
      · have parts : ∀ t ∈ locate p s.pieces ++ behind.takeWhile isTagPart, isTagPart t :=
          List.forall_mem_append.mpr ⟨inside, fun t member => List.mem_takeWhile_imp member⟩
        rw [← Markup.ofTokens_broken opens parts stops, List.append_assoc, split, whole]

/-- **Where a start tag ends.** A tag takes what the lexer cuts off in one go after its name. If the
sign that ends it is not among that, it also takes all bogus comments that follow directly, and nothing
else: it stops before any other markup. -/
theorem Markup.start_tag_takes (split : tokenize cs = before ++ head :: later)
    (opens : head.kind = .tagOpen) :
    let inside := locate head.span.finish
      (tagScan (lowerAscii (head.text.drop 1)) (textOf later)).pieces
    ∃ behind bogus after parts close,
      later = inside ++ behind ∧ behind = bogus ++ after ∧
      bogus = (if close.isSome then [] else behind.takeWhile isBogusComment) ∧
      parts ++ close.toList = inside ++ bogus ∧ (close.isSome ↔ ∃ t ∈ inside, isTagEnd t) ∧
      (∀ t ∈ inside, t.text.head? ≠ some '<') ∧
      ofTokens (tokenize cs) = ofTokens before ++ .tag head parts close :: ofTokens after ∧
      ∃ e ∈ (Page.ofText cs).elements, e.tag = (StartTag.ofTokens head parts close).1 ∧
        e.tag.span = ⟨head.span.start, (((inside ++ bogus).getLast?).getD head).span.finish⟩ := by
  obtain ⟨p, whole⟩ := after_tagOpen split opens
  obtain ⟨ends, unmarked⟩ := tagScan_ends (lowerAscii (head.text.drop 1)) (textOf later)
  obtain ⟨behind, bogus, after, parts, close, parted, same, all, taken, closed, here⟩ :=
    ofTokens_tagScan opens ends whole
  have grouped : ofTokens (tokenize cs) =
      ofTokens before ++ .tag head parts close :: ofTokens after := by
    have opening : isTagPart head = false ∧ isTagEnd head = false := by
      simp [isTagPart, isTagEnd, opens]
    rw [split, ofTokens_append (by rintro t ⟨⟩; exact opening), here]
  have among : (StartTag.ofTokens head parts close).1 ∈
      (ofTokens (tokenize cs)).filterMap startTag? :=
    List.mem_filterMap.mpr ⟨.tag head parts close, by simp [grouped], rfl⟩
  rw [← tags_elements] at among
  obtain ⟨e, inPage, tag⟩ := List.mem_map.mp among
  exact ⟨behind, bogus, after, parts, close, parted, same, all, taken, closed,
    fun t member => unmarked _ (mem_of_mem_locate member), grouped, e, inPage, tag,
    by rw [tag, span_ofTokens, taken]⟩

/-- A tag that has its sign, with a stray quoted run in it, and one that is broken off before two bogus
comments and a tag. -/
theorem Markup.start_tag_takes_broken :
    let text := "<u \"e\" f=><i g <!h></ ><b>".toList
    ∃ before head later, tokenize text = before ++ head :: later ∧ head.kind = .tagOpen ∧
      ∃ bogus after parts : List (Token TokenKind),
        bogus.map (fun t => String.ofList t.text) = ["<!h>", "</ >"] ∧
        parts.map (fun t => String.ofList t.text) = [" ", "g", " ", "<!h>", "</ >"] ∧
        ofTokens (tokenize text) = ofTokens before ++ .tag head parts none :: ofTokens after ∧
        ∃ e ∈ (Page.ofText text).elements, e.tag.span = ⟨⟨10, 1, 11⟩, ⟨23, 1, 24⟩⟩ := by
  intro text
  let head : Token TokenKind := ⟨.tagOpen, "<i", ⟨⟨10, 1, 11⟩, ⟨12, 1, 13⟩⟩⟩
  have split : tokenize text = (tokenize text).take 6 ++ head :: (tokenize text).drop 7 := by
    decide +kernel
  obtain ⟨behind, bogus, after, parts, close, parted, -, all, taken, closed, -, grouped, e, inPage, -,
    span⟩ := Markup.start_tag_takes split rfl
  have inside : locate head.span.finish (tagScan (lowerAscii (head.text.drop 1))
      (textOf ((tokenize text).drop 7))).pieces = ((tokenize text).drop 7).take 3 := by decide +kernel
  rw [inside] at parted taken closed span
  have open_ : close = none := by
    have none_ : ¬∃ t ∈ ((tokenize text).drop 7).take 3, isTagEnd t := by decide +kernel
    rw [← closed] at none_
    simpa using none_
  have left : behind = ((tokenize text).drop 7).drop 3 := by
    refine List.append_cancel_left (parted.symm.trans (List.take_append_drop 3 _).symm)
  rw [open_, left] at all
  rw [open_] at taken grouped
  have found : bogus = ((tokenize text).drop 10).take 2 := by
    rw [all]
    decide +kernel
  rw [found] at taken span
  refine ⟨_, head, _, split, rfl, bogus, after, parts, ?_, ?_, grouped, e, inPage, ?_⟩
  · rw [found]
    decide +kernel
  · rw [show parts = _ from (List.append_nil parts).symm.trans taken]
    decide +kernel
  · rw [span]
    decide +kernel

/-- **A bogus comment behind a tag that is broken off is taken for a part of it**: the lexer's tag is
the white space before it, the tag of the page reaches to its end, and it is told as stray in the tag. -/
theorem Markup.bogus_taken_in :
    let text := "<a <!b>c".toList
    let head : Token TokenKind := ⟨.tagOpen, "<a", ⟨⟨0, 1, 1⟩, ⟨2, 1, 3⟩⟩⟩
    let blank : Token TokenKind := ⟨.blank, " ", ⟨⟨2, 1, 3⟩, ⟨3, 1, 4⟩⟩⟩
    let bogus : Token TokenKind := ⟨.unknown, "<!b>", ⟨⟨3, 1, 4⟩, ⟨7, 1, 8⟩⟩⟩
    let after : Token TokenKind := ⟨.text, "c", ⟨⟨7, 1, 8⟩, ⟨8, 1, 9⟩⟩⟩
    tokenize text = [head, blank, bogus, after] ∧
      locate head.span.finish (tagScan "a" (textOf [blank, bogus, after])).pieces = [blank] ∧
      ofTokens (tokenize text) = [.tag head [blank, bogus] none, .single after] ∧
      (Page.ofText text).elements.map (·.tag.span) = [⟨head.span.start, bogus.span.finish⟩] ∧
      ⟨.strayInTag bogus.text "a", bogus.span⟩ ∈ (Page.ofText text).issues := by
  decide +kernel

end PageLint.Html
