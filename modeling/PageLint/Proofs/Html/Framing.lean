/-
# PageLint.Proofs.Html.Framing — what comes inside a `style` element

The lexer reads all that follows the `>` of a `style` start tag as one raw text, up to the end
tag. So between the start tag and the end of its element comes one raw text or none, and no
markup: that is what `Framed` says of the pieces of a page, and `framed_of_lexed` that every
page is framed.

`Lexed mode ts` says that the tokens are what the lexer makes of some text that it reads in a
mode; what is left of such tokens is lexed again, in the mode that the last scan has left
(`Lexed.step`). Two raw texts are never neighbours, as a raw text leaves the lexer in content
and content begins with markup or text (`Lexed.rawTexts_apart`).
-/
import PageLint.Proofs.Html.Building

namespace PageLint

set_option autoImplicit false

open Text

namespace Html

variable {mode : Mode} {c : Char} {rest : List Char}

/-! ## What a scan leaves -/

/-- How a scan leaves a mode: it opens a tag and has read its name, it ends a tag and goes on by
the name of that, it makes a raw text, or none of these; then it goes on in content or in the tag
where it was. -/
inductive Leaves (mode : Mode) (rest : List Char) (s : Cut) : Prop
  | opens : s.kind = .tagOpen → s.state = .tag (lowerAscii (rest.take s.more)) → Leaves mode rest s
  | ends (name : List Char) :
      mode = .tag name → s.kind = .tagEnd → s.state = modeAfterTag name → Leaves mode rest s
  | raw (name : List Char) :
      mode = .raw name .rawText → s.kind = .rawText → s.state = .content → Leaves mode rest s
  | inside (name : List Char) : mode = .tag name → s.state = .tag name →
      s.kind ∉ [TokenKind.tagOpen, .tagEnd, .rawText] → Leaves mode rest s
  | plain :
      s.state = .content → s.kind ∉ [TokenKind.tagOpen, .tagEnd, .rawText] → Leaves mode rest s

theorem leaves_scanContent (mode : Mode) (c : Char) (rest : List Char) :
    Leaves mode rest (scanContent c rest) := by
  simp only [scanContent]
  split
  · exact .plain rfl (by simp)
  split
  · exact .plain rfl (by simp)
  split
  · exact .plain rfl (by simp)
  split
  · split
    · split
      · exact .plain rfl (by simp)
      · exact .plain rfl (by simp)
    · split
      · exact .opens rfl (congrArg (Mode.tag ∘ lowerAscii) (take_extentWhile _ _).symm)
      · exact .plain rfl (by simp)
    · exact .plain rfl (by simp)
  · exact .plain rfl (by simp)

theorem leaves_scanTag (name : List Char) (c : Char) (rest : List Char) :
    Leaves (.tag name) rest (scanTag name c rest) := by
  simp only [scanTag]
  split
  · exact .inside name rfl rfl (by simp)
  split
  · exact .ends name rfl rfl rfl
  split
  · exact .plain rfl (by simp)
  split
  · exact .inside name rfl rfl (by simp)
  split
  · exact .inside name rfl rfl (by simp)
  · exact .inside name rfl rfl (by simp)

theorem leaves_scan (text : mode.HoldsText) (c : Char) (rest : List Char) :
    Leaves mode rest (scan mode c rest) := by
  cases mode with
  | head =>
      rw [scan]
      split
      · exact .plain rfl (by simp)
      · exact leaves_scanContent _ c rest
  | content => exact leaves_scanContent _ c rest
  | tag name =>
      rw [scan]
      split
      · exact leaves_scanContent _ c rest
      · exact leaves_scanTag name c rest
  | raw name kind =>
      rw [scan]
      split
      · exact leaves_scanContent _ c rest
      · rcases text with rfl | rfl
        · exact .raw name rfl rfl rfl
        · exact .plain rfl (by simp)

/-- A name that opens a tag leaves the lexer in it. -/
theorem state_of_tagOpen (text : mode.HoldsText) (opens : (scan mode c rest).kind = .tagOpen) :
    (scan mode c rest).state = .tag (lowerAscii (rest.take (scan mode c rest).more)) := by
  cases leaves_scan text c rest with
  | opens _ state => exact state
  | ends name _ ends _ => rw [opens] at ends; cases ends
  | raw name _ raw _ => rw [opens] at raw; cases raw
  | inside name _ _ plain => simp [opens] at plain
  | plain _ plain => simp [opens] at plain

/-! ## Tokens of a text that is read in a mode -/

/-- The tokens are what the lexer makes of some text, read in this mode. -/
def Lexed (mode : Mode) (ts : List (Token TokenKind)) : Prop :=
  mode.HoldsText ∧ ∃ p cs, ts = locate p (cut scan mode cs)

variable {ts : List (Token TokenKind)} {t : Token TokenKind}

theorem lexed_tokenize (cs : List Char) : Lexed .head (tokenize cs) := ⟨trivial, .start, cs, rfl⟩

/-- The first token is what one scan makes, and the others are lexed in the mode it leaves. -/
theorem Lexed.step (lexed : Lexed mode (t :: ts)) : ∃ c rest,
    t.kind = (scan mode c rest).kind ∧ t.text = c :: rest.take (scan mode c rest).more ∧
      Lexed (scan mode c rest).state ts := by
  obtain ⟨text, p, cs, same⟩ := lexed
  cases cs with
  | nil =>
      rw [cut_nil] at same
      cases same
  | cons c rest =>
      rw [cut_cons, locate] at same
      obtain ⟨rfl, rfl⟩ := List.cons.inj same
      exact ⟨c, rest, rfl, rfl, scan_holdsText mode c rest, _, _, rfl⟩

theorem Lexed.tail (lexed : Lexed mode (t :: ts)) : ∃ next, Lexed next ts := by
  obtain ⟨c, rest, -, -, later⟩ := lexed.step
  exact ⟨_, later⟩

theorem Lexed.dropWhile (lexed : Lexed mode ts) (p : Token TokenKind → Bool) :
    ∃ next, Lexed next (ts.dropWhile p) := by
  induction ts generalizing mode with
  | nil => exact ⟨mode, lexed⟩
  | cons t ts ih =>
      rw [List.dropWhile_cons]
      split
      · obtain ⟨next, later⟩ := lexed.tail
        exact ih later
      · exact ⟨mode, lexed⟩

theorem Lexed.after_tagOpen (lexed : Lexed mode (t :: ts)) (opens : t.kind = .tagOpen) :
    Lexed (.tag (lowerAscii (t.text.drop 1))) ts := by
  have text := lexed.1
  obtain ⟨c, rest, kind, written, later⟩ := lexed.step
  rw [kind] at opens
  rw [written, List.drop_one, List.tail_cons, ← state_of_tagOpen text opens]
  exact later

theorem Lexed.after_rawText (lexed : Lexed mode (t :: ts)) (raw : t.kind = .rawText) :
    Lexed .content ts := by
  have text := lexed.1
  obtain ⟨c, rest, kind, -, later⟩ := lexed.step
  rw [kind] at raw
  cases leaves_scan text c rest with
  | opens opens _ => rw [opens] at raw; cases raw
  | ends name _ ends _ => rw [ends] at raw; cases raw
  | raw name _ _ state => rwa [state] at later
  | inside name _ _ plain => simp [raw] at plain
  | plain _ plain => simp [raw] at plain

/-- In content no raw text comes next. -/
theorem Lexed.first_of_content (lexed : Lexed .content (t :: ts)) : t.kind ≠ .rawText := by
  obtain ⟨c, rest, kind, -, -⟩ := lexed.step
  rw [kind]
  intro raw
  have leaves : Leaves .content rest (scan .content c rest) :=
    leaves_scanContent _ c rest
  cases leaves with
  | opens opens _ => rw [opens] at raw; cases raw
  | ends name _ ends _ => rw [ends] at raw; cases raw
  | raw name mode _ _ => cases mode
  | inside name _ _ plain => simp [raw] at plain
  | plain _ plain => simp [raw] at plain

/-- The first sign that ends a start tag after some of its parts is the end of the tag in which
the tokens are read, and what follows it is read by the name of that. -/
theorem Lexed.after_tagEnd {e : Token TokenKind} {more : List (Token TokenKind)}
    (lexed : Lexed mode ts) (left : ts.dropWhile isTagPart = e :: more) (ends : e.kind = .tagEnd) :
    ∃ name, mode = .tag name ∧ Lexed (modeAfterTag name) more := by
  induction ts generalizing mode with
  | nil => cases left
  | cons t ts ih =>
      have text := lexed.1
      obtain ⟨c, rest, kind, -, later⟩ := lexed.step
      rw [List.dropWhile_cons] at left
      split at left
      next part =>
        obtain ⟨name, state, after⟩ := ih later left
        cases leaves_scan text c rest with
        | opens opens _ =>
            rw [isTagPart, kind, opens] at part
            simp at part
        | ends name' _ ends _ =>
            rw [isTagPart, kind, ends] at part
            simp at part
        | raw name' _ raw _ =>
            rw [isTagPart, kind, raw] at part
            simp at part
        | inside name' same state' _ =>
            rw [state] at state'
            exact ⟨name, by rw [same, state'], after⟩
        | plain state' _ =>
            rw [state] at state'
            cases state'
      next =>
        obtain ⟨rfl, rfl⟩ := List.cons.inj left
        rw [kind] at ends
        cases leaves_scan text c rest with
        | opens opens _ => rw [opens] at ends; cases ends
        | ends name same _ state => exact ⟨name, same, by rwa [← state]⟩
        | raw name _ raw _ => rw [raw] at ends; cases ends
        | inside name _ _ plain => simp [ends] at plain
        | plain _ plain => simp [ends] at plain

/-! ## End tags -/

/-- The name of `style` elements. -/
def styleName : List Char := "style"

/-- An end tag of a `style` element. -/
def EndsStyle (t : Token TokenKind) : Prop :=
  t.kind = .tagClose ∧ Builder.endTagName t.text = styleName

theorem dropSlashes_of_isAlpha {c : Char} {cs : List Char} (letter : c.isAlpha) :
    Builder.endTagName.dropSlashes (c :: cs) = c :: cs := by
  rw [Builder.endTagName.dropSlashes.eq_def]
  split
  next same =>
    rw [(List.cons.inj same).1] at letter
    cases letter
  next => rfl

/-- A letter is none of the signs of a tag. -/
theorem ne_signs_of_isAlpha {c : Char} (letter : c.isAlpha) : c ≠ '/' ∧ c ≠ '>' ∧ c ≠ '<' := by
  refine ⟨?_, ?_, ?_⟩ <;>
  · rintro rfl
    cases letter

section EndTagNames

variable {word tail : List Char} (letters : ∀ c ∈ word, c.isAlpha)
include letters

/-- What the slashes before a run of letters leave is the run and what follows it. -/
theorem dropSlashes_endTag (some_ : word ≠ []) (last : List Char) :
    Builder.endTagName.dropSlashes
        ('<' :: '/' :: ((word ++ tail).takeWhile (fun c => c != '>' && c != '<') ++ last)) =
      (word ++ tail).takeWhile (fun c => c != '>' && c != '<') ++ last := by
  cases word with
  | nil => exact absurd rfl some_
  | cons d word =>
      have letter := letters d List.mem_cons_self
      have other : (d != '>' && d != '<') = true := by simp [ne_signs_of_isAlpha letter]
      have first : (d :: word ++ tail).takeWhile (fun c => c != '>' && c != '<') =
          d :: (word ++ tail).takeWhile fun c => c != '>' && c != '<' :=
        List.takeWhile_cons_of_pos other
      rw [first]
      exact dropSlashes_of_isAlpha letter

/-- White space, a slash or the end of the tag ends a run of letters. -/
theorem takeWhile_endTag (stop : ∀ c ∈ tail.head?, isBlank c || c == '/' || c == '>') :
    ((word ++ tail).takeWhile fun c => c != '>' && c != '<').takeWhile
      (fun c => !(isBlank c || c == '/')) = word := by
  rw [List.takeWhile_takeWhile]
  apply takeWhile_append_stop
  · intro c member
    have letter := letters c member
    simp [not_isBlank_of_isAlpha letter, ne_signs_of_isAlpha letter]
  · intro c member
    have stops := stop c member
    by_cases blank : isBlank c
    · simp [blank]
    · by_cases slash : c = '/'
      · simp [slash]
      · simp [blank, slash] at stops
        simp [stops]

/-- The name in an end tag that a run of letters begins, and then white space, a slash, a `>` or
nothing. -/
theorem endTagName_eq (some_ : word ≠ [])
    (stop : ∀ c ∈ tail.head?, isBlank c || c == '/' || c == '>') (sign : Bool) :
    Builder.endTagName ('<' :: '/' :: ((word ++ tail).takeWhile (fun c => c != '>' && c != '<') ++
      if sign then ['>'] else [])) = lowerAscii word := by
  have trimmed : trimEndBy (· == '>') ((word ++ tail).takeWhile (fun c => c != '>' && c != '<') ++
      if sign then ['>'] else []) = (word ++ tail).takeWhile fun c => c != '>' && c != '<' := by
    apply trimEndBy_append
    · intro c member
      have holds := List.mem_takeWhile_imp member
      simp only [Bool.and_eq_true, bne_iff_ne] at holds
      simpa using holds.1
    · cases sign <;> simp
  rw [Builder.endTagName, dropSlashes_endTag letters some_, trimmed, takeWhile_endTag letters stop]

end EndTagNames

/-- What stops a raw text by name begins with the end tag of that name. -/
theorem endsRaw_spec {name cs : List Char} (ends : endsRaw name cs)
    (letters : ∀ c ∈ name, c.isAlpha) :
    ∃ word tail, cs = '<' :: '/' :: (word ++ tail) ∧ lowerAscii word = lowerAscii name ∧
      (∀ c ∈ word, c.isAlpha) ∧ ∀ c ∈ tail.head?, isBlank c || c == '/' || c == '>' := by
  rw [endsRaw, Bool.and_eq_true, startsIgnoringCase_iff] at ends
  obtain ⟨starts, stop⟩ := ends
  cases cs with
  | nil => simp [lowerAscii] at starts
  | cons c cs =>
      cases cs with
      | nil => simp [lowerAscii] at starts
      | cons d cs =>
          simp only [lowerAscii, List.map_cons, List.cons_prefix_cons] at starts
          obtain ⟨first, second, word⟩ := starts
          have lt : c = '<' := eq_of_toLower_eq first.symm rfl
          have slash : d = '/' := eq_of_toLower_eq second.symm rfl
          obtain ⟨rest, whole⟩ := word
          have parted : (cs.take name.length).map Char.toLower = name.map Char.toLower := by
            rw [List.map_take, ← whole]
            exact List.take_left' (List.length_map _)
          refine ⟨cs.take name.length, cs.drop name.length, ?_, parted, ?_, ?_⟩
          · rw [lt, slash, List.take_append_drop]
          · intro e member
            have small : e.toLower ∈ name.map Char.toLower := by
              rw [← parted]
              exact List.mem_map_of_mem member
            obtain ⟨l, isLetter, same⟩ := List.mem_map.mp small
            rw [← Char.isAlpha_toLower_eq_isAlpha, ← same, Char.isAlpha_toLower_eq_isAlpha]
            exact letters l isLetter
          · intro e member
            have after : (c :: d :: cs).drop (name.length + 2) = cs.drop name.length := by simp
            rw [after] at stop
            cases left : cs.drop name.length with
            | nil => rw [left] at member; cases member
            | cons f more =>
                rw [left] at stop member
                rw [← Option.some.inj member]
                exact stop

/-- A run with the sign that ends it, if it is that one. -/
theorem take_extentWhile_sign (p : Char → Bool) (cs : List Char) (c : Char) : ∃ sign : Bool,
    cs.take (extentWhile p cs + if (cs.drop (extentWhile p cs)).head? = some c then 1 else 0) =
      cs.takeWhile p ++ if sign then [c] else [] := by
  rw [List.take_add, take_extentWhile, drop_extentWhile]
  cases cs.dropWhile p with
  | nil => exact ⟨false, by simp⟩
  | cons e left =>
      by_cases sign : e = c
      · exact ⟨true, by simp [sign]⟩
      · exact ⟨false, by simp [sign]⟩

/-- A letter after `</` begins an end tag. -/
theorem scanContent_endTag {d : Char} (letter : d.isAlpha) (more : List Char) :
    scanContent '<' ('/' :: d :: more) =
      ⟨.tagClose, extentWhile (fun e => e != '>' && e != '<') (d :: more) +
        (if ((d :: more).drop (extentWhile (fun e => e != '>' && e != '<') (d :: more))).head? =
          some '>' then 1 else 0) + 1, .content⟩ := by
  have comment : "<!--".toList.isPrefixOf ('<' :: '/' :: d :: more) = false := rfl
  have doctype : startsIgnoringCase "<!doctype" ('<' :: '/' :: d :: more) = false := rfl
  have cdata : "<![CDATA[".toList.isPrefixOf ('<' :: '/' :: d :: more) = false := rfl
  have markup : startsMarkup ('<' :: '/' :: d :: more) = true := by simp [startsMarkup]
  simp only [scanContent, comment, doctype, cdata, markup, Bool.false_eq_true, if_false,
    if_true, letter, Nat.add_comm 1, List.drop_succ_cons, List.drop_zero]
  congr 1
  omega

/-- An end tag reaches up to the next `>` or `<`, and takes in the `>`. -/
theorem scanContent_tagClose {d : Char} (letter : d.isAlpha) (more : List Char) :
    ∃ sign : Bool, (scanContent '<' ('/' :: d :: more)).kind = .tagClose ∧
      '<' :: ('/' :: d :: more).take (scanContent '<' ('/' :: d :: more)).more =
        '<' :: '/' :: ((d :: more).takeWhile (fun c => c != '>' && c != '<') ++
          if sign then ['>'] else []) := by
  obtain ⟨sign, taken⟩ := take_extentWhile_sign (fun e => e != '>' && e != '<') (d :: more) '>'
  rw [scanContent_endTag letter]
  exact ⟨sign, rfl, by rw [List.take_succ_cons, taken]⟩

/-- Where text that is no markup stops by a name, the scan makes an end tag of that name. -/
theorem scanContent_endsRaw {name : List Char} {c : Char} {rest : List Char}
    (letters : ∀ c ∈ name, c.isAlpha) (some_ : name ≠ []) (ends : endsRaw name (c :: rest)) :
    (scanContent c rest).kind = .tagClose ∧
      Builder.endTagName (c :: rest.take (scanContent c rest).more) = lowerAscii name := by
  obtain ⟨word, tail, same, spelled, isWord, stop⟩ := endsRaw_spec ends letters
  obtain ⟨rfl, rfl⟩ := List.cons.inj same
  cases word with
  | nil => exact absurd (List.map_eq_nil_iff.mp spelled.symm) some_
  | cons d word =>
      obtain ⟨sign, kind, text⟩ :=
        scanContent_tagClose (isWord d List.mem_cons_self) (word ++ tail)
      refine ⟨kind, ?_⟩
      rw [List.cons_append, text]
      have own := endTagName_eq isWord (List.cons_ne_nil d word) stop sign
      rw [List.cons_append] at own
      rw [own, spelled]

/-! ## Framed markup -/

/-- The end tag of a `style` element comes next, or nothing. -/
def Closes : List Markup → Prop
  | [] => True
  | .single t :: _ => EndsStyle t
  | .tag .. :: _ => False

/-- What may come inside an open `style` element: a raw text, and then nothing but its end. -/
def Awaits : List Markup → Prop
  | [] => True
  | .single t :: pieces => t.kind = .rawText ∧ Closes pieces ∨ EndsStyle t
  | .tag .. :: _ => False

theorem Closes.awaits {pieces : List Markup} (closes : Closes pieces) : Awaits pieces := by
  cases pieces with
  | nil => trivial
  | cons piece pieces =>
      cases piece with
      | tag name parts close => exact closes
      | single t => exact .inr closes

/-- A start tag of a `style` element, neither broken off nor closed by itself. -/
def Markup.OpensStyle : Markup → Prop
  | .tag head _ (some e) =>
    lowerAscii (head.text.drop 1) = styleName ∧ e.kind ≠ .selfClosingTagEnd
  | _ => False

/-- Every `style` element holds a raw text at most. -/
def Framed : List Markup → Prop
  | [] => True
  | piece :: pieces => (piece.OpensStyle → Awaits pieces) ∧ Framed pieces

theorem ofTokens_single {t : Token TokenKind} (other : t.kind ≠ .tagOpen) (ts : List (Token TokenKind)) :
    Markup.ofTokens (t :: ts) = .single t :: Markup.ofTokens ts := by
  rw [Markup.ofTokens, if_neg other]

/-- A name that opens a tag is put together with what belongs to it. -/
theorem Markup.ofTokens_tagOpen {t : Token TokenKind} (opens : t.kind = .tagOpen)
    (ts : List (Token TokenKind)) :
    ∃ parts close rest, ofTokens (t :: ts) = .tag t parts close :: rest := by
  rw [ofTokens, if_pos opens]
  split
  · exact ⟨_, _, _, rfl⟩
  · split <;> exact ⟨_, _, _, rfl⟩

section Grouping

variable {head e : Token TokenKind} {parts more : List (Token TokenKind)}

theorem isTagPart_of_isTagEnd (ends : isTagEnd e) : isTagPart e = false := by
  simp only [isTagEnd, Bool.or_eq_true, beq_iff_eq] at ends
  rcases ends with kind | kind <;> simp [isTagPart, kind]

theorem isTagPart_of_left (left : ts.dropWhile isTagPart = e :: more) : isTagPart e = false := by
  have stops := List.head?_dropWhile_not isTagPart ts
  rwa [left] at stops

/-- A name takes the parts that follow it, and the sign that ends the tag, if it comes next. -/
theorem Markup.ofTokens_group (opens : head.kind = .tagOpen) (inside : ∀ t ∈ parts, isTagPart t)
    (stops : ∀ t ∈ more.head?, isTagPart t = false) :
    ofTokens (head :: (parts ++ more)) = .tag head parts (more.head?.filter isTagEnd) ::
      ofTokens (if more.head?.any isTagEnd then more.tail else more) := by
  have taken : (parts ++ more).takeWhile isTagPart = parts := by
    rw [List.takeWhile_append_of_pos inside]
    cases more with
    | nil => simp
    | cons e more => simp [stops e rfl]
  have left : (parts ++ more).dropWhile isTagPart = more := by
    rw [List.dropWhile_append_of_pos inside]
    cases more with
    | nil => simp
    | cons e more => simp [stops e rfl]
  rw [ofTokens, if_pos opens]
  split
  next none_ =>
    obtain rfl : more = [] := left.symm.trans none_
    rw [taken]
    simp [ofTokens]
  next e rest same =>
    obtain rfl : more = e :: rest := left.symm.trans same
    rw [taken]
    by_cases ends : isTagEnd e <;> simp [ends, Option.filter]

/-- A tag that has the sign that ends it. -/
theorem Markup.ofTokens_closed (opens : head.kind = .tagOpen) (inside : ∀ t ∈ parts, isTagPart t)
    (ends : isTagEnd e) :
    ofTokens (head :: (parts ++ e :: more)) = .tag head parts (some e) :: ofTokens more := by
  rw [ofTokens_group opens inside (by rintro t ⟨⟩; exact isTagPart_of_isTagEnd ends)]
  simp [Option.filter, ends]

/-- A tag that is broken off. -/
theorem Markup.ofTokens_broken (opens : head.kind = .tagOpen) (inside : ∀ t ∈ parts, isTagPart t)
    (stops : ∀ t ∈ more.head?, isTagPart t = false ∧ isTagEnd t = false) :
    ofTokens (head :: (parts ++ more)) = .tag head parts none :: ofTokens more := by
  rw [ofTokens_group opens inside fun t first => (stops t first).1]
  cases more with
  | nil => rfl
  | cons e more => simp [Option.filter, (stops e rfl).2]

/-- A start tag that is broken off. -/
def Markup.isBroken : Markup → Bool
  | .tag _ _ none => true
  | _ => false

/-- Tokens are put together apart from those before them, if no start tag is broken off there or if
they begin with no part and no end of one. -/
theorem Markup.ofTokens_append_of_apart
    (apart : (∀ piece ∈ (ofTokens ts).getLast?, piece.isBroken = false) ∨
      ∀ t ∈ more.head?, isTagPart t = false ∧ isTagEnd t = false) :
    ofTokens (ts ++ more) = ofTokens ts ++ ofTokens more := by
  fun_induction ofTokens ts with
  | case1 => rfl
  | case2 t ts opens parts ended =>
      have stops := apart.resolve_left fun whole => Bool.noConfusion (whole _ rfl)
      have inside : ∀ u ∈ ts, isTagPart u := List.dropWhile_eq_nil_iff.mp ended
      have all : parts = ts := List.takeWhile_eq_self_iff.mpr inside
      rw [List.cons_append, ofTokens_broken opens inside stops, all]
      rfl
  | case3 t ts opens parts e rest left closes ih =>
      have whole : ts ++ more = parts ++ e :: (rest ++ more) := by
        rw [← List.cons_append, ← left, ← List.append_assoc, List.takeWhile_append_dropWhile]
      have inside : ∀ u ∈ parts, isTagPart u := fun u member => List.mem_takeWhile_imp member
      rw [List.cons_append, whole, ofTokens_closed opens inside closes,
        ih (apart.imp_left fun whole piece last => whole piece (List.mem_getLast?_cons last))]
      rfl
  | case4 t ts opens parts e rest left other ih =>
      have whole : ts ++ more = parts ++ (e :: rest ++ more) := by
        rw [← left, ← List.append_assoc, List.takeWhile_append_dropWhile]
      have inside : ∀ u ∈ parts, isTagPart u := fun u member => List.mem_takeWhile_imp member
      have first : ∀ u ∈ (e :: rest ++ more).head?, isTagPart u = false ∧ isTagEnd u = false := by
        rintro u ⟨⟩
        exact ⟨isTagPart_of_left left, Bool.eq_false_of_not_eq_true other⟩
      rw [List.cons_append, whole, ofTokens_broken opens inside first,
        ih (apart.imp_left fun whole piece last => whole piece (List.mem_getLast?_cons last))]
      rfl
  | case5 t ts other ih =>
      rw [List.cons_append, ofTokens_single other, List.cons_append,
        ih (apart.imp_left fun whole piece last => whole piece (List.mem_getLast?_cons last))]

/-- What no part and no end of a tag begins is put together by itself, whatever stands before it. -/
theorem Markup.ofTokens_append
    (stops : ∀ t ∈ more.head?, isTagPart t = false ∧ isTagEnd t = false) :
    ofTokens (ts ++ more) = ofTokens ts ++ ofTokens more :=
  ofTokens_append_of_apart (.inr stops)

end Grouping

/-- Where the raw text stops, the end tag comes, or nothing is left. -/
theorem closes_cut {cs : List Char} (stop : cs = [] ∨ endsRaw styleName cs) (p : Position) :
    Closes (Markup.ofTokens (locate p (cut scan .content cs))) := by
  cases cs with
  | nil =>
      rw [cut_nil, locate, Markup.ofTokens]
      trivial
  | cons c rest =>
      rcases stop with none_ | ends
      · cases none_
      · have letters : ∀ c ∈ styleName, c.isAlpha := List.all_eq_true.mp rfl
        obtain ⟨kind, name⟩ := scanContent_endsRaw letters (by decide) ends
        rw [cut_cons, locate, ofTokens_single]
        · exact ⟨kind, name⟩
        · show (scanContent c rest).kind ≠ .tagOpen
          rw [kind]
          decide

/-- By the name `style` the lexer goes on with a raw text, and then with the end tag. -/
theorem Lexed.awaits (lexed : Lexed (.raw styleName .rawText) ts) : Awaits (Markup.ofTokens ts) := by
  obtain ⟨-, p, cs, rfl⟩ := lexed
  have stop := extentUntil_stop (endsRaw styleName) cs
  cases cs with
  | nil =>
      rw [cut_nil, locate, Markup.ofTokens]
      trivial
  | cons c rest =>
      cases extent : extentUntil (endsRaw styleName) (c :: rest) with
      | zero =>
          rw [extent, List.drop_zero] at stop
          have same : cut scan (.raw styleName .rawText) (c :: rest) = cut scan .content (c :: rest) := by
            have scanned : scan (.raw styleName .rawText) c rest = scanContent c rest := by
              rw [scan, extent]
            rw [cut_cons, cut_cons, scanned]
            rfl
          rw [same]
          exact (closes_cut stop p).awaits
      | succ more =>
          rw [extent, List.drop_succ_cons] at stop
          have scanned : scan (.raw styleName .rawText) c rest = ⟨.rawText, more, .content⟩ := by
            rw [scan, extent]
          rw [cut_cons, locate, scanned, ofTokens_single]
          · exact .inl ⟨rfl, closes_cut stop _⟩
          · show TokenKind.rawText ≠ .tagOpen
            decide

/-- **Every page is framed.** The induction follows the grouping of the tokens. -/
theorem framed_of_lexed (lexed : ∃ mode, Lexed mode ts) : Framed (Markup.ofTokens ts) := by
  fun_induction Markup.ofTokens ts with
  | case1 => trivial
  | case2 t ts opens parts ended => exact ⟨False.elim, trivial⟩
  | case3 t ts opens parts e rest left closes ih =>
      obtain ⟨mode, lexed⟩ := lexed
      have inTag := lexed.after_tagOpen opens
      obtain ⟨next, after⟩ := inTag.dropWhile isTagPart
      rw [left] at after
      refine ⟨?_, ih after.tail⟩
      rintro ⟨name, lasting⟩
      have ends : e.kind = .tagEnd := by simpa [isTagEnd, lasting] using closes
      obtain ⟨name', same, read⟩ := inTag.after_tagEnd left ends
      rw [name] at same
      rw [← Mode.tag.inj same] at read
      exact read.awaits
  | case4 t ts opens parts e rest left other ih =>
      obtain ⟨mode, lexed⟩ := lexed
      have after := (lexed.after_tagOpen opens).dropWhile isTagPart
      rw [left] at after
      exact ⟨False.elim, ih after⟩
  | case5 t ts other ih =>
      obtain ⟨mode, lexed⟩ := lexed
      exact ⟨False.elim, ih lexed.tail⟩

/-! ## Raw texts -/

/-- Whether a token is a raw text. -/
def isRawText (t : Token TokenKind) : Bool := t.kind == .rawText

/-- Two raw texts never touch: a token that is none lies between them. -/
theorem Lexed.rawTexts_apart {g : Passage} (lexed : Lexed mode ts) (reads : g.Reads ts)
    (nonempty : ∀ t ∈ ts, t.span.start.offset < t.span.finish.offset) :
    (ts.filter isRawText).Pairwise fun t u => t.span.finish.offset < u.span.start.offset := by
  induction ts generalizing mode with
  | nil => exact .nil
  | cons t ts ih =>
      obtain ⟨next, tail⟩ := lexed.tail
      have later := ih tail (reads.sublist (List.sublist_cons_self _ _))
        (List.forall_mem_cons.mp nonempty).2
      rw [List.filter_cons]
      split
      next raw =>
        refine List.pairwise_cons.mpr ⟨?_, later⟩
        have content := lexed.after_rawText (by simpa [isRawText] using raw)
        intro v member
        obtain ⟨found, isRaw⟩ := List.mem_filter.mp member
        obtain ⟨first, others⟩ := List.pairwise_cons.mp reads.ordered
        cases ts with
        | nil => cases found
        | cons u us =>
            rcases List.mem_cons.mp found with rfl | inside
            · exact absurd (by simpa [isRawText] using isRaw) content.first_of_content
            · calc t.span.finish.offset ≤ u.span.start.offset := first u List.mem_cons_self
                _ < u.span.finish.offset := nonempty u (by simp)
                _ ≤ v.span.start.offset := (List.pairwise_cons.mp others).1 v inside
      next => exact later

end Html

end PageLint
