/-
# PageLint.Proofs.Html.Lookahead — how far a piece looks beyond its end

A piece of a page ends where it does because of what follows it, but it sees little of that: an
attribute sees whether a `=` comes next, a text sees the markup that ends it, an end tag that is
broken off sees a `<`, and what is closed by a sign of its own sees nothing. `Mode.Alike` says when
two texts look the same from a piece that ends before them, by the mode in which they are read.
Then the piece is cut the same before both (`scan_alike`), and so is all that stands before it
(`Cuts.alike`): pieces in front of an edit do not change with it.
-/
import PageLint.Proofs.Html.Lexer
import PageLint.Proofs.Html.StartTags

namespace PageLint

set_option autoImplicit false

open Text

namespace Text

/-! ## Measures that end before a text -/

variable {p : Char → Bool} {stop : List Char → Bool} {close word part rest more : List Char}

theorem extentWhile_eq_length (whole : extentWhile p (part ++ rest) = part.length) :
    (∀ c ∈ part, p c) ∧ ∀ c ∈ rest.head?, p c = false := by
  induction part with
  | nil =>
      refine ⟨by simp, ?_⟩
      intro c first
      obtain ⟨tail, rfl⟩ := List.head?_eq_some_iff.mp first
      by_contra holds
      rw [List.nil_append, extentWhile_cons (by simpa using holds)] at whole
      cases whole
  | cons c part ih =>
      by_cases holds : p c
      · rw [List.cons_append, extentWhile_cons holds] at whole
        obtain ⟨inside, stops⟩ := ih (by simpa using whole)
        exact ⟨List.forall_mem_cons.mpr ⟨holds, inside⟩, stops⟩
      · simp [extentWhile, holds] at whole

/-- A run that ends within a part of the text ends there whatever follows. -/
theorem extentWhile_within (within : extentWhile p (part ++ rest) < part.length)
    (more : List Char) : extentWhile p (part ++ more) = extentWhile p (part ++ rest) := by
  induction part with
  | nil => simp at within
  | cons c part ih =>
      by_cases holds : p c
      · rw [List.cons_append, extentWhile_cons holds, List.length_cons] at within
        rw [List.cons_append, List.cons_append, extentWhile_cons holds, extentWhile_cons holds,
          ih (by omega)]
      · simp [extentWhile, holds]

theorem extentUntil_eq_length (whole : extentUntil stop (part ++ rest) = part.length) :
    (∀ back, back <:+ part → back ≠ [] → stop (back ++ rest) = false) ∧
      (rest = [] ∨ stop rest) := by
  induction part with
  | nil =>
      refine ⟨fun back ends some_ => absurd (List.suffix_nil.mp ends) some_, ?_⟩
      cases rest with
      | nil => exact .inl rfl
      | cons c rest =>
          right
          by_contra goes
          simp [extentUntil, goes] at whole
  | cons c part ih =>
      by_cases here : stop (c :: part ++ rest)
      · rw [List.cons_append] at here whole
        simp [extentUntil, here] at whole
      · rw [List.cons_append] at here
        have later : extentUntil stop (part ++ rest) = part.length := by
          simpa [extentUntil, here] using whole
        obtain ⟨goes, stops⟩ := ih later
        refine ⟨?_, stops⟩
        intro back ends some_
        rcases List.suffix_cons_iff.mp ends with rfl | inside
        · simpa using here
        · exact goes back inside some_

/-- A closing mark that is found within a part of the text is found there whatever follows. -/
theorem extentThrough_within (mark : close ≠ []) (some_ : rest ≠ [])
    (within : extentThrough close (part ++ rest) ≤ part.length) (more : List Char) :
    extentThrough close (part ++ more) = extentThrough close (part ++ rest) ∧
      close <:+: part := by
  induction part with
  | nil =>
      cases rest with
      | nil => exact absurd rfl some_
      | cons c rest =>
          have positive : 0 < extentThrough close (c :: rest) := extentThrough_pos mark
          rw [List.nil_append, List.length_nil] at within
          omega
  | cons c part ih =>
      rw [List.cons_append, List.cons_append, extentThrough, extentThrough] at *
      by_cases here : close.isPrefixOf (c :: (part ++ rest))
      · rw [if_pos here] at within ⊢
        have leads : close <+: c :: part :=
          List.prefix_of_prefix_length_le (List.isPrefixOf_iff_prefix.mp here)
            (List.prefix_append (c :: part) rest) within
        have there : close.isPrefixOf (c :: (part ++ more)) :=
          List.isPrefixOf_iff_prefix.mpr (leads.trans (List.prefix_append (c :: part) more))
        exact ⟨if_pos there, leads.isInfix⟩
      · rw [if_neg here, List.length_cons] at within
        obtain ⟨same, inside⟩ := ih (by omega)
        have there : ¬ close.isPrefixOf (c :: (part ++ more)) := by
          intro leads
          have short : close.length ≤ (c :: part).length :=
            inside.length_le.trans (Nat.le_succ _)
          have own : close <+: c :: part :=
            List.prefix_of_prefix_length_le (List.isPrefixOf_iff_prefix.mp leads)
              (List.prefix_append (c :: part) more) short
          exact here (List.isPrefixOf_iff_prefix.mpr (own.trans (List.prefix_append _ rest)))
        rw [if_neg here, if_neg there, same]
        exact ⟨rfl, inside.trans (List.suffix_cons c part).isInfix⟩

/-- A word begins a text or not whatever follows, once the text is as long or holds a character
that the word does not. -/
theorem prefix_append_iff {c : Char} (decided : word.length ≤ part.length ∨ c ∈ part ∧ c ∉ word)
    (rest : List Char) : word <+: part ++ rest ↔ word <+: part := by
  refine ⟨fun leads => ?_, fun leads => leads.trans (List.prefix_append _ _)⟩
  rcases List.prefix_or_prefix_of_prefix leads (List.prefix_append part rest) with own | longer
  · exact own
  · rcases decided with short | ⟨inside, outside⟩
    · exact (List.prefix_of_prefix_length_le leads (List.prefix_append _ _) short)
    · exact absurd (longer.subset inside) outside

theorem isPrefixOf_alike {c : Char} (decided : word.length ≤ part.length ∨ c ∈ part ∧ c ∉ word)
    (rest more : List Char) : word.isPrefixOf (part ++ more) = word.isPrefixOf (part ++ rest) := by
  rw [Bool.eq_iff_iff, List.isPrefixOf_iff_prefix, List.isPrefixOf_iff_prefix,
    prefix_append_iff decided, prefix_append_iff decided]

theorem startsIgnoringCase_alike {c : Char} (small : c.toLower = c)
    (decided : word.length ≤ part.length ∨ c ∈ part ∧ c ∉ lowerAscii word) (rest more : List Char) :
    startsIgnoringCase word (part ++ more) = startsIgnoringCase word (part ++ rest) := by
  have decided' : (lowerAscii word).length ≤ (lowerAscii part).length ∨
      c ∈ lowerAscii part ∧ c ∉ lowerAscii word :=
    decided.imp (fun short => by simpa [lowerAscii] using short)
      fun ⟨inside, outside⟩ => ⟨List.mem_map.mpr ⟨c, inside, small⟩, outside⟩
  have parted : ∀ more, lowerAscii (part ++ more) = lowerAscii part ++ lowerAscii more :=
    fun more => List.map_append
  rw [Bool.eq_iff_iff, startsIgnoringCase_iff, startsIgnoringCase_iff, parted, parted,
    prefix_append_iff decided', prefix_append_iff decided']

end Text

namespace Html

/-! ## What a piece sees of the text behind it -/

/-- A mode that the lexer can be in: raw text is that of an element whose content is no markup. -/
def Mode.Proper : Mode → Prop
  | .raw name kind => name ∈ unparsedElements ∧ (kind = .rawText ∨ kind = .text)
  | _ => True

/-- Two texts look the same from a piece that ends before them, by the mode in which they are
read. Between tags, what ends a text or an end tag that is broken off still does so. In a start
tag they begin with the same character, and neither goes on with an assignment that the other
lacks. -/
def Mode.Alike : Mode → List Char → List Char → Prop
  | .head, _, _ => True
  | .content, y, z => y ≠ [] ∧ (startsMarkup y → AtMarkup z) ∧
      (y.head? = some '<' → ∀ c ∈ z.head?, c = '<') ∧
      ∀ name ∈ unparsedElements, endsRaw name y → endsRaw name z
  | .tag _, y, z => y ≠ [] ∧ z.head? = y.head? ∧ (assignmentExtent y = 0 → assignmentExtent z = 0)
  | .raw _ _, y, _ => y ≠ []

variable {mode next : Mode} {kind : TokenKind} {c : Char} {name tail y z : List Char}

theorem Mode.Proper.holdsText (proper : mode.Proper) : mode.HoldsText := by
  cases mode with
  | raw name kind => exact proper.2
  | _ => trivial

theorem modeAfterTag_proper (name : List Char) : (modeAfterTag name).Proper := by
  by_cases parsed : name ∈ unparsedElements
  · obtain ⟨kind, text, mode⟩ := modeAfterTag_unparsed parsed
    rw [mode]
    exact ⟨parsed, text⟩
  · rw [modeAfterTag_parsed parsed]
    trivial

theorem scanContent_proper (c : Char) (rest : List Char) : (scanContent c rest).state.Proper := by
  simp only [scanContent]
  repeat' split
  all_goals trivial

theorem scan_proper (mode : Mode) (c : Char) (rest : List Char) :
    (scan mode c rest).state.Proper := by
  cases mode with
  | head =>
      rw [scan]
      split
      · trivial
      · exact scanContent_proper c rest
  | content => exact scanContent_proper c rest
  | tag name =>
      rw [scan]
      split
      · exact scanContent_proper c rest
      · simp only [scanTag]
        repeat' split
        all_goals first | exact modeAfterTag_proper name | trivial
  | raw name kind =>
      rw [scan]
      split
      · exact scanContent_proper c rest
      · trivial

/-! ## Between tags -/

theorem startsMarkup_eq_false_of_ne (other : c ≠ '<') (rest : List Char) :
    startsMarkup (c :: rest) = false := by
  simpa using fun markup => other (eq_lt_of_startsMarkup markup)

/-- What begins no markup is a text. -/
theorem scanContent_text (plain : startsMarkup (c :: tail) = false) :
    scanContent c tail = ⟨.text, extentUntil startsMarkup tail, .content⟩ := by
  by_cases sign : c = '<'
  · subst sign
    have leads : ∀ word : List Char, '!' :: word <+: tail → False := by
      rintro word ⟨more, rfl⟩
      simp [startsMarkup] at plain
    have comment : "<!--".toList.isPrefixOf ('<' :: tail) = false := by
      rw [Bool.eq_false_iff, ne_eq, List.isPrefixOf_iff_prefix]
      exact fun begins => leads "--".toList (List.cons_prefix_cons.mp begins).2
    have cdata : "<![CDATA[".toList.isPrefixOf ('<' :: tail) = false := by
      rw [Bool.eq_false_iff, ne_eq, List.isPrefixOf_iff_prefix]
      exact fun begins => leads "[CDATA[".toList (List.cons_prefix_cons.mp begins).2
    have doctype : startsIgnoringCase "<!doctype" ('<' :: tail) = false := by
      cases tail with
      | nil => rfl
      | cons d tail =>
          have other : '!' ≠ d.toLower := by
            intro same
            obtain rfl := eq_of_toLower_eq same.symm rfl
            exact leads [] ⟨tail, rfl⟩
          simp [startsIgnoringCase, other]
    simp only [scanContent, comment, doctype, cdata, plain, Bool.false_eq_true, if_false]
  · exact scanContent_plain sign tail

/-- A text that ends before markup goes on up to it whatever the markup is. -/
theorem startsMarkup_before {back : List Char} (some_ : back ≠ [])
    (goes : startsMarkup (back ++ y) = false) (stops : AtMarkup z) :
    startsMarkup (back ++ z) = false := by
  match back with
  | [] => exact absurd rfl some_
  | [b] =>
      cases z with
      | nil => simp [startsMarkup]
      | cons d z =>
          have sign : d = '<' := by
            rcases stops with none_ | markup
            · cases none_
            · exact eq_lt_of_startsMarkup markup
          subst sign
          by_cases first : b = '<'
          · rw [first]
            rfl
          · exact startsMarkup_eq_false_of_ne first _
  | b :: d :: back =>
      by_cases first : b = '<'
      · subst first
        exact goes
      · exact startsMarkup_eq_false_of_ne first _

/-- Markup takes more than its first character. -/
theorem scanContent_more_pos (markup : startsMarkup (c :: tail)) :
    0 < (scanContent c tail).more := by
  obtain rfl := eq_lt_of_startsMarkup markup
  cases tail with
  | nil => simp [startsMarkup] at markup
  | cons d tail =>
      have through : 0 < extentThrough ">" (d :: tail) := extentThrough_pos (by decide)
      by_cases letter : d.isAlpha
      · have run : (!endsTagName d) = true := by
          rw [(endsAttributeName_eq_false_iff.mp (endsAttributeName_of_isAlpha letter)).1]
          rfl
        rw [scanContent_startTag letter, extentWhile_cons run]
        exact Nat.succ_pos _
      · simp only [scanContent, markup]
        repeat' split
        all_goals first | exact through | (dsimp only; omega) | simp_all

/-- An end tag that ends before a text ends there before any text that looks the same. -/
theorem endTag_alike {word : List Char}
    (whole : extentWhile (fun e => e != '>' && e != '<') (word ++ y) +
      (if ((word ++ y).drop (extentWhile (fun e => e != '>' && e != '<') (word ++ y))).head? =
        some '>' then 1 else 0) = word.length)
    (some_ : y ≠ []) (open_ : y.head? = some '<' → ∀ c ∈ z.head?, c = '<') :
    extentWhile (fun e => e != '>' && e != '<') (word ++ z) +
      (if ((word ++ z).drop (extentWhile (fun e => e != '>' && e != '<') (word ++ z))).head? =
        some '>' then 1 else 0) = word.length := by
  by_cases within : extentWhile (fun e => e != '>' && e != '<') (word ++ y) < word.length
  · rw [List.head?_drop, List.getElem?_append_left within] at whole
    rw [extentWhile_within within, List.head?_drop, List.getElem?_append_left within]
    exact whole
  · have length : extentWhile (fun e => e != '>' && e != '<') (word ++ y) = word.length := by
      omega
    rw [length, List.drop_left] at whole
    have noClose : y.head? ≠ some '>' := by
      intro close
      rw [if_pos close] at whole
      omega
    obtain ⟨inside, stops⟩ := extentWhile_eq_length length
    have first : y.head? = some '<' := by
      cases y with
      | nil => exact absurd rfl some_
      | cons d y =>
          have sign := stops d rfl
          have other : d ≠ '>' := fun same => noClose (congrArg some same)
          have same : d = '<' := by simpa [other] using sign
          exact congrArg some same
    have stops' : ∀ c ∈ z.head?, (c != '>' && c != '<') = false := by
      intro c member
      rw [open_ first c member]
      rfl
    rw [extentWhile_append_stop inside stops', List.drop_left, if_neg]
    · rfl
    · intro close
      cases open_ first '>' close

/-- What a scan between tags answers where markup begins, by its first characters. -/
theorem scanContent_bogus (comment : "<!--".toList.isPrefixOf ('<' :: tail) = false)
    (doctype : startsIgnoringCase "<!doctype" ('<' :: tail) = false)
    (cdata : "<![CDATA[".toList.isPrefixOf ('<' :: tail) = false)
    (markup : startsMarkup ('<' :: tail)) (noName : ∀ d ∈ tail.head?, d.isAlpha = false)
    (noEnd : ∀ d more, tail = '/' :: d :: more → d.isAlpha = false)
    (some_ : tail ≠ ['/']) :
    scanContent '<' tail = ⟨.unknown, extentThrough ">" tail, .content⟩ := by
  simp only [scanContent, comment, doctype, cdata, markup, Bool.false_eq_true, if_false, if_true]
  split
  next d more => rw [if_neg (by simp [noEnd d more rfl])]
  next d more _ => rw [if_neg (by simp [noName d rfl])]
  next => simp [startsMarkup] at markup

/-- The name of a start tag ends at the same place. -/
theorem startTag_alike {d : Char} (letter : d.isAlpha)
    (scanned : scanContent '<' (d :: tail ++ y) = ⟨kind, (d :: tail).length, next⟩)
    (alike : next.Alike y z) :
    scanContent '<' (d :: tail ++ z) = ⟨kind, (d :: tail).length, next⟩ := by
  rw [List.cons_append, scanContent_startTag letter, ← List.cons_append] at scanned
  obtain ⟨rfl, length, rfl⟩ := Scan.mk.inj scanned
  obtain ⟨inside, stops⟩ := extentWhile_eq_length length
  have stops' : ∀ c ∈ z.head?, (!endsTagName c) = false := by
    rw [alike.2.1]
    exact stops
  rw [List.cons_append, scanContent_startTag letter, ← List.cons_append,
    extentWhile_append_stop inside stops', takeWhile_append_stop inside stops',
    takeWhile_append_stop inside stops]

/-- An end tag takes in a letter at least, and goes on up to the next `>` or `<`. -/
theorem closing_word {e : Char} {more : List Char} (whole : tail ++ y = e :: more)
    (letter : e.isAlpha)
    (scanned : scanContent '<' ('/' :: (tail ++ y)) = ⟨kind, tail.length + 1, next⟩) :
    (∃ word, tail = e :: word) ∧ kind = .tagClose ∧ next = .content ∧
      extentWhile (fun e => e != '>' && e != '<') (tail ++ y) +
        (if ((tail ++ y).drop (extentWhile (fun e => e != '>' && e != '<') (tail ++ y))).head? =
          some '>' then 1 else 0) = tail.length := by
  rw [whole, scanContent_endTag letter, ← whole] at scanned
  obtain ⟨rfl, length, rfl⟩ := Scan.mk.inj scanned
  refine ⟨?_, rfl, rfl, Nat.succ.inj length⟩
  cases tail with
  | nil =>
      have first : (e != '>' && e != '<') = true := by
        obtain ⟨-, close, open_⟩ := ne_signs_of_isAlpha letter
        simp [close, open_]
      have length' := Nat.succ.inj length
      rw [whole, extentWhile_cons first] at length'
      simp at length'
  | cons f tail =>
      obtain ⟨rfl, -⟩ := List.cons.inj whole
      exact ⟨tail, rfl⟩

/-- An end tag ends at the same place. -/
theorem closing_alike {d e : Char} {more : List Char} (same : d :: (tail ++ y) = '/' :: e :: more)
    (letter : e.isAlpha)
    (scanned : scanContent '<' (d :: tail ++ y) = ⟨kind, (d :: tail).length, next⟩)
    (alike : next.Alike y z) :
    scanContent '<' (d :: tail ++ z) = ⟨kind, (d :: tail).length, next⟩ := by
  obtain ⟨rfl, whole⟩ := List.cons.inj same
  obtain ⟨⟨word, rfl⟩, rfl, rfl, length⟩ := closing_word whole letter scanned
  have found := endTag_alike length alike.1 alike.2.2.1
  rw [List.cons_append] at found
  rw [List.cons_append, List.cons_append, scanContent_endTag letter, found]
  rfl

/-- A comment or markup of no use is closed at the same place. -/
theorem bogus_alike {d : Char} (markup : startsMarkup ('<' :: (d :: tail ++ y)))
    (noName : d.isAlpha = false) (noEnd : ∀ e more, d :: (tail ++ y) = '/' :: e :: more →
      e.isAlpha = false)
    (scanned : scanContent '<' (d :: tail ++ y) = ⟨kind, (d :: tail).length, next⟩)
    (some_ : y ≠ []) :
    scanContent '<' (d :: tail ++ z) = ⟨kind, (d :: tail).length, next⟩ := by
  let part := '<' :: d :: tail
  have whole : ∀ more, '<' :: (d :: tail ++ more) = part ++ more := fun more => rfl
  by_cases comment : "<!--".toList.isPrefixOf (part ++ y)
  · have taken : scanContent '<' (d :: tail ++ y) =
        ⟨.comment, 3 + extentThrough "-->" ((d :: tail ++ y).drop 3), .content⟩ := by
      simp only [scanContent, whole, comment, if_true]
    rw [taken] at scanned
    obtain ⟨rfl, length, rfl⟩ := Scan.mk.inj scanned
    have long : 3 ≤ (d :: tail).length := by omega
    rw [List.drop_append_of_le_length long] at length
    have within : extentThrough "-->" ((d :: tail).drop 3 ++ y) ≤ ((d :: tail).drop 3).length := by
      rw [List.length_drop]
      omega
    obtain ⟨same, -⟩ := extentThrough_within (by decide) some_ within z
    have short : "<!--".toList.length ≤ part.length := Nat.succ_le_succ long
    have comment' : "<!--".toList.isPrefixOf (part ++ z) = true := by
      rw [isPrefixOf_alike (c := '<') (.inl short) y z, comment]
    simp only [scanContent, whole, comment', if_true, List.drop_append_of_le_length long, same,
      length]
  rw [Bool.not_eq_true] at comment
  by_cases cdata : "<![CDATA[".toList.isPrefixOf (part ++ y) ∧
      startsIgnoringCase "<!doctype" (part ++ y) = false
  · obtain ⟨cdata, doctype⟩ := cdata
    have taken : scanContent '<' (d :: tail ++ y) =
        ⟨.cdata, 8 + extentThrough "]]>" ((d :: tail ++ y).drop 8), .content⟩ := by
      simp only [scanContent, whole, comment, doctype, cdata, Bool.false_eq_true, if_false, if_true]
    rw [taken] at scanned
    obtain ⟨rfl, length, rfl⟩ := Scan.mk.inj scanned
    have long : 8 ≤ (d :: tail).length := by omega
    have short : "<![CDATA[".toList.length ≤ part.length := Nat.succ_le_succ long
    have short' : "<!doctype".toList.length ≤ part.length := Nat.succ_le_succ long
    have short'' : "<!--".toList.length ≤ part.length := le_trans (by decide) short
    rw [List.drop_append_of_le_length long] at length
    have within : extentThrough "]]>" ((d :: tail).drop 8 ++ y) ≤ ((d :: tail).drop 8).length := by
      rw [List.length_drop]
      omega
    obtain ⟨same, -⟩ := extentThrough_within (by decide) some_ within z
    have comment' : "<!--".toList.isPrefixOf (part ++ z) = false := by
      rw [isPrefixOf_alike (c := '<') (.inl short'') y z, comment]
    have doctype' : startsIgnoringCase "<!doctype" (part ++ z) = false := by
      rw [startsIgnoringCase_alike (c := '<') rfl (.inl short') y z, doctype]
    have cdata' : "<![CDATA[".toList.isPrefixOf (part ++ z) = true := by
      rw [isPrefixOf_alike (c := '<') (.inl short) y z, cdata]
    simp only [scanContent, whole, comment', doctype', cdata', Bool.false_eq_true, if_false,
      if_true, List.drop_append_of_le_length long, same, length]
  -- What is left is closed by a `>`, which no sign that opens a comment holds.
  have closed : ∀ {kind' : TokenKind}, scanContent '<' (d :: tail ++ y) =
      ⟨kind', extentThrough ">" (d :: tail ++ y), .content⟩ →
        '>' ∈ part ∧ kind = kind' ∧ next = .content ∧
          extentThrough ">" (d :: tail ++ z) = (d :: tail).length := by
    intro kind' taken
    rw [taken] at scanned
    obtain ⟨rfl, length, rfl⟩ := Scan.mk.inj scanned
    obtain ⟨same, inside⟩ := extentThrough_within (by decide) some_ length.le z
    refine ⟨?_, rfl, rfl, same.trans length⟩
    exact List.mem_cons_of_mem _ (inside.subset List.mem_cons_self)
  by_cases doctype : startsIgnoringCase "<!doctype" (part ++ y)
  · have taken : scanContent '<' (d :: tail ++ y) =
        ⟨.doctype, extentThrough ">" (d :: tail ++ y), .content⟩ := by
      simp only [scanContent, whole, comment, doctype, Bool.false_eq_true, if_false, if_true]
    obtain ⟨sign, rfl, rfl, length⟩ := closed taken
    have comment' : "<!--".toList.isPrefixOf (part ++ z) = false := by
      rw [isPrefixOf_alike (.inr ⟨sign, by decide⟩) y z, comment]
    have doctype' : startsIgnoringCase "<!doctype" (part ++ z) = true := by
      rw [startsIgnoringCase_alike rfl (.inr ⟨sign, by decide⟩) y z, doctype]
    simp only [scanContent, whole, comment', doctype', Bool.false_eq_true, if_false, if_true,
      length]
  · rw [Bool.not_eq_true] at doctype
    have cdata : "<![CDATA[".toList.isPrefixOf (part ++ y) = false := by
      rw [Bool.eq_false_iff]
      exact fun leads => cdata ⟨leads, doctype⟩
    have noName' : ∀ e ∈ (d :: tail ++ y).head?, e.isAlpha = false := by
      rintro e ⟨⟩
      exact noName
    have long : d :: tail ++ y ≠ ['/'] := by
      intro same
      obtain ⟨-, none_⟩ := List.cons.inj same
      exact some_ (List.append_eq_nil_iff.mp none_).2
    have taken := scanContent_bogus comment doctype cdata markup noName' noEnd long
    obtain ⟨sign, rfl, rfl, length⟩ := closed taken
    have comment' : "<!--".toList.isPrefixOf (part ++ z) = false := by
      rw [isPrefixOf_alike (.inr ⟨sign, by decide⟩) y z, comment]
    have doctype' : startsIgnoringCase "<!doctype" (part ++ z) = false := by
      rw [startsIgnoringCase_alike rfl (.inr ⟨sign, by decide⟩) y z, doctype]
    have cdata' : "<![CDATA[".toList.isPrefixOf (part ++ z) = false := by
      rw [isPrefixOf_alike (.inr ⟨sign, by decide⟩) y z, cdata]
    have noEnd' : ∀ e more, d :: tail ++ z = '/' :: e :: more → e.isAlpha = false := by
      intro e more same
      obtain ⟨rfl, left⟩ := List.cons.inj same
      cases tail with
      | nil => simp [part] at sign
      | cons f tail =>
          obtain ⟨rfl, -⟩ := List.cons.inj left
          exact noEnd f (tail ++ y) rfl
    have long' : d :: tail ++ z ≠ ['/'] := by
      intro same
      obtain ⟨rfl, none_⟩ := List.cons.inj same
      obtain ⟨rfl, -⟩ := List.append_eq_nil_iff.mp none_
      simp [part] at sign
    have taken' : scanContent '<' (d :: tail ++ z) =
        ⟨.unknown, extentThrough ">" (d :: tail ++ z), .content⟩ :=
      scanContent_bogus comment' doctype' cdata' markup (by rintro e ⟨⟩; exact noName) noEnd' long'
    rw [taken', length]

/-- A piece between tags does not end the text. -/
theorem some_of_alike (scanned : scanContent c (tail ++ y) = ⟨kind, tail.length, next⟩)
    (alike : next.Alike y z) : y ≠ [] := by
  have left : next = (scanContent c (tail ++ y)).state := by rw [scanned]
  cases leaves_scanContent .content c (tail ++ y) with
  | opens _ state =>
      rw [left, state] at alike
      exact alike.1
  | ends name mode _ _ => cases mode
  | raw name mode _ _ => cases mode
  | inside name mode _ _ => cases mode
  | plain state _ =>
      rw [left, state] at alike
      exact alike.1

/-- **A piece between tags is the same before texts that look the same from it.** -/
theorem scanContent_alike (scanned : scanContent c (tail ++ y) = ⟨kind, tail.length, next⟩)
    (alike : next.Alike y z) : scanContent c (tail ++ z) = ⟨kind, tail.length, next⟩ := by
  have some_ := some_of_alike scanned alike
  by_cases plain : startsMarkup (c :: (tail ++ y)) = false
  · rw [scanContent_text plain] at scanned
    obtain ⟨rfl, length, rfl⟩ := Scan.mk.inj scanned
    obtain ⟨goes, stops⟩ := extentUntil_eq_length length
    have stops' := alike.2.1 (stops.resolve_left some_)
    have plain' : startsMarkup (c :: (tail ++ z)) = false :=
      startsMarkup_before (List.cons_ne_nil c tail) plain stops'
    rw [scanContent_text plain', extentUntil_append ?_ stops']
    exact fun back ends some_ => startsMarkup_before some_ (goes back ends some_) stops'
  rw [Bool.not_eq_false] at plain
  obtain rfl := eq_lt_of_startsMarkup plain
  have positive := scanContent_more_pos plain
  rw [scanned] at positive
  cases tail with
  | nil => exact absurd positive (lt_irrefl 0)
  | cons d tail =>
      by_cases letter : d.isAlpha
      · exact startTag_alike letter scanned alike
      by_cases ends : ∃ e more, d :: (tail ++ y) = '/' :: e :: more ∧ e.isAlpha
      · obtain ⟨e, more, same, letter⟩ := ends
        exact closing_alike same letter scanned alike
      exact bogus_alike plain (by simpa using letter) (fun e more same => by
        by_contra letter
        exact ends ⟨e, more, same, by simpa using letter⟩) scanned some_

/-! ## Inside a start tag -/

/-- A run that ends before a text ends before any text that begins with the same character. -/
theorem extentWhile_alike {p : Char → Bool} (whole : extentWhile p (tail ++ y) = tail.length)
    (head : z.head? = y.head?) : extentWhile p (tail ++ z) = tail.length := by
  obtain ⟨inside, stops⟩ := extentWhile_eq_length whole
  refine extentWhile_append_stop inside ?_
  rw [head]
  exact stops

theorem valueExtent_alike (whole : valueExtent (tail ++ y) = tail.length) (some_ : y ≠ [])
    (head : z.head? = y.head?) (open_ : tail = [] → ∀ c ∈ y.head?, isBlank c = false) :
    valueExtent (tail ++ z) = tail.length := by
  cases tail with
  | nil =>
      cases y with
      | nil => exact absurd rfl some_
      | cons d y =>
          obtain ⟨z, rfl⟩ := List.head?_eq_some_iff.mp head
          have solid := open_ rfl d rfl
          by_cases quote : isQuote d
          · simp [valueExtent, quote] at whole
          · by_cases close : d = '>'
            · rw [close]
              rfl
            · simp [valueExtent, quote, extentWhile, close, solid] at whole
  | cons c tail =>
      rw [List.cons_append, valueExtent] at whole ⊢
      split at whole
      next quote =>
        rw [if_pos quote]
        have length : extentThrough [c] (tail ++ y) = tail.length := by
          rw [List.length_cons] at whole
          omega
        rw [(extentThrough_within (List.cons_ne_nil c []) some_ length.le z).1, length,
          List.length_cons, Nat.add_comm]
      next plain =>
        rw [if_neg plain]
        rw [← List.cons_append] at whole ⊢
        exact extentWhile_alike whole head

/-- A value is assigned where a `=` comes next. -/
theorem assignmentExtent_eq_zero_iff :
    assignmentExtent tail = 0 ↔ (tail.dropWhile isBlank).head? ≠ some '=' := by
  simp only [assignmentExtent, drop_extentWhile]
  cases tail.dropWhile isBlank with
  | nil => simp
  | cons d rest =>
      by_cases sign : d = '='
      · subst sign
        simp
      · simp [sign]

theorem dropWhile_of_stops {p : Char → Bool} (stops : ∀ c ∈ tail.head?, p c = false) :
    tail.dropWhile p = tail := by
  cases tail with
  | nil => rfl
  | cons c tail => rw [List.dropWhile_cons_of_neg (by simp [stops c rfl])]

theorem assignmentExtent_alike (whole : assignmentExtent (tail ++ y) = tail.length)
    (inside : tail ≠ []) (some_ : y ≠ []) (head : z.head? = y.head?) :
    assignmentExtent (tail ++ z) = tail.length := by
  simp only [assignmentExtent] at whole ⊢
  generalize gap : extentWhile isBlank (tail ++ y) = n at whole
  split at whole
  next afterSign left =>
    have short : n < tail.length := by omega
    rw [← gap] at short
    rw [extentWhile_within short, gap]
    rw [gap] at short
    rw [List.drop_append_of_le_length short.le] at left ⊢
    obtain ⟨value, signed⟩ : ∃ value, tail.drop n = '=' :: value := by
      cases back : tail.drop n with
      | nil => exact absurd back (by simpa using short)
      | cons d value =>
          rw [back] at left
          exact ⟨value, congrArg (· :: value) (List.cons.inj left).1⟩
    have length : n + (value.length + 1) = tail.length := by
      have total := congrArg List.length signed
      rw [List.length_drop, List.length_cons] at total
      omega
    rw [signed, List.cons_append] at left ⊢
    obtain ⟨-, rfl⟩ := List.cons.inj left
    have rest : extentWhile isBlank (value ++ y) +
        valueExtent ((value ++ y).drop (extentWhile isBlank (value ++ y))) = value.length := by
      omega
    suffices extentWhile isBlank (value ++ z) +
        valueExtent ((value ++ z).drop (extentWhile isBlank (value ++ z))) = value.length by
      show n + 1 + extentWhile isBlank (value ++ z) +
        valueExtent ((value ++ z).drop (extentWhile isBlank (value ++ z))) = tail.length
      omega
    by_cases within : extentWhile isBlank (value ++ y) < value.length
    · rw [extentWhile_within within]
      rw [List.drop_append_of_le_length within.le] at rest ⊢
      have length' : valueExtent (value.drop (extentWhile isBlank (value ++ y)) ++ y) =
          (value.drop (extentWhile isBlank (value ++ y))).length := by
        rw [List.length_drop]
        omega
      have open_ : value.drop (extentWhile isBlank (value ++ y)) = [] →
          ∀ c ∈ y.head?, isBlank c = false := by
        intro none_
        rw [List.drop_eq_nil_iff] at none_
        omega
      rw [valueExtent_alike length' some_ head open_, List.length_drop]
      omega
    · have margin : extentWhile isBlank (value ++ y) = value.length := by omega
      rw [extentWhile_alike margin head]
      rw [margin] at rest
      rw [List.drop_left] at rest ⊢
      have none_ : valueExtent y = 0 := by omega
      have own : valueExtent ([] ++ z) = [].length :=
        valueExtent_alike none_ some_ head fun _ => (extentWhile_eq_length margin).2
      rw [List.nil_append] at own
      rw [own]
      rfl
  next => exact absurd whole.symm (by simpa using inside)

/-- The name of an attribute, with the value that is assigned to it. -/
theorem label_alike {p : Char → Bool} (length : extentWhile p (tail ++ y) +
      assignmentExtent ((tail ++ y).drop (extentWhile p (tail ++ y))) = tail.length)
    (alike : (Mode.tag name).Alike y z) : extentWhile p (tail ++ z) +
      assignmentExtent ((tail ++ z).drop (extentWhile p (tail ++ z))) = tail.length := by
  obtain ⟨some_, head, bare⟩ := alike
  by_cases within : extentWhile p (tail ++ y) < tail.length
  · rw [extentWhile_within within]
    rw [List.drop_append_of_le_length within.le] at length ⊢
    have length' : assignmentExtent (tail.drop (extentWhile p (tail ++ y)) ++ y) =
        (tail.drop (extentWhile p (tail ++ y))).length := by
      rw [List.length_drop]
      omega
    have inside : tail.drop (extentWhile p (tail ++ y)) ≠ [] := by simpa using within
    rw [assignmentExtent_alike length' inside some_ head, List.length_drop]
    omega
  · have whole : extentWhile p (tail ++ y) = tail.length := by omega
    rw [extentWhile_alike whole head]
    rw [whole] at length
    rw [List.drop_left] at length ⊢
    rw [bare (by omega)]
    rfl

/-- **A piece inside a start tag is the same before texts that look the same from it.** -/
theorem scanTag_alike (scanned : scanTag name c (tail ++ y) = ⟨kind, tail.length, next⟩)
    (alike : next.Alike y z) : scanTag name c (tail ++ z) = ⟨kind, tail.length, next⟩ := by
  simp only [scanTag] at scanned ⊢
  split at scanned
  next blank =>
    obtain ⟨rfl, length, rfl⟩ := Scan.mk.inj scanned
    rw [if_pos blank, extentWhile_alike length alike.2.1]
  next solid =>
    rw [if_neg solid]
    split at scanned
    next close =>
      obtain ⟨rfl, length, rfl⟩ := Scan.mk.inj scanned
      rw [if_pos close, length]
    next noClose =>
      rw [if_neg noClose]
      split at scanned
      next slash =>
        obtain ⟨rfl, length, rfl⟩ := Scan.mk.inj scanned
        obtain ⟨d, rfl⟩ := List.length_eq_one_iff.mp length.symm
        have slash' : (c == '/' && ([d] ++ z).head? == some '>') = true := slash
        rw [if_pos slash']
        rfl
      next noSlash =>
        have sign : ∀ {name'}, next = .tag name' →
            ¬ (c == '/' && (tail ++ z).head? == some '>') = true := by
          rintro name' rfl
          cases tail with
          | nil =>
              rw [List.nil_append, alike.2.1]
              exact noSlash
          | cons d tail => exact noSlash
        split at scanned
        next quote =>
          obtain ⟨rfl, length, rfl⟩ := Scan.mk.inj scanned
          have same := extentThrough_within (List.cons_ne_nil c []) alike.1 length.le z
          rw [if_neg (sign rfl), if_pos quote, same.1, length]
        next noQuote =>
          split at scanned
          next single =>
            obtain ⟨rfl, length, rfl⟩ := Scan.mk.inj scanned
            rw [if_neg (sign rfl), if_neg noQuote, if_pos single, length]
          next label =>
            obtain ⟨rfl, length, rfl⟩ := Scan.mk.inj scanned
            rw [if_neg (sign rfl), if_neg noQuote, if_neg label, label_alike length alike]

/-! ## In text that is no markup -/

/-- An end tag of the name, and a sign that ends the name. -/
theorem endsRaw_of {word : List Char} (spelled : lowerAscii word = lowerAscii name)
    (stop : isBlank c || c == '/' || c == '>') (rest : List Char) :
    endsRaw name ('<' :: '/' :: word ++ c :: rest) := by
  have length : name.length = word.length := by
    simpa [lowerAscii] using (congrArg List.length spelled).symm
  rw [endsRaw, Bool.and_eq_true, startsIgnoringCase_iff]
  constructor
  · simp only [lowerAscii, List.map_cons, List.map_append, List.cons_append] at spelled ⊢
    rw [spelled]
    exact List.prefix_append _ _
  · have left : ('<' :: '/' :: word ++ c :: rest).drop (name.length + 2) = c :: rest := by
      rw [length]
      simp
    rw [left]
    exact stop

/-- Text that is no markup and ends before its end tag goes on up to it. -/
theorem endsRaw_before {back : List Char} (letters : ∀ c ∈ name, c.isAlpha) (some_ : back ≠ [])
    (goes : endsRaw name (back ++ y) = false) (stops : endsRaw name z) :
    endsRaw name (back ++ z) = false := by
  rw [Bool.eq_false_iff]
  intro ends
  obtain ⟨word, rest, whole, spelled, isWord, stop⟩ := endsRaw_spec ends letters
  obtain ⟨word', rest', rfl, -, -, -⟩ := endsRaw_spec stops letters
  have whole' : back ++ '<' :: '/' :: (word' ++ rest') = '<' :: '/' :: word ++ rest := whole
  -- The `<` that follows is no part of the word and does not end it.
  have noSign : '<' ∉ '/' :: word := by
    intro member
    rcases List.mem_cons.mp member with sign | inside
    · cases sign
    · exact absurd (isWord '<' inside) (by decide)
  rcases List.append_eq_append_iff.mp whole' with ⟨more, same, first⟩ | ⟨more, rfl, later⟩
  · cases more with
    | nil =>
        rw [List.nil_append] at first
        rw [← first] at stop
        exact absurd (stop '<' rfl) (by decide)
    | cons d more =>
        obtain ⟨rfl, -⟩ := List.cons.inj first
        cases back with
        | nil => exact some_ rfl
        | cons b back =>
            obtain ⟨-, same⟩ := List.cons.inj same
            rw [same] at noSign
            simp at noSign
  · cases more with
    | nil =>
        rw [List.nil_append] at later
        rw [later] at stop
        exact absurd (stop '<' rfl) (by decide)
    | cons f more =>
        have first : isBlank f || f == '/' || f == '>' := stop f (by rw [later]; rfl)
        have known := endsRaw_of spelled first (more ++ y)
        rw [List.append_assoc] at goes
        exact Bool.false_ne_true (goes.symm.trans known)

/-- An end tag takes its name, and what comes after that to end it. -/
theorem closing_takes {word rest : List Char} (isWord : ∀ c ∈ word, c.isAlpha) (some_ : word ≠ [])
    (stop : ∀ c ∈ rest.head?, isBlank c || c == '/' || c == '>') :
    (word ++ rest.head?.toList).length + 1 ≤ (scanContent '<' ('/' :: (word ++ rest))).more := by
  have inside : ∀ e ∈ word, (e != '>' && e != '<') = true := by
    intro e member
    obtain ⟨-, close, open_⟩ := ne_signs_of_isAlpha (isWord e member)
    simp [close, open_]
  obtain ⟨d, more, rfl⟩ := List.exists_cons_of_ne_nil some_
  have form : scanContent '<' ('/' :: (d :: more ++ rest)) = _ :=
    scanContent_endTag (isWord d List.mem_cons_self) (more ++ rest)
  rw [form, ← List.cons_append]
  apply Nat.succ_le_succ
  cases rest with
  | nil =>
      rw [extentWhile_append_stop inside (by simp)]
      simp
  | cons f rest =>
      simp only [List.head?_cons, Option.toList_some, List.length_append, List.length_singleton]
      by_cases close : f = '>'
      · have stops : ∀ c ∈ (f :: rest).head?, (c != '>' && c != '<') = false := by
          rintro c ⟨⟩
          simp [close]
        rw [extentWhile_append_stop inside stops, List.drop_left, close]
        exact le_rfl
      · have plain : (f != '>' && f != '<') = true := by
          have ending := stop f rfl
          by_cases open_ : f = '<'
          · rw [open_] at ending
            exact absurd ending (by decide)
          · simp [close, open_]
        have longer : ∀ e ∈ (d :: more) ++ [f], (e != '>' && e != '<') = true := by
          intro e member
          rcases List.mem_append.mp member with early | last
          · exact inside e early
          · rw [List.mem_singleton.mp last]
            exact plain
        have run : ((d :: more) ++ [f]).length ≤
            extentWhile (fun e => e != '>' && e != '<') ((d :: more) ++ f :: rest) := by
          rw [List.append_cons (d :: more) f rest, extentWhile,
            List.takeWhile_append_of_pos longer]
          exact (List.prefix_append _ _).length_le
        rw [List.length_append, List.length_singleton] at run
        exact run.trans (Nat.le_add_right _ _)

/-- The end tag that ends text that is no markup ends it before any text that looks the same. -/
theorem endsRaw_alike (letters : ∀ c ∈ name, c.isAlpha) (named : name ≠ [])
    (ends : endsRaw name (c :: tail ++ y))
    (scanned : scanContent c (tail ++ y) = ⟨kind, tail.length, next⟩) (some_ : y ≠ [])
    (z : List Char) : endsRaw name (c :: tail ++ z) := by
  obtain ⟨word, rest, whole, spelled, isWord, stop⟩ := endsRaw_spec ends letters
  obtain ⟨rfl, left⟩ := List.cons.inj whole
  have parted : tail ++ y = '/' :: (word ++ rest) := left
  have nonempty : word ≠ [] := by
    rintro rfl
    exact named (List.map_eq_nil_iff.mp spelled.symm)
  have taken := closing_takes isWord nonempty stop
  rw [← parted, scanned] at taken
  have total := congrArg List.length parted
  rw [List.length_append, List.length_cons, List.length_append] at total
  cases rest with
  | nil =>
      have positive := List.length_pos_of_ne_nil some_
      simp only [List.head?_nil, Option.toList_none, List.append_nil, List.length_nil]
        at taken total
      omega
  | cons f rest =>
      have parted' : '/' :: word ++ [f] ++ rest = tail ++ y := by
        rw [parted]
        simp
      have inside : '/' :: word ++ [f] <+: tail :=
        List.prefix_of_prefix_length_le ⟨rest, parted'⟩ (List.prefix_append tail y)
          (by simpa using taken)
      obtain ⟨more, rfl⟩ := inside
      have known := endsRaw_of spelled (stop f rfl) (more ++ z)
      have shape : '<' :: ('/' :: word ++ [f] ++ more) ++ z =
          '<' :: '/' :: word ++ f :: (more ++ z) := by simp
      rw [shape]
      exact known

/-! ## All that stands before a text -/

theorem letters_of_unparsed (known : name ∈ unparsedElements) :
    (∀ c ∈ name, c.isAlpha) ∧ name ≠ [] := by
  have each : ∀ name ∈ unparsedElements, name.all Char.isAlpha ∧ name ≠ [] := by decide
  exact ⟨List.all_eq_true.mp (each name known).1, (each name known).2⟩

/-- The end tag that ends text that is no markup is read as between tags. -/
theorem scan_raw_ends {rest : List Char} (ends : endsRaw name (c :: rest)) :
    scan (.raw name kind) c rest = scanContent c rest := by
  rw [scan, extentUntil, if_pos ends]

/-- Text that is no markup, up to where it ends. -/
theorem scan_raw_goes {kind' : TokenKind} (goes : endsRaw name (c :: tail ++ y) = false)
    (scanned : scan (.raw name kind') c (tail ++ y) = ⟨kind, tail.length, next⟩) :
    kind = kind' ∧ next = .content ∧
      extentUntil (endsRaw name) (c :: tail ++ y) = (c :: tail).length := by
  rw [List.cons_append] at goes
  rw [scan, extentUntil, if_neg (by simp [goes])] at scanned
  obtain ⟨rfl, length, rfl⟩ := Scan.mk.inj scanned
  refine ⟨rfl, rfl, ?_⟩
  rw [List.cons_append, extentUntil, if_neg (by simp [goes]), length, List.length_cons]

/-- **A piece is cut the same before texts that look the same from it.** -/
theorem scan_alike (proper : mode.Proper)
    (scanned : scan mode c (tail ++ y) = ⟨kind, tail.length, next⟩) (alike : next.Alike y z) :
    scan mode c (tail ++ z) = ⟨kind, tail.length, next⟩ := by
  cases mode with
  | head =>
      rw [scan] at scanned ⊢
      split at scanned
      next mark =>
        obtain ⟨rfl, length, rfl⟩ := Scan.mk.inj scanned
        rw [if_pos mark, length]
      next plain =>
        rw [if_neg plain]
        exact scanContent_alike scanned alike
  | content => exact scanContent_alike scanned alike
  | tag name =>
      rw [scan] at scanned ⊢
      split at scanned
      next sign =>
        rw [if_pos sign]
        exact scanContent_alike scanned alike
      next inside =>
        rw [if_neg inside]
        exact scanTag_alike scanned alike
  | raw name kind' =>
      obtain ⟨letters, named⟩ := letters_of_unparsed proper.1
      by_cases ends : endsRaw name (c :: (tail ++ y))
      · rw [scan_raw_ends ends] at scanned
        have ends' := endsRaw_alike letters named ends scanned (some_of_alike scanned alike) z
        rw [List.cons_append] at ends'
        rw [scan_raw_ends ends']
        exact scanContent_alike scanned alike
      · obtain ⟨rfl, rfl, length⟩ := scan_raw_goes (by simpa using ends) scanned
        obtain ⟨goes, stops⟩ := extentUntil_eq_length length
        have stops' := alike.2.2.2 name proper.1 (stops.resolve_left alike.1)
        have whole : extentUntil (endsRaw name) (c :: tail ++ z) = (c :: tail).length :=
          extentUntil_append (fun back ends some_ =>
            endsRaw_before letters some_ (goes back ends some_) stops') (.inr stops')
        rw [List.cons_append] at whole
        rw [scan, whole]
        rfl

theorem scanContent_ne_text (markup : startsMarkup (c :: tail)) :
    (scanContent c tail).kind ≠ .text := by
  simp only [scanContent, markup]
  repeat' split
  all_goals simp_all [startsMarkup]

/-- Texts that begin with the same character and with a piece of the same kind look the same from what
stands before them, unless white space in a start tag begins them. -/
theorem Mode.alike_of_kind (proper : mode.Proper)
    (scanned : scan mode c (tail ++ y) = ⟨kind, tail.length, next⟩) (some_ : mode = .content → y ≠ [])
    (same : (scan mode c (tail ++ z)).kind = kind) (solid : ∀ name, mode = .tag name → ¬ isBlank c) :
    mode.Alike (c :: tail ++ y) (c :: tail ++ z) := by
  cases mode with
  | head => trivial
  | content =>
      refine ⟨List.cons_ne_nil c _, fun markup => .inr ?_, ?_, fun name known ends => ?_⟩
      · by_contra plain
        rw [Bool.not_eq_true, List.cons_append] at plain
        have text : kind = .text := by
          rw [← same, scan, scanContent_text plain]
        have other : (scan .content c (tail ++ y)).kind ≠ .text := scanContent_ne_text markup
        rw [scanned] at other
        exact other text
      · rintro first d ⟨⟩
        exact Option.some.inj first
      · obtain ⟨letters, named⟩ := letters_of_unparsed known
        exact endsRaw_alike letters named ends scanned (some_ rfl) z
  | tag name =>
      refine ⟨List.cons_ne_nil c _, rfl, ?_⟩
      rw [assignmentExtent_eq_zero_iff, assignmentExtent_eq_zero_iff, List.cons_append,
        List.cons_append, List.dropWhile_cons_of_neg (solid name rfl),
        List.dropWhile_cons_of_neg (solid name rfl)]
      exact id
  | raw name kind' => exact List.cons_ne_nil c _

/-- Texts that look the same from a piece look the same from what stands before it. -/
theorem Mode.Alike.before (proper : mode.Proper)
    (scanned : scan mode c (tail ++ y) = ⟨kind, tail.length, next⟩) (alike : next.Alike y z) :
    mode.Alike (c :: tail ++ y) (c :: tail ++ z) := by
  have scanned' := scan_alike proper scanned alike
  by_cases inGap : ∃ name, mode = .tag name ∧ isBlank c
  · obtain ⟨name, rfl, blank⟩ := inGap
    have inside : c ≠ '<' := by
      rintro rfl
      exact absurd blank (by decide)
    rw [scan, if_neg inside, scanTag, if_pos blank] at scanned
    obtain ⟨-, length, rfl⟩ := Scan.mk.inj scanned
    obtain ⟨blanks, stops⟩ := extentWhile_eq_length length
    have all : ∀ d ∈ c :: tail, isBlank d := List.forall_mem_cons.mpr ⟨blank, blanks⟩
    refine ⟨List.cons_ne_nil c _, rfl, ?_⟩
    rw [assignmentExtent_eq_zero_iff, assignmentExtent_eq_zero_iff,
      List.dropWhile_append_of_pos all, List.dropWhile_append_of_pos all,
      dropWhile_of_stops stops, dropWhile_of_stops (alike.2.1 ▸ stops), alike.2.1]
    exact id
  · refine Mode.alike_of_kind proper scanned ?_ (by rw [scanned'])
      fun name same blank => inGap ⟨name, same, blank⟩
    rintro rfl
    exact some_of_alike scanned alike

/-- A piece reaches no further than the text. -/
theorem scan_more_le (mode : Mode) (c : Char) (rest : List Char) :
    (scan mode c rest).more ≤ rest.length := by
  by_cases idle : (turn mode c rest).extent = 0
  · obtain ⟨lower, same⟩ := scans_turn.idle mode c rest idle
    rw [← same]
    exact scan_more_le (turn mode c rest).state c rest
  · have fits := scans_turn.fits mode c rest
    rw [scans_turn.takes mode c rest idle]
    rw [List.length_cons] at fits
    dsimp only
    omega
termination_by rank mode

/-- A text that `z` follows is cut into pieces, the last of which ends where `z` begins. -/
inductive Cuts (z : List Char) : Mode → List Char → List (Lexeme TokenKind) → Mode → Prop
  | nil {mode : Mode} : Cuts z mode [] [] mode
  | cons {mode next last : Mode} {c : Char} {tail cs : List Char} {kind : TokenKind}
      {pieces : List (Lexeme TokenKind)} :
      scan mode c (tail ++ (cs ++ z)) = ⟨kind, tail.length, next⟩ → Cuts z next cs pieces last →
      Cuts z mode (c :: tail ++ cs) (⟨kind, c :: tail⟩ :: pieces) last

variable {last : Mode} {cs : List Char} {front back : List (Lexeme TokenKind)}

theorem Cuts.cut (cuts : Cuts z mode cs front last) :
    PageLint.cut scan mode (cs ++ z) = front ++ PageLint.cut scan last z := by
  induction cuts with
  | nil => rfl
  | @cons mode next last c tail cs kind pieces scanned _ ih =>
      rw [List.append_assoc, cut_of_scan scanned, ih, List.cons_append]

theorem Cuts.texts (cuts : Cuts z mode cs front last) : (front.map Lexeme.text).flatten = cs := by
  induction cuts with
  | nil => rfl
  | cons _ _ ih => rw [List.map_cons, List.flatten_cons, ih]

theorem Cuts.proper (cuts : Cuts z mode cs front last) (proper : mode.Proper) : last.Proper := by
  induction cuts with
  | nil => exact proper
  | @cons mode next last c tail cs kind pieces scanned _ ih =>
      have left := scan_proper mode c (tail ++ (cs ++ z))
      rw [scanned] at left
      exact ih left

/-- Pieces in front of others are cut off the text in front. -/
theorem cuts_of_cut (split : PageLint.cut scan mode cs = front ++ back) : ∃ x z last,
    cs = x ++ z ∧ Cuts z mode x front last ∧ PageLint.cut scan last z = back := by
  induction front generalizing mode cs with
  | nil => exact ⟨[], cs, mode, rfl, .nil, split⟩
  | cons piece front ih =>
      cases cs with
      | nil =>
          rw [cut_nil] at split
          cases split
      | cons c rest =>
          rw [cut_cons] at split
          obtain ⟨rfl, left⟩ := List.cons.inj split
          obtain ⟨x, z, last, whole, cuts, behind⟩ := ih left
          have taken : (rest.take (scan mode c rest).more).length = (scan mode c rest).more :=
            List.length_take_of_le (scan_more_le mode c rest)
          have parted : rest = rest.take (scan mode c rest).more ++ (x ++ z) := by
            rw [← whole, List.take_append_drop]
          refine ⟨c :: rest.take (scan mode c rest).more ++ x, z, last, ?_, .cons ?_ cuts, behind⟩
          · rw [List.append_assoc, List.cons_append, ← parted]
          · rw [← parted, taken]

/-- A piece among others: where it begins, one scan cuts it off, and the others are cut off what is
left, in the mode which that leaves. -/
theorem cuts_of_piece {piece : Lexeme TokenKind} (proper : mode.Proper)
    (split : PageLint.cut scan mode cs = front ++ piece :: back) : ∃ x c tail rest last next,
    piece.text = c :: tail ∧ cs = x ++ (c :: tail ++ rest) ∧ last.Proper ∧
      Cuts (c :: tail ++ rest) mode x front last ∧
      scan last c (tail ++ rest) = ⟨piece.kind, tail.length, next⟩ ∧
      PageLint.cut scan next rest = back := by
  obtain ⟨x, z, last, rfl, cuts, behind⟩ := cuts_of_cut split
  obtain ⟨y, rest, next, rfl, single, later⟩ : ∃ y rest next, z = y ++ rest ∧
      Cuts rest last y [piece] next ∧ PageLint.cut scan next rest = back := cuts_of_cut behind
  cases single with
  | @cons _ _ _ c tail _ kind _ scanned none_ =>
      cases none_
      simp only [List.append_nil, List.nil_append] at scanned cuts ⊢
      exact ⟨x, c, tail, rest, last, _, rfl, rfl, cuts.proper proper, cuts, scanned, later⟩

/-- **What stands before two texts that look the same is cut the same.** -/
theorem Cuts.alike (cuts : Cuts y mode cs front last) (proper : mode.Proper)
    (alike : last.Alike y z) : Cuts z mode cs front last := by
  have both : Cuts z mode cs front last ∧ mode.Alike (cs ++ y) (cs ++ z) := by
    induction cuts with
    | nil => exact ⟨.nil, alike⟩
    | @cons mode next last c tail cs kind pieces scanned _ ih =>
        have left := scan_proper mode c (tail ++ (cs ++ y))
        rw [scanned] at left
        obtain ⟨later, same⟩ := ih left alike
        rw [List.append_assoc, List.append_assoc]
        exact ⟨.cons (scan_alike proper scanned same) later, same.before proper scanned⟩
  exact both.1

end Html

end PageLint
