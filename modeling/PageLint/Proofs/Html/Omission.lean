/-
# PageLint.Proofs.Html.Omission — a page without one of its end tags

When an end tag is taken out of a page, what stands behind it comes to stand behind the piece in front
of it. The pieces behind it are cut as before, and so are those in front of it, for they ended at the
`<` of the end tag or by a sign of their own. But white space that followed the end tag was a text, and
now it is one only if the piece in front of it does not take it in (`scan_gap`): a text does, and so does
an end tag without a `>` (`Loose`). What is built of such a piece is the same with more white space at
its end (`alike_of_loose`). So the tokens in front of the end tag, and those behind it, become tokens of
which the same is built, with a text of white space between them or with none (`tokens_omitted`).
-/
import PageLint.Proofs.Html.Lookahead
import PageLint.Proofs.Html.Likeness
import PageLint.Proofs.Text.Edit

namespace PageLint.Html

set_option autoImplicit false

open Text

variable {mode last : Mode} {kind : TokenKind} {c : Char} {tail text w x y z : List Char}
  {front : List (Lexeme TokenKind)} {piece : Lexeme TokenKind}

/-! ## Pieces that white space goes on -/

/-- White space behind such a piece belongs to it: a text, or an end tag that lacks its `>`. -/
def Loose (kind : TokenKind) (text : List Char) : Prop :=
  kind = .text ∨ kind = .tagClose ∧ text.getLast? ≠ some '>'

theorem ne_signs_of_isBlank {d : Char} (blank : isBlank d) : d ≠ '<' ∧ d ≠ '>' ∧ d ≠ '/' := by
  refine ⟨?_, ?_, ?_⟩ <;>
  · rintro rfl
    cases blank

section Gap

variable (blank : ∀ d ∈ w, isBlank d) (stops : AtMarkup z)
include blank stops

/-- White space before markup goes on a text that markup ended. -/
theorem startsMarkup_gap {back : List Char} (some_ : back ≠ [])
    (goes : startsMarkup (back ++ y) = false) : startsMarkup (back ++ (w ++ z)) = false := by
  cases w with
  | nil => exact startsMarkup_before some_ goes stops
  | cons d w =>
      match back with
      | [] => exact absurd rfl some_
      | [b] =>
          have space := blank d List.mem_cons_self
          have noLetter : d.isAlpha = false := by
            by_contra letter
            rw [not_isBlank_of_isAlpha (by simpa using letter)] at space
            cases space
          have others : d ≠ '/' ∧ d ≠ '!' ∧ d ≠ '?' := by
            refine ⟨?_, ?_, ?_⟩ <;>
            · rintro rfl
              cases space
          by_cases sign : b = '<'
          · simp [sign, startsMarkup, noLetter, others]
          · exact startsMarkup_eq_false_of_ne sign _
      | b :: e :: back =>
          by_cases sign : b = '<'
          · subst sign
            exact goes
          · exact startsMarkup_eq_false_of_ne sign _

/-- A text goes on through the white space. -/
theorem scanContent_text_gap (plain : startsMarkup (c :: (tail ++ y)) = false)
    (length : extentUntil startsMarkup (tail ++ y) = tail.length) :
    scanContent c (tail ++ w ++ z) = ⟨.text, (tail ++ w).length, .content⟩ := by
  obtain ⟨goes, -⟩ := extentUntil_eq_length length
  have plain' : startsMarkup (c :: (tail ++ w ++ z)) = false := by
    rw [List.append_assoc]
    exact startsMarkup_gap blank stops (List.cons_ne_nil c tail) plain
  rw [scanContent_text plain', extentUntil_append ?_ stops]
  intro back ends some_
  have inGap : back <:+ w → startsMarkup (back ++ z) = false := by
    intro inside
    cases back with
    | nil => exact absurd rfl some_
    | cons d back =>
        have space := blank d (inside.subset List.mem_cons_self)
        exact startsMarkup_eq_false_of_ne (ne_signs_of_isBlank space).1 _
  rcases List.suffix_or_suffix_of_suffix ends (List.suffix_append tail w) with inside | ⟨b, rfl⟩
  · exact inGap inside
  · obtain ⟨before, whole⟩ := ends
    rw [← List.append_assoc] at whole
    have own : b <:+ tail := ⟨before, List.append_cancel_right whole⟩
    by_cases none_ : b = []
    · exact inGap (by rw [none_, List.nil_append])
    · rw [List.append_assoc]
      exact startsMarkup_gap blank stops none_ (goes b own none_)

/-- An end tag that has its `>` ends there; one that has not goes on through the white space. -/
theorem endTag_gap {word : List Char}
    (whole : extentWhile (fun e => e != '>' && e != '<') (word ++ y) +
      (if ((word ++ y).drop (extentWhile (fun e => e != '>' && e != '<') (word ++ y))).head? =
        some '>' then 1 else 0) = word.length) :
    (∀ more, extentWhile (fun e => e != '>' && e != '<') (word ++ more) +
      (if ((word ++ more).drop (extentWhile (fun e => e != '>' && e != '<') (word ++ more))).head? =
        some '>' then 1 else 0) = word.length) ∨
    '>' ∉ word ∧ extentWhile (fun e => e != '>' && e != '<') (word ++ w ++ z) +
      (if ((word ++ w ++ z).drop
        (extentWhile (fun e => e != '>' && e != '<') (word ++ w ++ z))).head? =
          some '>' then 1 else 0) = (word ++ w).length := by
  by_cases within : extentWhile (fun e => e != '>' && e != '<') (word ++ y) < word.length
  · refine .inl fun more => ?_
    rw [List.head?_drop, List.getElem?_append_left within] at whole
    rw [extentWhile_within within, List.head?_drop, List.getElem?_append_left within]
    exact whole
  · right
    have length : extentWhile (fun e => e != '>' && e != '<') (word ++ y) = word.length := by
      omega
    obtain ⟨inside, -⟩ := extentWhile_eq_length length
    have through : ∀ e ∈ word ++ w, (e != '>' && e != '<') = true := by
      intro e member
      rcases List.mem_append.mp member with own | space
      · exact inside e own
      · simp [ne_signs_of_isBlank (blank e space)]
    have open_ : z.head? ≠ some '>' ∧ ∀ e ∈ z.head?, (e != '>' && e != '<') = false := by
      rcases stops with rfl | markup
      · simp
      · cases z with
        | nil => simp
        | cons e z =>
            rw [eq_lt_of_startsMarkup markup]
            simp
    refine ⟨fun close => by simpa using inside '>' close, ?_⟩
    rw [extentWhile_append_stop through open_.2, List.drop_left, if_neg open_.1]
    rfl

theorem closing_gap {e : Char} {more : List Char} (whole : tail ++ y = e :: more)
    (letter : e.isAlpha)
    (scanned : scanContent '<' ('/' :: (tail ++ y)) = ⟨kind, tail.length + 1, .content⟩) :
    scanContent '<' ('/' :: (tail ++ (w ++ z))) = ⟨kind, tail.length + 1, .content⟩ ∨
      Loose kind ('<' :: '/' :: tail) ∧ scanContent '<' ('/' :: (tail ++ w ++ z)) =
        ⟨kind, (tail ++ w).length + 1, .content⟩ := by
  obtain ⟨⟨word, rfl⟩, rfl, -, length⟩ := closing_word whole letter scanned
  rcases endTag_gap blank stops length with still | ⟨open_, through⟩
  · have found := still (w ++ z)
    rw [List.cons_append] at found
    rw [List.cons_append, scanContent_endTag letter, found]
    exact .inl rfl
  · rw [List.cons_append, List.cons_append] at through
    refine .inr ⟨.inr ⟨rfl, fun close => ?_⟩, ?_⟩
    · have member := List.mem_of_getLast? close
      simp [open_] at member
    · rw [List.cons_append, List.cons_append, scanContent_endTag letter, through]

/-- **A piece between tags before white space** ends where it did, or takes the white space in. -/
theorem scanContent_gap (scanned : scanContent c (tail ++ y) = ⟨kind, tail.length, .content⟩)
    (some_ : y ≠ []) : scanContent c (tail ++ (w ++ z)) = ⟨kind, tail.length, .content⟩ ∨
      Loose kind (c :: tail) ∧
        scanContent c (tail ++ w ++ z) = ⟨kind, (tail ++ w).length, .content⟩ := by
  by_cases plain : startsMarkup (c :: (tail ++ y)) = false
  · rw [scanContent_text plain] at scanned
    obtain ⟨rfl, length, -⟩ := Scan.mk.inj scanned
    exact .inr ⟨.inl rfl, scanContent_text_gap blank stops plain length⟩
  rw [Bool.not_eq_false] at plain
  obtain rfl := eq_lt_of_startsMarkup plain
  have positive := scanContent_more_pos plain
  rw [scanned] at positive
  cases tail with
  | nil => exact absurd positive (lt_irrefl 0)
  | cons d tail =>
      by_cases name : d.isAlpha
      · rw [List.cons_append, scanContent_startTag name] at scanned
        cases (Scan.mk.inj scanned).2.2
      by_cases ends : ∃ e more, d :: (tail ++ y) = '/' :: e :: more ∧ e.isAlpha
      · obtain ⟨e, more, same, letter⟩ := ends
        obtain ⟨rfl, left⟩ := List.cons.inj same
        exact closing_gap blank stops left letter scanned
      · exact .inl (bogus_alike plain (by simpa using name) (fun e more same => by
          by_contra letter
          exact ends ⟨e, more, same, by simpa using letter⟩) scanned some_)

/-- **A piece before white space**, in any mode that goes on between tags. -/
theorem scan_gap (proper : mode.Proper)
    (scanned : scan mode c (tail ++ y) = ⟨kind, tail.length, .content⟩) (some_ : y ≠ [])
    (open_ : ∀ name ∈ unparsedElements, endsRaw name y = false) :
    scan mode c (tail ++ (w ++ z)) = ⟨kind, tail.length, .content⟩ ∨
      Loose kind (c :: tail) ∧
        scan mode c (tail ++ w ++ z) = ⟨kind, (tail ++ w).length, .content⟩ := by
  cases mode with
  | head =>
      simp only [scan] at scanned ⊢
      split at scanned
      next mark =>
        obtain ⟨rfl, length, -⟩ := Scan.mk.inj scanned
        exact .inl (by rw [if_pos mark, length])
      next plain =>
        rw [if_neg plain, if_neg plain]
        exact scanContent_gap blank stops scanned some_
  | content => exact scanContent_gap blank stops scanned some_
  | tag name =>
      simp only [scan] at scanned ⊢
      split at scanned
      next sign =>
        rw [if_pos sign, if_pos sign]
        exact scanContent_gap blank stops scanned some_
      next inside =>
        rw [if_neg inside]
        simp only [scanTag] at scanned ⊢
        split at scanned
        next => cases (Scan.mk.inj scanned).2.2
        next solid =>
          rw [if_neg solid]
          split at scanned
          next close =>
            obtain ⟨rfl, length, after⟩ := Scan.mk.inj scanned
            exact .inl (by rw [if_pos close, length, after])
          next noClose =>
            rw [if_neg noClose]
            split at scanned
            next slash =>
              obtain ⟨rfl, length, -⟩ := Scan.mk.inj scanned
              obtain ⟨d, rfl⟩ := List.length_eq_one_iff.mp length.symm
              have slash' : (c == '/' && ([d] ++ (w ++ z)).head? == some '>') = true := slash
              exact .inl (by rw [if_pos slash']; rfl)
            next =>
              split at scanned
              next => cases (Scan.mk.inj scanned).2.2
              next =>
                split at scanned
                next => cases (Scan.mk.inj scanned).2.2
                next => cases (Scan.mk.inj scanned).2.2
  | raw name kind' =>
      obtain ⟨letters, named⟩ := letters_of_unparsed proper.1
      by_cases ends : endsRaw name (c :: (tail ++ y))
      · rw [scan_raw_ends ends] at scanned
        have ends' := endsRaw_alike letters named ends scanned some_ (w ++ z)
        rw [List.cons_append] at ends'
        have content := scanContent_gap blank stops scanned some_
        rw [List.append_assoc] at content ⊢
        rw [scan_raw_ends ends']
        exact content
      · obtain ⟨-, -, length⟩ := scan_raw_goes (by simpa using ends) scanned
        rcases (extentUntil_eq_length length).2 with none_ | stop
        · exact absurd none_ some_
        · rw [open_ name proper.1] at stop
          cases stop

/-- What stands in front of the piece sees no difference. -/
theorem Mode.alike_gap (proper : mode.Proper)
    (scanned : scan mode c (tail ++ y) = ⟨kind, tail.length, .content⟩) (some_ : y ≠ [])
    (open_ : ∀ name ∈ unparsedElements, endsRaw name y = false) :
    mode.Alike (c :: tail ++ y) (c :: tail ++ (w ++ z)) := by
  refine Mode.alike_of_kind proper scanned (fun _ => some_) ?_ ?_
  · rcases scan_gap blank stops proper scanned some_ open_ with still | ⟨-, through⟩
    · rw [still]
    · rw [← List.append_assoc, through]
  · rintro name rfl space
    have inside : c ≠ '<' := (ne_signs_of_isBlank space).1
    rw [scan, if_neg inside, scanTag, if_pos space] at scanned
    cases (Scan.mk.inj scanned).2.2

/-- The white space by itself is a text. -/
theorem cut_gap : ∃ gap, cut scan .content (w ++ z) = gap ++ cut scan .content z ∧
    ∀ piece ∈ gap, piece.kind = .text ∧ ∀ d ∈ piece.text, isBlank d := by
  by_cases none_ : w = []
  · exact ⟨[], by rw [none_, List.nil_append, List.nil_append], by simp⟩
  · have plain : '<' ∉ w := fun sign => (ne_signs_of_isBlank (blank '<' sign)).1 rfl
    exact ⟨[⟨.text, w⟩], cut_text none_ plain stops, by simpa using blank⟩

end Gap

/-! ## What white space at its end does to a piece -/

theorem dropSlashes_suffix (text : List Char) : Builder.endTagName.dropSlashes text <:+ text := by
  fun_induction Builder.endTagName.dropSlashes text with
  | case1 rest ih => exact ih.trans ((List.suffix_cons _ _).trans (List.suffix_cons _ _))
  | case2 => exact List.suffix_refl _

theorem dropSlashes_gap (blank : ∀ d ∈ w, isBlank d) (text : List Char) :
    Builder.endTagName.dropSlashes (text ++ w) = Builder.endTagName.dropSlashes text ++ w := by
  fun_induction Builder.endTagName.dropSlashes text with
  | case1 rest ih => exact ih
  | case2 text other =>
      have other' : ∀ rest, text ++ w = '<' :: '/' :: rest → False := by
        intro rest same
        match text, same with
        | [], same =>
            have left : w = '<' :: '/' :: rest := same
            exact (ne_signs_of_isBlank (blank '<' (by rw [left]; simp))).1 rfl
        | [d], same =>
            have left : w = '/' :: rest := (List.cons.inj same).2
            exact (ne_signs_of_isBlank (blank '/' (by rw [left]; simp))).2.2 rfl
        | d :: e :: text, same =>
            obtain ⟨rfl, left⟩ := List.cons.inj same
            obtain ⟨rfl, -⟩ := List.cons.inj left
            exact other text rfl
      rw [Builder.endTagName.dropSlashes.eq_def]
      split
      next rest same => exact (other' rest same).elim
      next => rfl

/-- White space behind an end tag that lacks its `>` does not bring one. -/
theorem getLast?_gap (blank : ∀ d ∈ w, isBlank d) (open_ : text.getLast? ≠ some '>') :
    (text ++ w).getLast? ≠ some '>' := by
  intro close
  rw [List.getLast?_append] at close
  cases ends : w.getLast? with
  | none => exact open_ (by simpa [ends] using close)
  | some d =>
      obtain rfl : d = '>' := by simpa [ends] using close
      exact (ne_signs_of_isBlank (blank '>' (List.mem_of_getLast? ends))).2.1 rfl

/-- **White space behind an end tag that lacks its `>`** is no part of the name. -/
theorem endTagName_gap (blank : ∀ d ∈ w, isBlank d) (open_ : text.getLast? ≠ some '>') :
    Builder.endTagName (text ++ w) = Builder.endTagName text := by
  have inside : (Builder.endTagName.dropSlashes text).getLast? ≠ some '>' := by
    intro close
    obtain ⟨before, whole⟩ := dropSlashes_suffix text
    rw [← whole, List.getLast?_append, close] at open_
    exact open_ rfl
  have stays : ∀ {cs : List Char}, cs.getLast? ≠ some '>' → trimEndBy (· == '>') cs = cs :=
    fun open_ => trimEndBy_eq_self fun d ends => by
      simpa using fun same : d = '>' => open_ (same ▸ ends)
  have none_ : w.takeWhile (fun d => !(isBlank d || d == '/')) = [] := by
    cases w with
    | nil => rfl
    | cons d w => simp [blank d List.mem_cons_self]
  rw [Builder.endTagName, Builder.endTagName, dropSlashes_gap blank, stays inside,
    stays (getLast?_gap blank inside), List.takeWhile_append, none_, List.append_nil]
  split
  next all => rw [(List.takeWhile_prefix _).eq_of_length all]
  next => rfl

/-- Pieces of which the same is built, wherever they stand. -/
def AlikePieces (piece other : Lexeme TokenKind) : Prop :=
  ∀ s s', Alike ⟨piece.kind, piece.text, s⟩ ⟨other.kind, other.text, s'⟩

theorem alike_of_loose (loose : Loose kind text) (blank : ∀ d ∈ w, isBlank d) :
    AlikePieces ⟨kind, text⟩ ⟨kind, text ++ w⟩ := by
  intro s s'
  rcases loose with rfl | ⟨rfl, open_⟩
  · exact ⟨rfl, fun _ => trimEndBy_append_of_all blank text, by simp, by simp⟩
  · refine ⟨rfl, by simp, fun _ => ⟨endTagName_gap blank open_, ?_⟩, by simp⟩
    exact iff_of_false (getLast?_gap blank open_) open_

theorem alike_locate {pieces others : List (Lexeme TokenKind)}
    (alike : List.Forall₂ AlikePieces pieces others) (p q : Position) :
    List.Forall₂ Alike (locate p pieces) (locate q others) := by
  induction alike generalizing p q with
  | nil => exact .nil
  | cons first _ ih => exact .cons (first _ _) (ih _ _)

/-! ## The pieces in front of the end tag -/

/-- The last of some pieces, where it is cut off. -/
theorem Cuts.concat (cuts : Cuts z mode x (front ++ [piece]) last) : ∃ before c tail m,
    x = before ++ (c :: tail) ∧ piece.text = c :: tail ∧ Cuts (c :: tail ++ z) mode before front m ∧
      scan m c (tail ++ z) = ⟨piece.kind, tail.length, last⟩ := by
  induction front generalizing mode x with
  | nil =>
      cases cuts with
      | @cons _ next _ c tail cs kind _ scanned rest =>
          cases rest
          exact ⟨[], c, tail, mode, by simp, rfl, .nil, by simpa using scanned⟩
  | cons first front ih =>
      cases cuts with
      | @cons _ next _ c tail cs kind _ scanned rest =>
          obtain ⟨before, c', tail', m, rfl, text, cuts, last⟩ := ih rest
          refine ⟨c :: tail ++ before, c', tail', m, by simp, text, .cons ?_ cuts, last⟩
          simpa using scanned

/-- **What stands in front of an end tag** stays what it is when white space or markup comes there. -/
theorem Cuts.omit (cuts : Cuts y .head x front .content) (some_ : y ≠ [])
    (open_ : ∀ name ∈ unparsedElements, endsRaw name y = false) (blank : ∀ d ∈ w, isBlank d)
    (stops : AtMarkup z) : ∃ front' gap,
      PageLint.cut scan .head (x ++ (w ++ z)) = front' ++ (gap ++ PageLint.cut scan .content z) ∧
        List.Forall₂ AlikePieces front front' ∧
          ∀ piece ∈ gap, piece.kind = .text ∧ ∀ d ∈ piece.text, isBlank d := by
  rcases List.eq_nil_or_concat front with rfl | ⟨init, piece, rfl⟩
  · cases cuts
  rw [List.concat_eq_append] at cuts ⊢
  obtain ⟨before, c, tail, m, rfl, text, earlier, scanned⟩ := cuts.concat
  obtain ⟨kind, said⟩ := piece
  obtain rfl : said = c :: tail := text
  have proper : m.Proper := earlier.proper trivial
  have earlier' := earlier.alike trivial (Mode.alike_gap blank stops proper scanned some_ open_)
  have same : List.Forall₂ AlikePieces init init :=
    List.forall₂_same.mpr fun piece _ s s' => .of_text rfl rfl
  rcases scan_gap blank stops proper scanned some_ open_ with still | ⟨loose, through⟩
  · obtain ⟨gap, left, inGap⟩ := cut_gap blank stops
    refine ⟨init ++ [⟨kind, c :: tail⟩], gap, ?_, ?_, inGap⟩
    · rw [List.append_assoc, earlier'.cut, cut_of_scan still, left]
      simp
    · exact List.rel_append same (.cons (fun s s' => .of_text rfl rfl) .nil)
  · refine ⟨init ++ [⟨kind, c :: (tail ++ w)⟩], [], ?_, ?_, by simp⟩
    · have whole : c :: tail ++ (w ++ z) = c :: (tail ++ w) ++ z := by simp
      rw [List.append_assoc, earlier'.cut, whole, cut_of_scan through]
      simp
    · exact List.rel_append same (.cons (alike_of_loose loose blank) .nil)

/-! ## Start tags in front of the end tag -/

/-- Where the lexer is inside a start tag, the last pieces are that tag so far. -/
theorem Cuts.opening (cuts : Cuts z .head x front last) (inTag : last.InTag) : ∃ init head parts,
    front = init ++ head :: parts ∧ head.kind = .tagOpen ∧
      ∀ piece ∈ parts, piece.kind ∈ [TokenKind.blank, .attr, .unknown] := by
  induction front using List.reverseRecOn generalizing x z last with
  | nil =>
      cases cuts
      exact inTag.elim
  | append_singleton front piece ih =>
      obtain ⟨before, c, tail, m, rfl, -, earlier, scanned⟩ := cuts.concat
      have text : m.HoldsText := (earlier.proper trivial).holdsText
      have within : (scan m c (tail ++ z)).state.InTag := by rw [scanned]; exact inTag
      have left := scan_inTag text within
      rw [scanned] at left
      rcases left with opens | ⟨within, part⟩
      · exact ⟨front, piece, [], rfl, opens, by simp⟩
      · obtain ⟨init, head, parts, rfl, opens, inside⟩ := ih earlier within
        refine ⟨init, head, parts ++ [piece], by simp, opens, ?_⟩
        exact List.forall_mem_append.mpr ⟨inside, List.forall_mem_singleton.mpr part⟩

/-- So that tag is broken off if nothing more comes. -/
theorem Cuts.broken (cuts : Cuts z .head x front last) (inTag : last.InTag) (p : Position) :
    ∃ piece ∈ (Markup.ofTokens (locate p front)).getLast?, piece.isBroken := by
  obtain ⟨init, head, parts, rfl, opens, inside⟩ := cuts.opening inTag
  have within : ∀ q, ∀ t ∈ locate q parts, isTagPart t := by
    intro q t member
    rw [isTagPart_iff]
    exact inside _ (mem_of_mem_locate member)
  have stops : ∀ t ∈ ([] : List (Token TokenKind)).head?,
      isTagPart t = false ∧ isTagEnd t = false := by simp
  have alone : ∀ q, Markup.ofTokens (⟨head.kind, head.text, .covering q head.text⟩ ::
      (locate (q.after head.text) parts ++ [])) = _ := fun q =>
    Markup.ofTokens_broken opens (within (q.after head.text)) stops
  rw [locate_append, locate, Markup.ofTokens_append, ← List.append_nil (locate _ parts), alone]
  · rw [Markup.ofTokens]
    exact ⟨_, List.getLast?_concat, rfl⟩
  · rintro t ⟨⟩
    simp [isTagPart, isTagEnd, opens]

theorem Cuts.ne_head (cuts : Cuts z .head x front last) (some_ : front ≠ []) : last ≠ .head := by
  rcases List.eq_nil_or_concat front with none_ | ⟨init, piece, rfl⟩
  · exact absurd none_ some_
  rw [List.concat_eq_append] at cuts
  obtain ⟨before, c, tail, m, rfl, -, earlier, scanned⟩ := cuts.concat
  have leaves := leaves_scan (earlier.proper trivial).holdsText c (tail ++ z)
  rw [scanned] at leaves
  rintro rfl
  cases leaves with
  | opens _ state => cases state
  | ends name _ _ state =>
      unfold modeAfterTag at state
      split_ifs at state
  | raw name _ _ state => cases state
  | inside name _ state _ => cases state
  | plain state _ => cases state

/-- The end tag that ends text that is no markup is that of its element. -/
theorem endTagName_of_endsRaw {name : List Char} {next : Mode} (known : name ∈ unparsedElements)
    (ends : endsRaw name (c :: (tail ++ y)))
    (scanned : scanContent c (tail ++ y) = ⟨kind, tail.length, next⟩) :
    Builder.endTagName (c :: tail) = name := by
  obtain ⟨letters, named⟩ := letters_of_unparsed known
  have own := (scanContent_endsRaw letters named ends).2
  rw [scanned, List.take_left] at own
  have small : ∀ name ∈ unparsedElements, lowerAscii name = name := by decide
  rw [own, small name known]

/-- **An end tag of an element that holds markup** is read in content, if something stands before it
and no start tag is broken off there. -/
theorem Cuts.content (cuts : Cuts (c :: tail ++ y) .head x front mode) (some_ : front ≠ [])
    (scanned : scan mode c (tail ++ y) = ⟨.tagClose, tail.length, last⟩)
    (parsed : Builder.endTagName (c :: tail) ∉ unparsedElements) {p : Position}
    (whole : ∀ piece ∈ (Markup.ofTokens (locate p front)).getLast?, piece.isBroken = false) :
    mode = .content := by
  have proper := cuts.proper trivial
  cases mode with
  | head => exact absurd rfl (cuts.ne_head some_)
  | content => rfl
  | tag name =>
      obtain ⟨piece, member, broken⟩ := cuts.broken trivial p
      rw [whole piece member] at broken
      cases broken
  | raw name kind =>
      by_cases ends : endsRaw name (c :: (tail ++ y))
      · rw [scan_raw_ends ends] at scanned
        exact absurd proper.1 (endTagName_of_endsRaw proper.1 ends scanned ▸ parsed)
      · obtain ⟨rfl, -⟩ := scan_raw_goes (by simpa using ends) scanned
        rcases proper.2 with same | same <;> cases same

/-! ## The page -/

/-- White space up to the next markup is a text, if there is any. -/
theorem cut_skip (rest : List Char) : ∃ w z skip, rest = w ++ z ∧ AtMarkup z ∧
    cut scan .content rest = skip ++ cut scan .content z ∧
      (skip = [] ∧ w = [] ∨ skip = [⟨.text, w⟩]) := by
  cases rest with
  | nil => exact ⟨[], [], [], rfl, .inl rfl, rfl, .inl ⟨rfl, rfl⟩⟩
  | cons c rest =>
      by_cases markup : startsMarkup (c :: rest)
      · exact ⟨[], c :: rest, [], rfl, .inr markup, rfl, .inl ⟨rfl, rfl⟩⟩
      · have scanned := scanContent_text (Bool.eq_false_of_not_eq_true markup)
        refine ⟨c :: rest.take (extentUntil startsMarkup rest),
          rest.drop (extentUntil startsMarkup rest), _, ?_, extentUntil_stop startsMarkup rest, ?_,
          .inr rfl⟩
        · rw [List.cons_append, List.take_append_drop]
        · rw [cut_cons, scan, scanned]
          rfl

/-- **Without an end tag that stands in content**, the tokens before it and those behind it are such of
which the same is built. White space behind it may be a text or not. -/
theorem tokens_omitted {cs : List Char} {before behind : List (Token TokenKind)}
    {t : Token TokenKind} (split : tokenize cs = before ++ t :: behind) (kind : t.kind = .tagClose)
    (some_ : before ≠ [])
    (whole : ∀ piece ∈ (Markup.ofTokens before).getLast?, piece.isBroken = false)
    (parsed : Builder.endTagName t.text ∉ unparsedElements)
    (blank : ∀ u ∈ behind.head?, u.kind = .text → ∀ d ∈ u.text, isBlank d) :
    ∃ (e : Edit) (front gap skip left back : List (Token TokenKind)), e.old = cs ∧
      e.span = t.span ∧ e.put = [] ∧ tokenize e.new = front ++ (gap ++ back) ∧
        behind = skip ++ left ∧ List.Forall₂ Alike before front ∧ List.Forall₂ Alike left back ∧
          ∀ u ∈ gap ++ skip, u.kind = .text ∧ ∀ d ∈ u.text, isBlank d := by
  obtain ⟨pieces, own, later⟩ := locate_split split
  rw [List.map_cons] at pieces later
  obtain ⟨x, c, tail, rest, mode, next, text, rfl, proper, cuts, scanned, left⟩ :=
    cuts_of_piece (show Mode.head.Proper from trivial) pieces
  have said : t.text = c :: tail := text
  have passed : textOf before = x := by rw [← cuts.texts, texts_lexemes]
  rw [locate, List.cons.injEq] at later
  obtain ⟨place, behind_⟩ := later
  rw [show t.lexeme.kind = .tagClose from kind] at scanned
  rw [said] at parsed
  obtain rfl := cuts.content (by simpa using some_) scanned parsed (own.symm ▸ whole)
  obtain rfl : next = .content := by
    have leaves : Leaves .content (tail ++ rest) (scan .content c (tail ++ rest)) :=
      leaves_scanContent _ c (tail ++ rest)
    rw [scanned] at leaves
    cases leaves with
    | opens other _ => cases other
    | ends name same _ _ => cases same
    | raw name same _ _ => cases same
    | inside name same _ _ => cases same
    | plain state _ => exact state
  obtain ⟨w, z, skip, rfl, stops, whole', gapless⟩ := cut_skip rest
  rw [left] at whole'
  rw [whole', locate_append] at behind_
  have space : ∀ d ∈ w, isBlank d := by
    rcases gapless with ⟨-, rfl⟩ | rfl
    · simp
    · rw [← behind_] at blank
      exact blank _ rfl rfl
  have open_ : ∀ name ∈ unparsedElements, endsRaw name (c :: tail ++ (w ++ z)) = false := by
    intro name known
    by_contra ends
    exact parsed (endTagName_of_endsRaw known (by simpa using ends) scanned ▸ known)
  obtain ⟨front, gap, new, alike, inGap⟩ :=
    cuts.omit (List.cons_ne_nil c _) open_ space stops
  have tokens : tokenize (x ++ (w ++ z)) = _ := (congrArg (locate .start) new).trans
    ((locate_append _ _ _).trans (congrArg _ (locate_append _ _ _)))
  refine ⟨⟨x, c :: tail, [], w ++ z, List.cons_ne_nil c tail⟩, _, _, _, _, _, rfl, ?_, rfl, tokens,
    behind_.symm, ?_, ?_, ?_⟩
  · rw [← place, passed, show t.lexeme.text = c :: tail from text]
    rfl
  · rw [← own]
    exact alike_locate alike _ _
  · exact alike_locate (List.forall₂_same.mpr fun piece _ s s' => .of_text rfl rfl) _ _
  · refine List.forall_mem_append.mpr ⟨fun u member => inGap _ (mem_of_mem_locate member), ?_⟩
    rcases gapless with ⟨rfl, -⟩ | rfl
    · simp [locate]
    · simpa [locate] using space

end PageLint.Html
