/-
# PageLint.Proofs.Html.Lexer — the lexer of HTML texts ends and loses nothing

Here the lexer counts each piece from its first character on, and it has turns that take
nothing: where the content of a raw element is empty, where a `<` breaks off a start tag,
where no byte order mark opens the text. Each of them leaves for content, and a turn in
content always takes a character (`turnContent_pos`), so an idle turn lowers the rank of
the mode, and a text is read to its end however many of its turns are idle.

No turn asks for more than is left (`turn_le`), whatever markup the text breaks off in.
-/
import PageLint.Html.Token
import PageLint.Proofs.Text.Extent
import PageLint.Proofs.Text.Run

namespace PageLint.Html

set_option autoImplicit false

open Text

/-! ## One turn -/

/-- Number of characters of the end tag at the head of the text: `</`, all up to the
next `>` or `<`, and the `>` if it is there. -/
def endTagExtent (here : List Char) : Nat :=
  let name := 2 + extentWhile (fun e => e != '>' && e != '<') (here.drop 2)
  if (here.drop name).head? = some '>' then name + 1 else name

/-- A turn between tags. -/
def turnContent (c : Char) (rest : List Char) : Turn Mode TokenKind :=
  let here := c :: rest
  if "<!--".toList.isPrefixOf here then
    ⟨.comment, 4 + extentThrough "-->" (here.drop 4), .content⟩
  else if startsIgnoringCase "<!doctype" here then
    ⟨.doctype, extentThrough ">" here, .content⟩
  else if "<![CDATA[".toList.isPrefixOf here then
    ⟨.cdata, 9 + extentThrough "]]>" (here.drop 9), .content⟩
  else if startsMarkup here then
    match rest with
    | '/' :: d :: _ =>
      if d.isAlpha then ⟨.tagClose, endTagExtent here, .content⟩
      else ⟨.unknown, extentThrough ">" here, .content⟩
    | d :: _ =>
      if d.isAlpha then
        ⟨.tagOpen, 1 + extentWhile (fun e => !endsTagName e) rest,
          .tag (lowerAscii (rest.takeWhile fun e => !endsTagName e))⟩
      else ⟨.unknown, extentThrough ">" here, .content⟩
    | [] => ⟨.text, 1, .content⟩
  else ⟨.text, 1 + extentUntil startsMarkup rest, .content⟩

/-- A turn inside the start tag of the named element. -/
def turnTag (name : List Char) (c : Char) (rest : List Char) : Turn Mode TokenKind :=
  let here := c :: rest
  if c = '<' then ⟨.unknown, 0, .content⟩
  else if isBlank c then ⟨.blank, extentWhile isBlank here, .tag name⟩
  else if c == '>' then ⟨.tagEnd, 1, modeAfterTag name⟩
  else if c == '/' && rest.head? == some '>' then ⟨.selfClosingTagEnd, 2, .content⟩
  else if isQuote c then ⟨.unknown, 1 + extentThrough [c] rest, .tag name⟩
  else if c == '/' || c == '=' then ⟨.unknown, 1, .tag name⟩
  else
    let label := extentWhile (fun d => !endsAttributeName d) here
    ⟨.attr, label + assignmentExtent (here.drop label), .tag name⟩

/-- One turn of the lexer, by where the character stands. -/
def turn (mode : Mode) (c : Char) (rest : List Char) : Turn Mode TokenKind :=
  match mode with
  | .head => if c = '\uFEFF' then ⟨.byteOrderMark, 1, .content⟩ else ⟨.unknown, 0, .content⟩
  | .content => turnContent c rest
  | .tag name => turnTag name c rest
  | .raw name kind => ⟨kind, extentUntil (endsRaw name) (c :: rest), .content⟩

/-- How many idle turns may follow. -/
def rank : Mode → Nat
  | .content => 0
  | _ => 1

/-! ## A turn takes what there is -/

theorem valueExtent_le (cs : List Char) : valueExtent cs ≤ cs.length := by
  cases cs with
  | nil => exact le_rfl
  | cons c cs =>
      rw [valueExtent]
      split
      · have := extentThrough_le [c] cs
        rw [List.length_cons]
        omega
      · exact extentWhile_le _ _

theorem assignmentExtent_le (cs : List Char) : assignmentExtent cs ≤ cs.length := by
  have gap := extentWhile_le isBlank cs
  simp only [assignmentExtent]
  split
  next afterSign left =>
    have parted : cs.length = extentWhile isBlank cs + (afterSign.length + 1) := by
      rw [← List.length_cons, ← left, List.length_drop]
      omega
    have margin := extentWhile_le isBlank afterSign
    have value := valueExtent_le (afterSign.drop (extentWhile isBlank afterSign))
    rw [List.length_drop] at value
    omega
  next => exact Nat.zero_le _

theorem endTagExtent_le {here : List Char} (two : 2 ≤ here.length) :
    endTagExtent here ≤ here.length := by
  have name := extentWhile_le (fun e => e != '>' && e != '<') (here.drop 2)
  rw [List.length_drop] at name
  simp only [endTagExtent]
  split
  next sign =>
    have some_ := List.length_pos_of_ne_nil (List.ne_nil_of_mem (List.mem_of_mem_head? sign))
    rw [List.length_drop] at some_
    omega
  next => omega

/-- What begins with a mark is as long as the mark. -/
theorem length_le_of_isPrefixOf {lead cs : List Char} (leads : lead.isPrefixOf cs) :
    lead.length ≤ cs.length :=
  (List.isPrefixOf_iff_prefix.mp leads).length_le

theorem turnContent_le (c : Char) (rest : List Char) :
    (turnContent c rest).extent ≤ (c :: rest).length := by
  simp only [turnContent]
  split
  next opens =>
    have four : 4 ≤ (c :: rest).length := length_le_of_isPrefixOf opens
    have close := extentThrough_le "-->".toList ((c :: rest).drop 4)
    rw [List.length_drop] at close
    dsimp only
    omega
  split
  · exact extentThrough_le _ _
  split
  next opens =>
    have nine : 9 ≤ (c :: rest).length := length_le_of_isPrefixOf opens
    have close := extentThrough_le "]]>".toList ((c :: rest).drop 9)
    rw [List.length_drop] at close
    dsimp only
    omega
  split
  · split
    next =>
      split
      · exact endTagExtent_le (by simp)
      · exact extentThrough_le _ _
    next d more _ _ _ _ _ =>
      split
      · have name := extentWhile_le (fun e => !endsTagName e) (d :: more)
        simp only [List.length_cons] at name ⊢
        omega
      · exact extentThrough_le _ _
    next => exact le_rfl
  · have := extentUntil_le startsMarkup rest
    rw [List.length_cons]
    dsimp only
    omega

theorem turnTag_le (name : List Char) (c : Char) (rest : List Char) :
    (turnTag name c rest).extent ≤ (c :: rest).length := by
  simp only [turnTag]
  split
  · exact Nat.zero_le _
  split
  · exact extentWhile_le _ _
  split
  · exact Nat.succ_pos _
  split
  next slash =>
    cases rest with
    | nil => simp at slash
    | cons d rest => simp
  split
  · have := extentThrough_le [c] rest
    rw [List.length_cons]
    dsimp only
    omega
  split
  · exact Nat.succ_pos _
  · have label := extentWhile_le (fun d => !endsAttributeName d) (c :: rest)
    have value := assignmentExtent_le
      ((c :: rest).drop (extentWhile (fun d => !endsAttributeName d) (c :: rest)))
    rw [List.length_drop] at value
    dsimp only
    omega

theorem turn_le (mode : Mode) (c : Char) (rest : List Char) :
    (turn mode c rest).extent ≤ (c :: rest).length := by
  cases mode with
  | head =>
      simp only [turn]
      split
      · exact Nat.succ_pos _
      · exact Nat.zero_le _
  | content => exact turnContent_le c rest
  | tag name => exact turnTag_le name c rest
  | raw name kind => exact extentUntil_le _ _

/-! ## In content, a turn takes a character -/

theorem turnContent_pos (c : Char) (rest : List Char) : 0 < (turnContent c rest).extent := by
  simp only [turnContent]
  split
  · dsimp only; omega
  split
  · exact extentThrough_pos (by decide)
  split
  · dsimp only; omega
  split
  · split
    · split
      · simp only [endTagExtent]
        split <;> omega
      · exact extentThrough_pos (by decide)
    · split
      · dsimp only; omega
      · exact extentThrough_pos (by decide)
    · exact Nat.one_pos
  · dsimp only; omega

/-- In a start tag, only a `<` is not taken. -/
theorem turnTag_pos {name : List Char} {c : Char} {rest : List Char} (inside : c ≠ '<') :
    0 < (turnTag name c rest).extent := by
  simp only [turnTag, if_neg inside]
  split
  next blank => rw [extentWhile_cons blank]; exact Nat.succ_pos _
  split
  · exact Nat.one_pos
  split
  · exact Nat.succ_pos _
  split
  · dsimp only; omega
  split
  · exact Nat.one_pos
  next blank sign close quote slash =>
    have label : (!endsAttributeName c) = true := by
      simp_all [endsAttributeName, endsTagName]
    rw [extentWhile_cons label]
    dsimp only
    omega

/-! ## The scans are what the turns come to -/

theorem extentThrough_gt {c : Char} (rest : List Char) (other : c ≠ '>') :
    extentThrough ">" (c :: rest) = extentThrough ">" rest + 1 := by
  have closes : ">".toList.isPrefixOf (c :: rest) = false := by
    simp [List.isPrefixOf, Ne.symm other]
  rw [extentThrough, closes]
  rfl

theorem ne_gt_of_doctype {c : Char} {rest : List Char}
    (doctype : startsIgnoringCase "<!doctype" (c :: rest)) : c ≠ '>' := by
  rintro rfl
  have first : ('<'.toLower == '>'.toLower) = true := by
    rw [show "<!doctype".toList = '<' :: "!doctype".toList from rfl, startsIgnoringCase,
      Bool.and_eq_true] at doctype
    exact doctype.1
  exact absurd first (by decide)

theorem ne_gt_of_startsMarkup {c : Char} {rest : List Char} (markup : startsMarkup (c :: rest)) :
    c ≠ '>' := by
  rintro rfl
  cases rest <;> simp [startsMarkup] at markup

theorem endTagExtent_eq (c d : Char) (rest : List Char) :
    endTagExtent (c :: d :: rest) = 1 + extentWhile (fun e => e != '>' && e != '<') rest +
      (if (rest.drop (extentWhile (fun e => e != '>' && e != '<') rest)).head? = some '>'
        then 1 else 0) + 1 := by
  have two : ∀ n, (c :: d :: rest).drop (2 + n) = rest.drop n := by
    intro n
    rw [Nat.add_comm, List.drop_succ_cons, List.drop_succ_cons]
  simp only [endTagExtent, List.drop_succ_cons, List.drop_zero, two]
  split <;> omega

theorem takes_content (c : Char) (rest : List Char) :
    scanContent c rest =
      ⟨(turnContent c rest).kind, (turnContent c rest).extent - 1, (turnContent c rest).state⟩ := by
  by_cases comment : "<!--".toList.isPrefixOf (c :: rest)
  · simp only [scanContent, turnContent, comment, if_true, List.drop_succ_cons]
    congr 1
    omega
  by_cases doctype : startsIgnoringCase "<!doctype" (c :: rest)
  · have through := extentThrough_gt rest (ne_gt_of_doctype doctype)
    simp only [scanContent, turnContent, comment, doctype, if_true, if_false, Bool.false_eq_true]
    rw [through]
    rfl
  by_cases cdata : "<![CDATA[".toList.isPrefixOf (c :: rest)
  · simp only [scanContent, turnContent, comment, doctype, cdata, if_true, if_false,
      Bool.false_eq_true, List.drop_succ_cons]
    congr 1
    omega
  by_cases markup : startsMarkup (c :: rest)
  · have through : extentThrough ['>'] (c :: rest) = extentThrough ['>'] rest + 1 :=
      extentThrough_gt rest (ne_gt_of_startsMarkup markup)
    simp only [scanContent, turnContent, comment, doctype, cdata, markup, if_true, if_false,
      Bool.false_eq_true]
    split
    next d more =>
      by_cases letter : d.isAlpha
      · simp [letter, endTagExtent_eq, Nat.add_comm 1]
      · simp [letter, through]
    next d more _ =>
      by_cases letter : d.isAlpha
      · simp [letter, extentWhile]
      · simp [letter, through]
    next => rfl
  · simp only [scanContent, turnContent, comment, doctype, cdata, markup, if_false,
      Bool.false_eq_true]
    congr 1
    omega

theorem takes_tag {name : List Char} {c : Char} {rest : List Char} (inside : c ≠ '<') :
    scanTag name c rest =
      ⟨(turnTag name c rest).kind, (turnTag name c rest).extent - 1,
        (turnTag name c rest).state⟩ := by
  simp only [turnTag, scanTag, if_neg inside]
  split_ifs with blank close selfClosing quote sign
  · simp [extentWhile_cons blank]
  · rfl
  · rfl
  · simp
  · rfl
  · have label : (!endsAttributeName c) = true := by
      simp_all [endsAttributeName, endsTagName]
    have longer : extentWhile (fun d => !endsAttributeName d) (c :: rest) =
        extentWhile (fun d => !endsAttributeName d) rest + 1 := extentWhile_cons label
    simp only [longer, List.drop_succ_cons]
    congr 1
    omega

theorem scans_turn : Scans turn scan rank where
  fits := turn_le
  idle mode c rest none_ := by
    cases mode with
    | head =>
        by_cases mark : c = '\uFEFF'
        · simp [turn, mark] at none_
        · simp [turn, scan, rank, mark]
    | content => exact absurd none_ (turnContent_pos c rest).ne'
    | tag name =>
        by_cases opens : c = '<'
        · simp [turn, turnTag, scan, rank, opens]
        · exact absurd none_ (turnTag_pos opens).ne'
    | raw name kind =>
        change extentUntil (endsRaw name) (c :: rest) = 0 at none_
        simp [turn, scan, rank, none_]
  takes mode c rest some_ := by
    cases mode with
    | head =>
        by_cases mark : c = '\uFEFF'
        · simp [turn, scan, mark]
        · simp [turn, mark] at some_
    | content => exact takes_content c rest
    | tag name =>
        by_cases opens : c = '<'
        · simp [turn, turnTag, opens] at some_
        · rw [scan, if_neg opens]
          exact takes_tag opens
    | raw name kind =>
        change extentUntil (endsRaw name) (c :: rest) ≠ 0 at some_
        obtain ⟨more, extent⟩ := Nat.exists_eq_succ_of_ne_zero some_
        simp [turn, scan, extent]

/-- **HTML texts are read to the end and nothing is lost**: the lexer comes to an end with
the tokens that `tokenize` answers, idle turns and all, and they tile the text from its
first place to its last. -/
theorem page_tokens_lossless (cs : List Char) :
    Run turn .head .start cs (tokenize cs) ∧ Tiles .start cs (tokenize cs) ∧
      ∀ t, (tokenize cs).getLast? = some t → t.span.finish = Source.finish ⟨cs⟩ := by
  have run : Run turn .head .start cs (tokenize cs) := run_cut scans_turn .head .start cs
  exact ⟨run, run.tiles, run.tiles.last⟩

end PageLint.Html
