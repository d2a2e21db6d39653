/-
# PageLint.Proofs.Css.Hyphens — names with hyphens for their underscores

A hyphen takes as much space as an underscore, and a name goes on with either, so that it is as long
with hyphens for its underscores (`nameExtent_hyphenate`). But it does not begin with either. A hyphen
alone or before a digit begins no name, and two of them before a `>` close a comment of a page.
`Hyphenable` says that nothing of this is the case, and then an identifier with hyphens is one
(`lexemeAt_hyphenate_iff`).

An id has its sign in front and is one in any case. So a stylesheet with hyphens in the name of an id or
a class has the same tokens in the same places, if and only if the name of a class may have them
(`hyphenated_iff`).
-/
import PageLint.Proofs.Css.Splice

namespace PageLint.Css

set_option autoImplicit false

open Text

variable {v z rest cs : List Char} {c d : Char}

/-! ## Hyphens for underscores -/

/-- A hyphen for an underscore. -/
def hyphen (c : Char) : Char := if c = '_' then '-' else c

/-- The text with a hyphen for every underscore. -/
def hyphenate (v : List Char) : List Char := v.map hyphen

@[simp] theorem hyphenate_nil : hyphenate [] = [] := rfl

@[simp] theorem hyphenate_cons (c : Char) (v : List Char) :
    hyphenate (c :: v) = hyphen c :: hyphenate v := rfl

theorem hyphen_of_ne (other : c ≠ '_') : hyphen c = c := if_neg other

theorem hyphen_eq_iff (other : d ≠ '-') (other' : d ≠ '_') : hyphen c = d ↔ c = d := by
  rw [hyphen]
  split
  next same =>
    subst same
    exact iff_of_false (Ne.symm other) (Ne.symm other')
  next => rfl

theorem underscore_notMem_hyphenate (v : List Char) : '_' ∉ hyphenate v := by
  intro member
  obtain ⟨c, -, same⟩ := List.mem_map.mp member
  rw [hyphen] at same
  split at same
  next => cases same
  next plain => exact plain same

theorem replace_underscore (v : List Char) : replace ['_'] ['-'] v = hyphenate v := by
  show replace.go '_' [] ['-'] v = hyphenate v
  induction v with
  | nil => rw [replace.go, hyphenate_nil]
  | cons c v ih =>
      rw [replace.go]
      by_cases same : c = '_'
      · subst same
        simp [List.isPrefixOf, ih, hyphen]
      · simp [List.isPrefixOf, Ne.symm same, ih, hyphen_of_ne same]

/-- Both take the same space. -/
theorem after_hyphenate (p : Position) (v : List Char) : p.after (hyphenate v) = p.after v := by
  induction v generalizing p with
  | nil => rfl
  | cons c v ih =>
      have step : p.next (hyphen c) = p.next c := by
        by_cases same : c = '_'
        · subst same
          rfl
        · rw [hyphen_of_ne same]
      rw [hyphenate_cons, Position.after_cons, Position.after_cons, step, ih]

/-! ## Names -/

theorem isNameChar_hyphen (c : Char) : isNameChar (hyphen c) = isNameChar c := by
  by_cases same : c = '_'
  · subst same
    rfl
  · rw [hyphen_of_ne same]

theorem startsEscape_hyphenate (some_ : v ≠ []) (z : List Char) :
    startsEscape (hyphenate v ++ z) = startsEscape (v ++ z) := by
  have backslash : ∀ c, (hyphen c == '\\') = (c == '\\') := by
    intro c
    rw [Bool.eq_iff_iff, beq_iff_eq, beq_iff_eq, hyphen_eq_iff (by decide) (by decide)]
  have feed : ∀ c, (hyphen c != '\n') = (c != '\n') := by
    intro c
    rw [Bool.eq_iff_iff, bne_iff_ne, bne_iff_ne, ne_eq, hyphen_eq_iff (by decide) (by decide)]
  match v, some_ with
  | [c], _ =>
      cases z with
      | nil => simp [startsEscape]
      | cons d z =>
          show startsEscape (hyphen c :: d :: z) = startsEscape (c :: d :: z)
          rw [startsEscape_cons, startsEscape_cons, backslash]
  | c :: d :: v, _ =>
      show startsEscape (hyphen c :: hyphen d :: (hyphenate v ++ z)) = startsEscape (c :: d :: (v ++ z))
      rw [startsEscape_cons, startsEscape_cons, backslash, feed]

/-- **A name is as long with hyphens**, by induction on it. -/
theorem nameExtent_hyphenate : ∀ v z : List Char, nameExtent (hyphenate v ++ z) = nameExtent (v ++ z)
  | [], _ => rfl
  | [c], z => by
      by_cases same : c = '_'
      · subst same
        show nameExtent ('-' :: z) = nameExtent ('_' :: z)
        rw [nameExtent_cons (by decide), nameExtent_cons (by decide)]
      · rw [hyphenate_cons, hyphen_of_ne same, hyphenate_nil]
  | c :: d :: v, z => by
      by_cases name : isNameChar c
      · have name' : isNameChar (hyphen c) := by rwa [isNameChar_hyphen]
        have ih := nameExtent_hyphenate (d :: v) z
        rw [hyphenate_cons, List.cons_append, List.cons_append, nameExtent_cons name',
          nameExtent_cons name, ih]
      · have plain : ¬ isNameChar (hyphen c) := by rwa [isNameChar_hyphen]
        have escape := startsEscape_hyphenate (List.cons_ne_nil c (d :: v)) z
        simp only [hyphenate_cons, List.cons_append] at escape ⊢
        rw [startsEscape_cons, startsEscape_cons] at escape
        rw [nameExtent, nameExtent, if_neg plain, if_neg name, escape, nameExtent_hyphenate v z]

/-! ## Identifiers -/

theorem identLike_ident_iff :
    identLike (v ++ z) = (.ident, v.length) ↔ nameExtent (v ++ z) = v.length ∧ z.head? ≠ some '(' := by
  rw [identLike_eq]
  split
  next paren =>
    refine iff_of_false (fun same => ?_) fun own => ?_
    · split_ifs at same <;> cases congrArg Prod.fst same
    · rw [own.1, List.drop_left] at paren
      exact own.2 paren
  next plain =>
    rw [Prod.mk.injEq]
    refine ⟨fun own => ⟨own.2, ?_⟩, fun own => ⟨rfl, own.1⟩⟩
    rwa [own.2, List.drop_left] at plain

/-- Where a word is cut off, a name begins that closes no comment of a page. -/
theorem startsIdent_of_word (word : (lexemeAt c rest).1 ∈ wordKinds) :
    isBlank c = false ∧ startsIdent (c :: rest) ∧ ¬ "-->".toList <+: c :: rest := by
  rw [← List.isPrefixOf_iff_prefix]
  simp only [lexemeAt] at word
  split at word
  next => exact absurd word (by simp [wordKinds])
  next solid =>
    split at word
    next => exact absurd word (by simp [wordKinds])
    split at word
    next => exact absurd word (by simp [wordKinds])
    split at word
    next => exact absurd word (by simp [wordKinds])
    next opens =>
      split at word
      next =>
        have other := kind_numeric (c :: rest)
        exact absurd word ((by decide : ∀ kind ∈ numberKinds, kind ∉ wordKinds) _ other)
      split at word
      next starts => exact ⟨by simpa using solid, starts, opens⟩
      split at word
      next =>
        dsimp only at word
        split at word <;> exact absurd word (by simp [wordKinds])
      split at word
      next => exact absurd word (by simp [wordKinds])
      split at word
      next => exact absurd word (by simp [wordKinds])
      next =>
        have other := kind_signKind c
        exact absurd word ((by decide : ∀ kind ∈ signKinds, kind ∉ wordKinds) _ other)

/-- **Where an identifier is cut off**: a name begins, closes no comment of a page, ends there, and no
parenthesis follows. -/
theorem lexemeAt_ident_iff {tail : List Char} :
    lexemeAt c (tail ++ z) = (.ident, (c :: tail).length) ↔
      isBlank c = false ∧ startsIdent (c :: (tail ++ z)) ∧ ¬ "-->".toList <+: c :: (tail ++ z) ∧
        nameExtent (c :: (tail ++ z)) = (c :: tail).length ∧ z.head? ≠ some '(' := by
  rw [← List.cons_append, ← identLike_ident_iff]
  constructor
  · intro measured
    have word : (lexemeAt c (tail ++ z)).1 ∈ wordKinds := by simp [measured, wordKinds]
    obtain ⟨solid, starts, opens⟩ := startsIdent_of_word word
    exact ⟨solid, starts, opens, (lexemeAt_word solid starts opens).symm.trans measured⟩
  · rintro ⟨solid, starts, opens, own⟩
    exact (lexemeAt_word solid starts opens).trans own

/-! ## Identifiers with hyphens -/

/-- Still a name with hyphens for its underscores, whatever begins `z`: it is no underscore alone, no
digit follows a first one, and two hyphens close no comment of a page. -/
structure Hyphenable (v z : List Char) : Prop where
  long : v ≠ ['_']
  digit : ∀ d rest, v = '_' :: d :: rest → d.isDigit = false
  opens : hyphenate v = ['-', '-'] → z.head? ≠ some '>'

/-- A name with hyphens closes a comment of a page if it is two hyphens before a `>`. -/
theorem closes_hyphenate_iff (some_ : v ≠ []) (name : nameExtent (v ++ z) = v.length) :
    "-->".toList <+: hyphenate v ++ z ↔ hyphenate v = ['-', '-'] ∧ z.head? = some '>' := by
  have behind := nameExtent_drop (v ++ z)
  rw [name, List.drop_left, nameExtent_eq_zero] at behind
  match v, some_ with
  | [c], _ =>
      -- No dash follows the name.
      have other : z.head? ≠ some '-' := by
        intro dash
        simp [dash, isNameChar] at behind
      cases z with
      | nil => simp
      | cons d z =>
          have other' : '-' ≠ d := fun same => other (by rw [same]; rfl)
          simp [other']
  | [c, d], _ => cases z <;> simp [eq_comm, and_assoc]
  | c :: d :: e :: v, _ =>
      -- A name does not go on with a `>`.
      refine iff_of_false (fun closes => ?_) (by simp)
      simp only [hyphenate_cons, List.cons_append] at closes
      obtain ⟨first, second, third, -⟩ : '-' = hyphen c ∧ '-' = hyphen d ∧ '>' = hyphen e ∧ True := by
        simpa using closes
      have names : isNameChar c ∧ isNameChar d := by
        rw [← isNameChar_hyphen c, ← isNameChar_hyphen d, ← first, ← second]
        decide
      obtain rfl : e = '>' := (hyphen_eq_iff (by decide) (by decide)).mp third.symm
      have stops : nameExtent ('>' :: (v ++ z)) = 0 :=
        nameExtent_eq_zero.mpr ⟨rfl, startsEscape_of_ne (by decide) _⟩
      simp only [List.cons_append] at name
      rw [nameExtent_cons names.1, nameExtent_cons names.2, stops] at name
      simp at name

/-- Behind a hyphen a name with hyphens goes on with what may stand in one, but no digit. -/
theorem startsIdent_dash_hyphenate (d : Char) (rest z : List Char) :
    startsIdent ('-' :: (hyphenate (d :: rest) ++ z)) =
      (startsEscape (d :: (rest ++ z)) || isNameChar d && !d.isDigit) := by
  have begins : (isNameStart (hyphen d) || hyphen d == '-') = (isNameChar d && !d.isDigit) := by
    by_cases same : d = '_'
    · subst same
      rfl
    · rw [hyphen_of_ne same, isNameChar]
      cases start : isNameStart d with
      | true => simp [not_isDigit_of_isNameStart start]
      | false =>
          by_cases dash : d = '-'
          · subst dash
            rfl
          · simp [beq_false_of_ne dash]
  rw [startsIdent_dash, startsEscape_hyphenate (List.cons_ne_nil d rest), ← begins]
  rfl

/-- A name with hyphens begins as one, unless its first character was an underscore with nothing or a
digit behind it. -/
theorem startsIdent_hyphenate_iff (starts : startsIdent (c :: (rest ++ z)))
    (name : nameExtent (c :: (rest ++ z)) = (c :: rest).length) :
    startsIdent (hyphenate (c :: rest) ++ z) ↔
      c :: rest ≠ ['_'] ∧ ∀ d more, c :: rest = '_' :: d :: more → d.isDigit = false := by
  by_cases first : c = '_'
  · subst first
    rw [hyphenate_cons, List.cons_append, show hyphen '_' = '-' from rfl]
    rw [nameExtent_cons (by decide), List.length_cons, Nat.add_right_cancel_iff] at name
    cases rest with
    | nil =>
        obtain ⟨plain, escape⟩ := nameExtent_eq_zero.mp (show nameExtent z = 0 from name)
        refine iff_of_false ?_ (by simp)
        rw [hyphenate_nil, List.nil_append, startsIdent_dash]
        cases z with
        | nil => simp [startsEscape]
        | cons d z =>
            obtain ⟨⟨start, -⟩, dash⟩ : (isNameStart d = false ∧ d.isDigit = false) ∧ d ≠ '-' := by
              simpa [isNameChar] using plain
            simp [escape, start, dash]
    | cons d more =>
        rw [startsIdent_dash_hyphenate]
        -- The name goes on with a character of one or with an escape, which is no digit.
        by_cases inName : isNameChar d
        · have other : d ≠ '\\' := by
            rintro rfl
            cases inName
          simp [inName, startsEscape_of_ne other]
        · have escape : startsEscape (d :: (more ++ z)) := by
            by_contra plain
            have none_ : nameExtent (d :: (more ++ z)) = 0 :=
              nameExtent_eq_zero.mpr ⟨by simpa using inName, by simpa using plain⟩
            rw [List.cons_append, none_] at name
            cases name
          have digit : d.isDigit = false := by
            by_contra digit
            simp [isNameChar, digit] at inName
          simp [escape, digit]
  · refine iff_of_true ?_ ⟨by simp [first], fun d more same => absurd (List.cons.inj same).1 first⟩
    have escape := startsEscape_hyphenate (List.cons_ne_nil c rest) z
    rw [hyphenate_cons, hyphen_of_ne first, List.cons_append] at escape ⊢
    by_cases dash : c = '-'
    · subst dash
      cases rest with
      | nil => exact starts
      | cons d more =>
          rw [startsIdent_dash] at starts
          rw [startsIdent_dash_hyphenate]
          have part : startsEscape (d :: (more ++ z)) ∨ isNameStart d ∨ d = '-' := by
            simpa using starts
          rcases part with escape | start | rfl
          · simp [escape]
          · simp [isNameChar_of_isNameStart start, not_isDigit_of_isNameStart start]
          · simp [isNameChar]
    · rw [startsIdent_cons dash, escape]
      rwa [startsIdent_cons dash] at starts

/-- **An identifier with hyphens is one** if, and only if, it may have them. -/
theorem lexemeAt_hyphenate_iff (measured : lexemeAt c (rest ++ z) = (.ident, (c :: rest).length)) :
    lexemeAt (hyphen c) (hyphenate rest ++ z) = (.ident, (c :: rest).length) ↔
      Hyphenable (c :: rest) z := by
  obtain ⟨solid, starts, -, name, paren⟩ := lexemeAt_ident_iff.mp measured
  have length : (c :: rest).length = (hyphen c :: hyphenate rest).length := by simp [hyphenate]
  have solid' : isBlank (hyphen c) = false := by
    rw [hyphen]
    split
    · rfl
    · exact solid
  have name' : nameExtent (hyphen c :: (hyphenate rest ++ z)) = (c :: rest).length :=
    (nameExtent_hyphenate (c :: rest) z).trans name
  have begins := startsIdent_hyphenate_iff starts name
  have closes := closes_hyphenate_iff (List.cons_ne_nil c rest) name
  simp only [hyphenate_cons, List.cons_append] at begins closes
  rw [length, lexemeAt_ident_iff, ← length, begins, closes, not_and]
  constructor
  · rintro ⟨-, ⟨long, digit⟩, opens, -⟩
    exact ⟨long, digit, opens⟩
  · rintro ⟨long, digit, opens⟩
    exact ⟨solid', ⟨long, digit⟩, opens, name', paren⟩

/-! ## Names of ids and classes -/

/-- `t` is the name of an id or a class, and `lead` the sign in front of it, if that is a token of its
own. -/
inductive Names : Tokens → Token TokenKind → Prop
  | ofId {t : Token TokenKind} : t.kind = .hash → Names [] t
  | ofClass {point t : Token TokenKind} : point.kind = .delim → point.text = ['.'] → t.kind = .ident →
    Names [point] t

section Tokens

variable {front lead back : Tokens} {t point : Token TokenKind} {origin : Position}

theorem Names.underscore_notMem (names : Names lead t) : '_' ∉ textOf lead := by
  cases names with
  | ofId => exact List.not_mem_nil
  | ofClass _ sign => simp [textOf, sign]

/-- The token with hyphens for its underscores. -/
def hyphenated (t : Token TokenKind) : Token TokenKind := { t with text := hyphenate t.text }

theorem wide_hyphenate (t : Token TokenKind) (p : Position) : p.after (hyphenate t.text) = p.after t.text :=
  after_hyphenate p t.text

/-- A `#` begins a hash if a name follows. -/
theorem lexemeAt_sharp (rest : List Char) : lexemeAt '#' rest =
    if nameExtent rest = 0 then (.delim, 1) else (.hash, 1 + nameExtent rest) := by
  by_cases none_ : nameExtent rest = 0 <;>
    simp [lexemeAt, isBlank, List.isPrefixOf, startsNumber, startsUnsigned, startsDigit, startsIdent,
      isNameStart, startsEscape, isQuote, signKind, isControl, none_]

theorem eq_sharp_of_hash {n : Nat} (measured : lexemeAt c rest = (.hash, n)) : c = '#' := by
  cases shape_of measured with
  | hash first => exact first
  | number _ _ own => exact absurd own (by decide)
  | word _ _ own => exact absurd own (by decide)
  | sign _ _ own => exact absurd own (by decide)

/-- A point before no digit is a lexeme of its own. -/
theorem lexemeAt_point (plain : startsDigit rest = false) : lexemeAt '.' rest = (.delim, 1) := by
  have number : startsNumber ('.' :: rest) = false := by
    rw [← Bool.not_eq_true, startsNumber_cons]
    simp [plain]
  simp [lexemeAt, isBlank, List.isPrefixOf, number, startsIdent, isNameStart, startsEscape, isQuote,
    signKind, isControl]

/-- A point looks to what stands in front of it like any other one before no digit. -/
theorem alike_point {a b : List Char} (plain : startsDigit b = false) : Alike ('.' :: a) ('.' :: b) where
  some_ := List.cons_ne_nil _ _
  name := id
  escape := by simp [startsEscape]
  ident := by simp [startsIdent, startsEscape, isNameStart]
  dashed := by simp [startsIdent, startsEscape, isNameStart]
  digit := id
  signed := by simp [startsDigit, signExtent]
  fraction := by simp [fractionExtent, plain]
  exponent := by simp [exponentExtent_cons]
  sign := by simp
  tail := by simp [signTails]
  quote := by simp [trimStart, trimStartBy, isBlank, isQuote]

/-- **The name of an id with hyphens**: all other tokens stay as they are. -/
theorem tokenize_hyphenated_id (kind : t.kind = .hash)
    (split : tokenize cs origin = front ++ ([] ++ t :: back)) :
    tokenize (textOf front ++ (textOf ([] : Tokens) ++ (hyphenate t.text ++ textOf back))) origin =
      front ++ ([] ++ hyphenated t :: back) := by
  obtain ⟨c, tail, text, measured⟩ := exists_lexemeAt_text split (by simp [kind])
  rw [kind] at measured
  obtain rfl := eq_sharp_of_hash measured
  have parted : tokenize cs origin = (front ++ [t]) ++ back := by simp [split]
  have old : textOf ([] ++ t :: back) = '#' :: (tail ++ textOf back) := by
    rw [List.nil_append, textOf_cons, text, List.cons_append]
  have new : textOf ([] : Tokens) ++ (hyphenate t.text ++ textOf back) =
      '#' :: (hyphenate tail ++ textOf back) := by
    rw [text]
    rfl
  refine tokenize_reworded split (wide_hyphenate t) ?_ ?_ ?_ ?_
  · rw [old, new]
    refine alike_of_inert rfl (List.cons_ne_nil _ _) fun quote => ?_
    simp [trimStart, trimStartBy, isBlank, isQuote] at quote
  · rw [new]
    simp
  · rw [old, new]
    exact fun u _ => ⟨by simp [isBlank], by simp⟩
  · have measured' : lexemeAt '#' (hyphenate tail ++ textOf back) =
        (.hash, ('#' :: hyphenate tail).length) := by
      rw [lexemeAt_sharp, nameExtent_hyphenate, ← lexemeAt_sharp, measured]
      simp [hyphenate]
    rw [new, ← List.cons_append, cut_of_lexemeAt measured', cut_behind parted (by simp), text, kind]
    rfl

/-- **The name of a class with hyphens**: all other tokens stay as they are, if it may have them. -/
theorem tokenize_hyphenated_class (point_ : point.kind = .delim) (sign : point.text = ['.'])
    (kind : t.kind = .ident) (split : tokenize cs origin = front ++ ([point] ++ t :: back))
    (hyphenable : Hyphenable t.text (textOf back)) :
    tokenize (textOf front ++ (textOf [point] ++ (hyphenate t.text ++ textOf back))) origin =
      front ++ ([point] ++ hyphenated t :: back) := by
  have parted : tokenize cs origin = (front ++ [point, t]) ++ back := by simp [split]
  have here : tokenize cs origin = (front ++ [point]) ++ t :: back := by simp [split]
  obtain ⟨c, tail, text, measured⟩ := exists_lexemeAt_text here (by simp [kind])
  rw [kind] at measured
  rw [text] at hyphenable
  have measured' := (lexemeAt_hyphenate_iff measured).mpr hyphenable
  rw [show (c :: tail).length = (hyphen c :: hyphenate tail).length by simp [hyphenate]] at measured'
  obtain ⟨-, starts, -⟩ := lexemeAt_ident_iff.mp measured'
  have plain : startsDigit (hyphen c :: (hyphenate tail ++ textOf back)) = false := by
    have number := not_startsNumber_of_startsIdent starts
    by_contra digit
    simp [startsNumber, startsUnsigned, digit] at number
  have old : textOf ([point] ++ t :: back) = '.' :: (t.text ++ textOf back) := by
    rw [List.singleton_append, textOf_cons, textOf_cons, sign]
    rfl
  have new : textOf [point] ++ (hyphenate t.text ++ textOf back) =
      '.' :: (hyphen c :: hyphenate tail ++ textOf back) := by
    rw [textOf_cons, sign, text]
    rfl
  refine tokenize_reworded split (wide_hyphenate t) ?_ ?_ ?_ ?_
  · rw [old, new]
    exact alike_point plain
  · rw [new]
    simp
  · rw [old, new]
    exact fun u _ => ⟨by simp [isBlank], by simp⟩
  · have first : lexemeAt '.' ([] ++ (hyphen c :: hyphenate tail ++ textOf back)) = (.delim, ['.'].length) :=
      lexemeAt_point plain
    rw [new, ← List.nil_append (hyphen c :: hyphenate tail ++ _), ← List.cons_append,
      cut_of_lexemeAt first, cut_of_lexemeAt measured', cut_behind parted (by simp), text, kind]
    simp [Token.lexeme, point_, sign]

/-- **Hyphens in the name of an id or a class** keep all other tokens of a stylesheet, and this one but
for its text, if and only if the name of a class may have them. -/
theorem hyphenated_iff (names : Names lead t) (split : tokenize cs origin = front ++ (lead ++ t :: back)) :
    tokenize (textOf front ++ (textOf lead ++ (hyphenate t.text ++ textOf back))) origin =
      front ++ (lead ++ hyphenated t :: back) ↔ (t.kind = .ident → Hyphenable t.text (textOf back)) := by
  constructor
  · intro tokens kind
    rw [← List.append_assoc front] at tokens split
    obtain ⟨c, tail, text, measured⟩ := exists_lexemeAt_text split (by simp [kind])
    obtain ⟨c', tail', text', measured'⟩ := exists_lexemeAt_text tokens (by simp [hyphenated, kind])
    rw [hyphenated, text, hyphenate_cons, List.cons.injEq] at text'
    obtain ⟨rfl, rfl⟩ := text'
    rw [kind] at measured
    rw [text]
    refine (lexemeAt_hyphenate_iff measured).mp (measured'.trans ?_)
    rw [show (hyphenated t).kind = .ident from kind]
    simp [hyphenate]
  · intro hyphenable
    cases names with
    | ofId kind => exact tokenize_hyphenated_id kind split
    | ofClass point_ sign kind =>
        exact tokenize_hyphenated_class point_ sign kind split (hyphenable kind)

end Tokens

end PageLint.Css
