/-
# PageLint.Proofs.Lint.Numbers — zeros in the values of a stylesheet

Two rules shorten numbers. The first takes the zero before a point away: the number has the same value,
kind and unit then, and nothing else in the stylesheet changes (`Document.leading_zero_removed`).

The second puts a lone `0` in the place of a length of zero, sign and unit included. That keeps the
stylesheet unless the zero runs into its neighbours (`Document.zero_unit_dropped`); behind a number it
does, where only the sign stood between the two (`Document.zero_runs_on`). What counts as zero is what
double precision holds as zero (`Document.zero_lengths`), and so is a length that is none
(`Document.tiny_length_told`).
-/
import PageLint.Proofs.Css.Making
import PageLint.Proofs.Css.Segments
import PageLint.Proofs.Css.Zeros
import PageLint.Proofs.Lint.Unended

namespace PageLint

set_option autoImplicit false

open Text

/-! ## What the rules find -/

namespace Rules

variable {ts : List CssToken} {t : CssToken} {f : Finding} {cs short : List Char}

/-- What is written with a zero before its point. -/
theorem withoutLeadingZero?_eq_some_iff : withoutLeadingZero? cs = some short ↔
    ∃ sign d rest, sign ∈ [[], ['+'], ['-']] ∧ d.isDigit ∧ cs = sign ++ '0' :: '.' :: d :: rest ∧
      short = sign ++ '.' :: d :: rest := by
  constructor
  · intro shortened
    simp only [withoutLeadingZero?] at shortened
    split at shortened
    next d rest behind =>
      split at shortened
      next digit =>
        rw [List.length_take_of_le (Css.signExtent_le cs)] at behind
        refine ⟨_, d, rest, ?_, digit, ?_, (Option.some.inj shortened).symm⟩
        · exact Css.take_signExtent cs
        · rw [← behind, List.take_append_drop]
      next => cases shortened
    next => cases shortened
  · rintro ⟨sign, d, rest, signed, digit, rfl, rfl⟩
    simp only [List.mem_cons, List.not_mem_nil, or_false] at signed
    rcases signed with rfl | rfl | rfl <;> simp [withoutLeadingZero?, Css.signExtent, digit]

/-- What is found is a number that is shorter without the zero before its point. -/
theorem mem_leadingZeros (member : f ∈ leadingZeros ts) : ∃ t ∈ ts, t.kind ∈ Css.numberKinds ∧
    ∃ short, withoutLeadingZero? t.text = some short ∧
      f = (Finding.filled t.span [("number", t.text)]).suggest "Remove the leading zero" short := by
  obtain ⟨t, inside, found⟩ := List.mem_filterMap.mp member
  obtain ⟨inText, kind⟩ := List.mem_filter.mp inside
  obtain ⟨short, shortened, rfl⟩ := Option.map_eq_some_iff.mp found
  refine ⟨t, inText, ?_, short, shortened, rfl⟩
  simp only [Bool.or_eq_true, beq_iff_eq] at kind
  rcases kind with (kind | kind) | kind <;> simp [kind, Css.numberKinds]

/-- The rule on zeros before a point finds numbers of the stylesheet. -/
theorem mem_leadingZero {s : Subject} (inText : s.From ts) (member : f ∈ leadingZero s) :
    ∃ t ∈ ts, t.kind ∈ Css.numberKinds ∧ ∃ short, withoutLeadingZero? t.text = some short ∧
      f = (Finding.filled t.span [("number", t.text)]).suggest "Remove the leading zero" short := by
  cases s with
  | cssDeclaration d =>
      obtain ⟨t, inside, found⟩ := mem_leadingZeros member
      exact ⟨t, inText.value inside, found⟩
  | cssAtRule r =>
      obtain ⟨t, inside, found⟩ := mem_leadingZeros member
      exact ⟨t, inText inside, found⟩
  | _ => cases member

/-- Opens a parenthesis. -/
def opensParen (t : CssToken) : Bool := t.kind == .function || t.kind == .parenOpen

/-- Closes a parenthesis. -/
def closesParen (t : CssToken) : Bool := t.kind == .parenClose

/-- No parenthesis that these tokens open is still open behind them: in whatever comes last of them, no
more are opened than closed. -/
def NoneOpen (ts : List CssToken) : Prop :=
  ∀ part, part <:+ ts → part.countP opensParen ≤ part.countP closesParen

theorem noneOpen_iff : NoneOpen ts ↔ Css.depthAfter opensParen closesParen 0 ts = 0 := by
  have apart : ∀ t : CssToken, opensParen t → closesParen t = false := by
    intro t opens
    simp only [opensParen, Bool.or_eq_true, beq_iff_eq] at opens
    rcases opens with kind | kind <;> simp [closesParen, kind]
  rw [← Nat.le_zero, Css.depthAfter_le_iff apart]
  rfl

/-- What is told of a length of zero. -/
def zeroLength (t : CssToken) : Finding :=
  (Finding.filled t.span [("value", t.text)]).suggest "Remove the unit" ['0']

theorem zeroLengths_cons (depth : Nat) (t : CssToken) (rest : List CssToken) :
    zeroLengths depth (t :: rest) =
      (if depth = 0 ∧ t.kind = .dimension ∧ isZeroLength t.text then [zeroLength t] else []) ++
        zeroLengths (Css.depthAfter opensParen closesParen depth [t]) rest := by
  rw [zeroLengths]
  cases kind : t.kind <;> simp [opensParen, closesParen, zeroLength, kind]

/-- **The lengths of zero that are found** are those with no parenthesis open in front of them. -/
theorem mem_zeroLengths_iff {depth : Nat} : f ∈ zeroLengths depth ts ↔ ∃ before t behind,
    ts = before ++ t :: behind ∧ Css.depthAfter opensParen closesParen depth before = 0 ∧
      t.kind = .dimension ∧ isZeroLength t.text ∧ f = zeroLength t := by
  induction ts generalizing depth with
  | nil => simp [zeroLengths]
  | cons t rest ih =>
      rw [zeroLengths_cons, List.mem_append, ih]
      constructor
      · rintro (own | ⟨before, u, behind, rfl, outside, zero⟩)
        · split at own
          next zero =>
            exact ⟨[], t, rest, rfl, zero.1, zero.2.1, zero.2.2, List.mem_singleton.mp own⟩
          next => cases own
        · exact ⟨t :: before, u, behind, rfl, outside, zero⟩
      · rintro ⟨before, u, behind, whole, outside, kind, zero, rfl⟩
        cases before with
        | nil =>
            obtain ⟨rfl, rfl⟩ := List.cons.inj whole
            left
            rw [if_pos ⟨outside, kind, zero⟩]
            exact List.mem_singleton_self _
        | cons v before =>
            obtain ⟨rfl, rfl⟩ := List.cons.inj whole
            exact .inr ⟨before, u, behind, rfl, outside, kind, zero, rfl⟩

theorem mem_zeroUnit_iff {s : Subject} : f ∈ zeroUnit s ↔ ∃ d, s = .cssDeclaration d ∧
    d.isCustom = false ∧ ¬ "flex".toList <:+ d.name ∧ f ∈ zeroLengths 0 d.valueTokens := by
  cases s with
  | cssDeclaration d =>
      rw [zeroUnit]
      split
      next exempt =>
        simp only [Bool.or_eq_true, List.isSuffixOf_iff_suffix] at exempt
        refine iff_of_false List.not_mem_nil ?_
        rintro ⟨_, ⟨⟩, custom, flex, -⟩
        exact exempt.elim (by simp [custom]) flex
      next other =>
        simp only [Bool.or_eq_true, List.isSuffixOf_iff_suffix, not_or, Bool.not_eq_true] at other
        simp only [Subject.cssDeclaration.injEq, exists_eq_left', other, not_false_eq_true, true_and]
  | _ => simp [zeroUnit]

end Rules

/-! ## Zeros before a point -/

theorem StyleGuide.leadingZero_of_id : ∀ r ∈ rules, r.id = "leading-zero" →
    r.check = reading Rules.leadingZero := by
  simp [rules, sharedRules, htmlRules, cssRules]

/-- What the rule tells of a stylesheet it tells of its numbers. -/
theorem Checker.mem_runRule_leadingZero {r : Rule} (isRule : r ∈ StyleGuide.rules)
    (named : r.id = "leading-zero") {c : Checker} {file : Path} {cs : List Char} {d : Diagnostic}
    (told : d ∈ (c.runRule file (.ofText .css cs) r).diagnostics) :
    ∃ t ∈ Css.tokenize cs .start, t.kind ∈ Css.numberKinds ∧
      ∃ short, Rules.withoutLeadingZero? t.text = some short ∧
        d = r.diagnostic (c.severityOf r) file
          ((Finding.filled t.span [("number", t.text)]).suggest "Remove the leading zero" short) := by
  obtain ⟨s, member, f, found, rfl⟩ := mem_runRule (StyleGuide.leadingZero_of_id r isRule named) told
  rcases List.mem_cons.mp member with rfl | inSheet
  · cases found
  · obtain ⟨t, inText, kind, short, shortened, rfl⟩ :=
      Rules.mem_leadingZero (Css.Sheet.subjects_from cs .start s inSheet) found
    exact ⟨t, inText, kind, short, shortened, rfl⟩

/-- **Without the zero before its point a number is the same.** What the rule tells of is a number, and
its fix is that number without the zero. With it in place, the stylesheet has the same tokens in front
and the same lexemes behind; the number has the same kind, unit and value; and the rule does not tell of
it any more. -/
theorem Document.leading_zero_removed {r : Rule} (isRule : r ∈ StyleGuide.rules)
    (named : r.id = "leading-zero") (c : Checker) (file : Path) {cs : List Char} {d : Diagnostic}
    (told : d ∈ (c.runRule file (.ofText .css cs) r).diagnostics) :
    ∃ front t back fix u back', Css.tokenize cs .start = front ++ t :: back ∧
      t.kind ∈ Css.numberKinds ∧ t.span = d.span ∧ d.fix = some fix ∧
      let text := Source.splice ⟨cs⟩ d.span fix.replacement.toList
      Css.tokenize text .start = front ++ u :: back' ∧
        u.kind = t.kind ∧ u.text = fix.replacement.toList ∧
        (Css.Numeral.split u.text).2 = (Css.Numeral.split t.text).2 ∧
        (Css.Numeral.split u.text).1.value = (Css.Numeral.split t.text).1.value ∧
        back'.map Token.lexeme = back.map Token.lexeme ∧
        ∀ d' ∈ (c.runRule file (.ofText .css text) r).diagnostics, d'.span ≠ u.span := by
  obtain ⟨t, inText, kind, short, shortened, rfl⟩ :=
    Checker.mem_runRule_leadingZero isRule named told
  obtain ⟨front, back, split⟩ := List.append_of_mem inText
  obtain ⟨sign, e, rest, signed, digit, text, rfl⟩ := Rules.withoutLeadingZero?_eq_some_iff.mp shortened
  obtain ⟨u, back', tokens, kind', short, behind⟩ := Css.tokenize_pointed split kind signed digit text
  refine ⟨front, t, back, _, u, back', split, kind, rfl, rfl, ?_⟩
  intro new
  have newText : new = textOf front ++ (sign ++ '.' :: e :: rest ++ textOf back) := by
    show Source.splice ⟨cs⟩ t.span (String.ofList _).toList = _
    rw [String.toList_ofList, Css.splice_token split]
  rw [← newText] at tokens
  obtain ⟨unit, value⟩ := Css.Numeral.split_point signed (e :: rest)
  refine ⟨tokens, kind', short.trans String.toList_ofList.symm, ?_, ?_, behind, ?_⟩
  · rw [short, text, unit]
  · rw [short, text, value]
  · intro d' told' same
    obtain ⟨t', inText', -, short', shortened', rfl⟩ :=
      Checker.mem_runRule_leadingZero isRule named told'
    obtain rfl := Css.eq_of_span inText' (by rw [tokens]; simp) same
    obtain ⟨sign', e', rest', signed', -, text', -⟩ :=
      Rules.withoutLeadingZero?_eq_some_iff.mp shortened'
    rw [short] at text'
    simp only [List.mem_cons, List.not_mem_nil, or_false] at signed signed'
    rcases signed with rfl | rfl | rfl <;> rcases signed' with rfl | rfl | rfl <;>
      simp at text'

/-- A length with a sign keeps both sign and unit. -/
theorem Document.leading_zero_removed_signed :
    let text := "a\x7bb:-0.50em\x7d".toList
    let new := "a\x7bb:-.50em\x7d".toList
    ∃ r ∈ StyleGuide.rules, r.id = "leading-zero" ∧
      ∃ d ∈ (Checker.runRule {} ⟨"a.css"⟩ (.ofText .css text) r).diagnostics,
        ∃ fix, d.fix = some fix ∧ Source.splice ⟨text⟩ d.span fix.replacement.toList = new ∧
          ∃ front u back, Css.tokenize new .start = front ++ u :: back ∧ u.kind = .dimension ∧
            u.text = "-.50em".toList ∧
            ∀ d' ∈ (Checker.runRule {} ⟨"a.css"⟩ (.ofText .css new) r).diagnostics,
              d'.span ≠ u.span := by
  intro text new
  let r := StyleGuide.cssRules[5]
  have isRule : r ∈ StyleGuide.rules := List.mem_append_right _ (List.getElem_mem _)
  let d := r.diagnostic (Checker.severityOf {} r) ⟨"a.css"⟩
    ((Finding.filled ⟨⟨4, 1, 5⟩, ⟨11, 1, 12⟩⟩ [("number", "-0.50em".toList)]).suggest
      "Remove the leading zero" "-.50em".toList)
  have told : d ∈ (Checker.runRule {} ⟨"a.css"⟩ (.ofText .css text) r).diagnostics := by
    decide +kernel
  obtain ⟨front, t, back, fix, u, back', split, -, place, fixed, tokens, kind, short, -, -, -, gone⟩ :=
    Document.leading_zero_removed isRule rfl {} ⟨"a.css"⟩ told
  obtain rfl : (⟨"Remove the leading zero", String.ofList "-.50em".toList⟩ : Fix) = fix :=
    Option.some.inj fixed
  have spliced : Source.splice ⟨text⟩ d.span (String.ofList "-.50em".toList).toList = new := by
    decide +kernel
  have parted : Css.tokenize text .start = (Css.tokenize text .start).take 4 ++
      ⟨.dimension, "-0.50em".toList, d.span⟩ :: [⟨.braceClose, ['\x7d'], ⟨⟨11, 1, 12⟩, ⟨12, 1, 13⟩⟩⟩] := by
    decide +kernel
  obtain ⟨-, rfl, -⟩ := Css.split_unique split parted place
  rw [spliced] at tokens gone
  exact ⟨r, isRule, rfl, d, told, _, rfl, spliced, front, u, back', tokens, kind,
    short.trans String.toList_ofList, gone⟩

/-! ## Lengths of zero -/

theorem StyleGuide.zeroUnit_of_id : ∀ r ∈ rules, r.id = "zero-unit" →
    r.check = reading Rules.zeroUnit ∧ r.targets = [.cssDeclaration] ∧ r.languages = [.css] := by
  simp [rules, sharedRules, htmlRules, cssRules]

/-- **What the rule tells of a stylesheet** are the lengths of zero outside parentheses in the values of
its declarations, but for custom properties and those that are named for a basis. -/
theorem Checker.mem_runRule_zeroUnit_iff {r : Rule} (isRule : r ∈ StyleGuide.rules)
    (named : r.id = "zero-unit") {c : Checker} {file : Path} {cs : List Char} {d : Diagnostic} :
    d ∈ (c.runRule file (.ofText .css cs) r).diagnostics ↔
      ∃ decl, .cssDeclaration decl ∈ (Css.Sheet.ofText cs .start).subjects ∧
        decl.isCustom = false ∧ ¬ "flex".toList <:+ decl.name ∧
        ∃ before t behind, decl.valueTokens = before ++ t :: behind ∧ Rules.NoneOpen before ∧
          t.kind = .dimension ∧ Rules.isZeroLength t.text ∧
          d = r.diagnostic (c.severityOf r) file (Rules.zeroLength t) := by
  obtain ⟨check, targets, languages⟩ := StyleGuide.zeroUnit_of_id r isRule named
  constructor
  · intro told
    obtain ⟨s, member, f, found, rfl⟩ := mem_runRule check told
    obtain ⟨decl, rfl, custom, flex, inside⟩ := Rules.mem_zeroUnit_iff.mp found
    obtain ⟨before, t, behind, value, outside, kind, zero, rfl⟩ := Rules.mem_zeroLengths_iff.mp inside
    have inSheet := (List.mem_cons.mp member).resolve_left (by simp)
    exact ⟨decl, inSheet, custom, flex, before, t, behind, value, Rules.noneOpen_iff.mpr outside, kind,
      zero, rfl⟩
  · rintro ⟨decl, inSheet, custom, flex, before, t, behind, value, outside, kind, zero, rfl⟩
    refine mem_runRule_of_found check inSheet ?_ (Rules.mem_zeroUnit_iff.mpr ⟨decl, rfl, custom, flex, ?_⟩)
    · simp [Rule.appliesTo, targets, languages, Subject.target, Target.language?]
    · exact Rules.mem_zeroLengths_iff.mpr
        ⟨before, t, behind, value, Rules.noneOpen_iff.mp outside, kind, zero, rfl⟩

/-- The tokens of a value are tokens of the stylesheet. -/
theorem Css.Sheet.mem_tokenize {cs : List Char} {decl : Declaration} {t : Token TokenKind}
    (declared : .cssDeclaration decl ∈ (Sheet.ofText cs .start).subjects)
    (member : t ∈ decl.valueTokens) : t ∈ tokenize cs .start := by
  have inside := valueTokens_infix declared
  exact inside.subset member

/-- **A zero for a length of zero.** What the rule tells of is a dimension, and its fix is a lone `0`.
With it in place the lexemes around it stay, and it is a number, if and only if the lexeme in front
takes no digit in and what stands behind begins with neither a percent sign nor a fraction. -/
theorem Document.zero_unit_dropped {r : Rule} (isRule : r ∈ StyleGuide.rules)
    (named : r.id = "zero-unit") (c : Checker) (file : Path) {cs : List Char} {d : Diagnostic}
    (told : d ∈ (c.runRule file (.ofText .css cs) r).diagnostics) :
    ∃ front t back fix, Css.tokenize cs .start = front ++ t :: back ∧ t.kind = .dimension ∧
      t.span = d.span ∧ d.fix = some fix ∧ fix.replacement.toList = ['0'] ∧
      (Css.lexemes (Source.splice ⟨cs⟩ d.span fix.replacement.toList) =
          front.map Token.lexeme ++ ⟨.number, ['0']⟩ :: back.map Token.lexeme ↔
        (∀ s ∈ front.getLast?, ¬ Css.TakesDigit s.lexeme) ∧ (textOf back).head? ≠ some '%' ∧
          Css.fractionExtent (textOf back) = 0) := by
  obtain ⟨decl, declared, -, -, before, t, behind, value, -, kind, -, rfl⟩ :=
    (Checker.mem_runRule_zeroUnit_iff isRule named).mp told
  have inText : t ∈ Css.tokenize cs .start := Css.Sheet.mem_tokenize declared (by simp [value])
  obtain ⟨front, back, split⟩ := List.append_of_mem inText
  refine ⟨front, t, back, _, split, kind, rfl, rfl, String.toList_ofList, ?_⟩
  have spliced : Source.splice ⟨cs⟩ t.span ['0'] = textOf front ++ '0' :: textOf back :=
    Css.splice_token split ['0']
  rw [← Css.zeroed_iff split kind, ← spliced, ← String.toList_ofList (l := ['0'])]
  rfl

/-- White space keeps a zero apart from what stands in front. -/
theorem Document.zero_unit_dropped_apart :
    let text := "a\x7bb:c -0px\x7d".toList
    ∃ r ∈ StyleGuide.rules, r.id = "zero-unit" ∧
      ∃ d ∈ (Checker.runRule {} ⟨"a.css"⟩ (.ofText .css text) r).diagnostics,
        ∃ fix, d.fix = some fix ∧
          ∃ front back, Css.lexemes (Source.splice ⟨text⟩ d.span fix.replacement.toList) =
            front ++ ⟨.number, ['0']⟩ :: back ∧ front.length = 6 ∧ back.length = 1 := by
  intro text
  let r := StyleGuide.cssRules[6]
  have isRule : r ∈ StyleGuide.rules := List.mem_append_right _ (List.getElem_mem _)
  let t : Rules.CssToken := ⟨.dimension, "-0px".toList, ⟨⟨6, 1, 7⟩, ⟨10, 1, 11⟩⟩⟩
  let brace : Rules.CssToken := ⟨.braceClose, ['\x7d'], ⟨⟨10, 1, 11⟩, ⟨11, 1, 12⟩⟩⟩
  have told : r.diagnostic (Checker.severityOf {} r) ⟨"a.css"⟩ (Rules.zeroLength t) ∈
      (Checker.runRule {} ⟨"a.css"⟩ (.ofText .css text) r).diagnostics := by
    decide +kernel
  obtain ⟨front, u, back, fix, split, -, place, fixed, -, apart⟩ :=
    Document.zero_unit_dropped isRule rfl {} ⟨"a.css"⟩ told
  have parted : Css.tokenize text .start = (Css.tokenize text .start).take 6 ++ t :: [brace] := by
    decide +kernel
  obtain ⟨rfl, -, rfl⟩ := Css.split_unique split parted place
  refine ⟨r, isRule, rfl, _, told, fix, fixed, _, _, apart.mpr ?_, ?_, ?_⟩ <;> decide +kernel

/-- **A zero runs on from the number in front**: without the sign that parted them, `1` and `0` are one
number. -/
theorem Document.zero_runs_on :
    let text := "a\x7bb:1-0px\x7d".toList
    ∃ r ∈ StyleGuide.rules, r.id = "zero-unit" ∧
      ∃ d ∈ (Checker.runRule {} ⟨"a.css"⟩ (.ofText .css text) r).diagnostics,
        ∃ fix, d.fix = some fix ∧ d.span = ⟨⟨5, 1, 6⟩, ⟨9, 1, 10⟩⟩ ∧
          (Css.lexemes text).drop 4 =
            [⟨.number, ['1']⟩, ⟨.dimension, "-0px".toList⟩, ⟨.braceClose, ['\x7d']⟩] ∧
          (Css.lexemes (Source.splice ⟨text⟩ d.span fix.replacement.toList)).drop 4 =
            [⟨.number, "10".toList⟩, ⟨.braceClose, ['\x7d']⟩] := by
  intro text
  let r := StyleGuide.cssRules[6]
  have isRule : r ∈ StyleGuide.rules := List.mem_append_right _ (List.getElem_mem _)
  let d := r.diagnostic (Checker.severityOf {} r) ⟨"a.css"⟩
    (Rules.zeroLength ⟨.dimension, "-0px".toList, ⟨⟨5, 1, 6⟩, ⟨9, 1, 10⟩⟩⟩)
  exact ⟨r, isRule, rfl, d, by decide +kernel, _, rfl, rfl, by decide +kernel, by decide +kernel⟩

/-- **A length of zero is one in double precision.** In a value that is neither that of a custom
property nor of one named for a basis, the rule tells of a dimension outside parentheses if and only if
its unit is one of length and its number lies no further from zero than half of the least positive
number in double precision. That number is zero if and only if all its digits are. -/
theorem Document.zero_lengths {r : Rule} (isRule : r ∈ StyleGuide.rules) (named : r.id = "zero-unit")
    (c : Checker) (file : Path) {cs : List Char} {decl : Css.Declaration}
    (declared : .cssDeclaration decl ∈ (Css.Sheet.ofText cs .start).subjects)
    (custom : decl.isCustom = false) (flex : ¬ "flex".toList <:+ decl.name)
    {before behind : List Rules.CssToken} {t : Rules.CssToken}
    (value : decl.valueTokens = before ++ t :: behind) (kind : t.kind = .dimension)
    (outside : Rules.NoneOpen before) :
    let number := (Css.Numeral.split t.text).1
    let unit := (Css.Numeral.split t.text).2
    ((∃ d ∈ (c.runRule file (.ofText .css cs) r).diagnostics, d.span = t.span) ↔
        lowerAscii unit ∈ Rules.lengthUnits ∧ |number.value| ≤ 2 ^ (-1075 : ℤ)) ∧
      (number.value = 0 ↔ ∀ e ∈ number.whole ++ number.fraction, e = '0') := by
  intro number unit
  have decimal : number.Decimal := Css.Numeral.decimal_split t.text
  have inText : t ∈ Css.tokenize cs .start := Css.Sheet.mem_tokenize declared (by simp [value])
  refine ⟨?_, Css.Numeral.value_eq_zero_iff decimal⟩
  have zero : Rules.isZeroLength t.text ↔
      lowerAscii unit ∈ Rules.lengthUnits ∧ |number.value| ≤ 2 ^ (-1075 : ℤ) := by
    show number.isZero && Rules.lengthUnits.contains (lowerAscii unit) ↔ _
    rw [Bool.and_eq_true, Css.Numeral.isZero_iff decimal, and_comm, List.contains_iff_mem]
  rw [← zero]
  constructor
  · rintro ⟨d, told, place⟩
    obtain ⟨decl', declared', -, -, before', t', behind', value', -, -, zero', rfl⟩ :=
      (Checker.mem_runRule_zeroUnit_iff isRule named).mp told
    obtain rfl := Css.eq_of_span (Css.Sheet.mem_tokenize declared' (by simp [value'])) inText place
    exact zero'
  · intro zero'
    exact ⟨_, (Checker.mem_runRule_zeroUnit_iff isRule named).mpr
      ⟨decl, declared, custom, flex, before, t, behind, value, outside, kind, zero', rfl⟩, rfl⟩

/-- A zero with a sign, a point and an exponent, behind a function. -/
theorem Document.zero_lengths_behind :
    let text := "a\x7bb:c(d) -.0e3Px\x7d".toList
    ∃ r ∈ StyleGuide.rules, r.id = "zero-unit" ∧
      ∃ d ∈ (Checker.runRule {} ⟨"a.css"⟩ (.ofText .css text) r).diagnostics,
        d.span = ⟨⟨9, 1, 10⟩, ⟨16, 1, 17⟩⟩ := by
  intro text
  let before := (Css.tokenize text .start).drop 4 |>.take 4
  let t : Rules.CssToken := ⟨.dimension, "-.0e3Px".toList, ⟨⟨9, 1, 10⟩, ⟨16, 1, 17⟩⟩⟩
  let decl : Css.Declaration :=
    { property := ['b'], propertySpan := ⟨⟨2, 1, 3⟩, ⟨3, 1, 4⟩⟩, colon := ⟨⟨3, 1, 4⟩, ⟨4, 1, 5⟩⟩
      value := "c(d) -.0e3Px".toList, valueSpan := some ⟨⟨4, 1, 5⟩, ⟨16, 1, 17⟩⟩
      valueTokens := before ++ [t], important := none, semicolon := none
      span := ⟨⟨2, 1, 3⟩, ⟨16, 1, 17⟩⟩ }
  have declarations : Subject.declarationsOf (Css.Sheet.ofText text .start).subjects = [decl] := by
    decide +kernel
  have declared : .cssDeclaration decl ∈ (Css.Sheet.ofText text .start).subjects := by
    rw [← Subject.mem_declarationsOf, declarations]
    exact List.mem_singleton_self decl
  have isRule : StyleGuide.cssRules[6] ∈ StyleGuide.rules :=
    List.mem_append_right _ (List.getElem_mem _)
  have value : decl.valueTokens = before ++ t :: [] := rfl
  have flex : ¬ "flex".toList <:+ decl.name := by decide
  have outside : Rules.NoneOpen before := Rules.noneOpen_iff.mpr (by decide +kernel)
  obtain ⟨told, zero⟩ :=
    Document.zero_lengths isRule rfl {} ⟨"a.css"⟩ declared rfl flex value rfl outside
  have parts : Css.Numeral.split t.text =
      (⟨some '-', [], ['0'], some ('e', none, ['3'])⟩, "Px".toList) := rfl
  rw [parts] at told zero
  have none_ := zero.mpr (by simp)
  obtain ⟨d, isTold, place⟩ := told.mpr ⟨by decide, by rw [none_, abs_zero]; positivity⟩
  exact ⟨_, isRule, rfl, d, isTold, place⟩

/-- **The rule tells of a length that is not zero**, if double precision holds it as zero. -/
theorem Document.tiny_length_told :
    let text := "a\x7bb:1e-400px\x7d".toList
    ∃ r ∈ StyleGuide.rules, r.id = "zero-unit" ∧
      ∃ d ∈ (Checker.runRule {} ⟨"a.css"⟩ (.ofText .css text) r).diagnostics,
        ∃ t ∈ Css.tokenize text .start, t.kind = .dimension ∧ t.span = d.span ∧
          (Css.Numeral.split t.text).1.value ≠ 0 := by
  intro text
  let r := StyleGuide.cssRules[6]
  have isRule : r ∈ StyleGuide.rules := List.mem_append_right _ (List.getElem_mem _)
  let t : Rules.CssToken := ⟨.dimension, "1e-400px".toList, ⟨⟨4, 1, 5⟩, ⟨12, 1, 13⟩⟩⟩
  let d := r.diagnostic (Checker.severityOf {} r) ⟨"a.css"⟩ (Rules.zeroLength t)
  have told : d ∈ (Checker.runRule {} ⟨"a.css"⟩ (.ofText .css text) r).diagnostics := by
    decide +kernel
  have inText : t ∈ Css.tokenize text .start := by decide +kernel
  have parts : Css.Numeral.split t.text =
      (⟨none, ['1'], [], some ('e', some '-', "400".toList)⟩, "px".toList) := rfl
  refine ⟨r, isRule, rfl, d, told, t, inText, rfl, rfl, ?_⟩
  rw [ne_eq, Css.Numeral.value_eq_zero_iff (Css.Numeral.decimal_split _), parts]
  simp

end PageLint
