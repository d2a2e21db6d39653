/-
# PageLint.Proofs.Lint.Strings — other quotes for the strings of a stylesheet

Two rules offer other quotes for a string: single ones for strings in values and selectors, double ones
for the name of an encoding. The first rule offers them only if the string does not hold a single quote.
Then the new string ends where the old one did, nothing else in the stylesheet changes, and the rule
does not tell of the string any more (`Document.single_quoted`).

The second one always offers them. With a double quote in the string, which nothing escapes, the new
string ends there and what follows it runs on (`Document.charset_breaks`). Otherwise its fix changes the
quotes only, and the rule has nothing more to tell of the at-rule (`Document.charset_requoted`).
-/
import PageLint.Proofs.Css.Making
import PageLint.Proofs.Css.Quoted
import PageLint.Proofs.Css.Segments
import PageLint.Proofs.Lint.Runs

namespace PageLint

set_option autoImplicit false

open Text

/-! ## What the rules find -/

namespace Rules

variable {ts : List CssToken} {t : CssToken} {f : Finding} {fix : Fix}

theorem stringValue_quoted {q : Char} {inner : List Char} (text : t.text = q :: (inner ++ [q])) :
    (stringValue t).1 = inner := by
  rw [stringValue]
  split
  next none_ => simp [none_] at text
  next quote body whole =>
    obtain ⟨rfl, rfl⟩ := List.cons.inj (whole.symm.trans text)
    rw [stripTail_eq_some_iff.mpr rfl]
    rfl

/-- What is found of a string: it is in double quotes, and a fix puts what stands between them, which
holds no single quote, in single ones. -/
structure DoubleQuoted (ts : List CssToken) (f : Finding) (t : CssToken) : Prop where
  member : t ∈ ts
  kind : t.kind = .string
  quote : t.text.head? = some '"'
  span : f.span = t.span
  fixed : ∀ fix, f.fix = some fix → '\'' ∉ (stringValue t).1 ∧
    fix.replacement.toList = '\'' :: ((stringValue t).1 ++ ['\''])

theorem DoubleQuoted.mono {us : List CssToken} (found : DoubleQuoted ts f t) (more : ts ⊆ us) :
    DoubleQuoted us f t :=
  { found with member := more found.member }

theorem mem_doubleQuoted {before : Option CssToken} (member : f ∈ doubleQuoted before ts) :
    ∃ t, DoubleQuoted ts f t := by
  induction ts generalizing before with
  | nil => cases member
  | cons t rest ih =>
      rw [doubleQuoted] at member
      rcases List.mem_append.mp member with own | later
      · split at own
        next double =>
          obtain rfl := List.mem_singleton.mp own
          refine ⟨t, List.mem_cons_self, double.1, double.2.1, ?_, fun fix fixed => ?_⟩
          · split <;> rfl
          · split at fixed
            next => cases fixed
            next plain =>
              cases fixed
              exact ⟨by simpa using plain, String.toList_ofList⟩
        next => cases own
      · obtain ⟨u, found⟩ := ih later
        exact ⟨u, found.mono (List.subset_cons_self t rest)⟩

/-- The rule on quotes finds strings of the stylesheet in double quotes. -/
theorem mem_singleQuotes {s : Subject} (inText : s.From ts) (member : f ∈ singleQuotes s) :
    ∃ t, DoubleQuoted ts f t := by
  cases s with
  | cssDeclaration d =>
      obtain ⟨t, found⟩ := mem_doubleQuoted member
      exact ⟨t, found.mono inText.value⟩
  | cssStyleRule r =>
      obtain ⟨selector, isSelector, inside⟩ := List.mem_flatMap.mp member
      obtain ⟨t, found⟩ := mem_doubleQuoted inside
      exact ⟨t, found.mono (inText selector isSelector)⟩
  | cssAtRule r =>
      rw [singleQuotes] at member
      split at member
      · cases member
      · obtain ⟨t, found⟩ := mem_doubleQuoted member
        exact ⟨t, found.mono inText⟩
  | _ => cases member

end Rules

/-! ## Single quotes for double ones -/

theorem StyleGuide.singleQuotes_of_id : ∀ r ∈ rules, r.id = "single-quotes" →
    r.check = reading Rules.singleQuotes := by
  simp [rules, sharedRules, htmlRules, cssRules]

/-- What the rule tells of a stylesheet it tells of its strings in double quotes. -/
theorem Checker.mem_runRule_singleQuotes {r : Rule} (isRule : r ∈ StyleGuide.rules)
    (named : r.id = "single-quotes") {c : Checker} {file : Path} {cs : List Char} {d : Diagnostic}
    (told : d ∈ (c.runRule file (.ofText .css cs) r).diagnostics) :
    ∃ f t, Rules.DoubleQuoted (Css.tokenize cs .start) f t ∧
      d = r.diagnostic (c.severityOf r) file f := by
  obtain ⟨s, member, f, found, rfl⟩ := mem_runRule (StyleGuide.singleQuotes_of_id r isRule named) told
  rcases List.mem_cons.mp member with rfl | inSheet
  · cases found
  · obtain ⟨t, own⟩ := Rules.mem_singleQuotes (Css.Sheet.subjects_from cs .start s inSheet) found
    exact ⟨f, t, own, rfl⟩

/-- **Single quotes for double ones keep the stylesheet.** If the rule on quotes tells of something with
a fix, that is a string in double quotes, and the fix is the same characters in single ones. With it in
their place, the stylesheet has the same tokens in the same places but for this string, which has the
same characters in single quotes, and the rule does not tell of it any more. -/
theorem Document.single_quoted {r : Rule} (isRule : r ∈ StyleGuide.rules)
    (named : r.id = "single-quotes") (c : Checker) (file : Path) {cs : List Char} {d : Diagnostic}
    {fix : Fix} (told : d ∈ (c.runRule file (.ofText .css cs) r).diagnostics)
    (fixed : d.fix = some fix) :
    let text := Source.splice ⟨cs⟩ d.span fix.replacement.toList
    ∃ front t back inner, Css.tokenize cs .start = front ++ t :: back ∧
      t.kind = .string ∧ t.span = d.span ∧ t.text = '"' :: (inner ++ ['"']) ∧
      fix.replacement.toList = '\'' :: (inner ++ ['\'']) ∧
      Css.tokenize text .start = front ++ Css.requote '\'' inner t :: back ∧
      ∀ d' ∈ (c.runRule file (.ofText .css text) r).diagnostics, d'.span ≠ d.span := by
  intro text
  obtain ⟨f, t, found, rfl⟩ := Checker.mem_runRule_singleQuotes isRule named told
  obtain ⟨front, back, split⟩ := List.append_of_mem found.member
  obtain ⟨q, inner, quote, quotable, whole⟩ :=
    Css.exists_quotable (mem_of_mem_locate found.member) found.kind
  obtain rfl : q = '"' := by
    have first := found.quote
    rw [show t.text = q :: (inner ++ [q]) from whole] at first
    exact Option.some.inj first
  obtain ⟨plain, replacement⟩ := found.fixed fix fixed
  rw [Rules.stringValue_quoted whole] at plain replacement
  have newText : text = textOf front ++ ('\'' :: (inner ++ ['\'']) ++ textOf back) := by
    show Source.splice ⟨cs⟩ f.span fix.replacement.toList = _
    rw [replacement, found.span, Css.splice_token split]
  have tokens : Css.tokenize text .start = front ++ Css.requote '\'' inner t :: back := by
    rw [newText]
    exact (Css.requoted_iff rfl rfl split found.kind whole).mpr (quotable.other plain)
  refine ⟨front, t, back, inner, split, found.kind, found.span.symm, whole, replacement, tokens, ?_⟩
  intro d' told' same
  obtain ⟨f', t', found', rfl⟩ := Checker.mem_runRule_singleQuotes isRule named told'
  have here : Css.requote '\'' inner t ∈ Css.tokenize text .start := by
    rw [tokens]
    simp
  have place : t'.span = (Css.requote '\'' inner t).span :=
    found'.span.symm.trans (Eq.trans same found.span)
  obtain rfl := Css.eq_of_span found'.member here place
  cases found'.quote

/-- A string that holds a double quote behind a backslash keeps it. -/
theorem Document.single_quoted_escape :
    let text := "a\x7bb:\"c\\\"d\"\x7d".toList
    let new := "a\x7bb:'c\\\"d'\x7d".toList
    ∃ r ∈ StyleGuide.rules, r.id = "single-quotes" ∧
      ∃ d ∈ (Checker.runRule {} ⟨"a.css"⟩ (.ofText .css text) r).diagnostics,
        ∃ fix, d.fix = some fix ∧ d.span = ⟨⟨4, 1, 5⟩, ⟨10, 1, 11⟩⟩ ∧
          Source.splice ⟨text⟩ d.span fix.replacement.toList = new ∧
          ∀ d' ∈ (Checker.runRule {} ⟨"a.css"⟩ (.ofText .css new) r).diagnostics,
            d'.span ≠ d.span := by
  intro text new
  let r := StyleGuide.cssRules[0]
  have isRule : r ∈ StyleGuide.rules := List.mem_append_right _ (List.getElem_mem _)
  let d := r.diagnostic (Checker.severityOf {} r) ⟨"a.css"⟩
    ((Finding.filled ⟨⟨4, 1, 5⟩, ⟨10, 1, 11⟩⟩ [("quoted", "\"c\\\"d\"".toList)]).suggest
      "Use single quotes" "'c\\\"d'".toList)
  have told : d ∈ (Checker.runRule {} ⟨"a.css"⟩ (.ofText .css text) r).diagnostics := by
    decide +kernel
  have spliced : Source.splice ⟨text⟩ d.span (String.ofList "'c\\\"d'".toList).toList = new := by
    decide +kernel
  obtain ⟨-, -, -, -, -, -, -, -, -, -, gone⟩ :=
    Document.single_quoted isRule rfl {} ⟨"a.css"⟩ told rfl
  exact ⟨r, isRule, rfl, d, told, _, rfl, rfl, spliced, spliced ▸ gone⟩

/-! ## Double quotes for single ones -/

namespace Css

variable {ts rest : Tokens} {t : Token TokenKind}

/-- What is found first of a kind that is no trivia is found first without trimming. -/
theorem find?_trimTrivia {p : Token TokenKind → Bool} (solid : ∀ t, isTrivia t → p t = false) {n : Nat}
    (found : (trimTrivia (ts.take n)).find? p = some t) : ts.find? p = some t := by
  obtain ⟨front, back, whole, before, -⟩ := (trims_trimTrivia (ts.take n)).around
  have none_ : front.find? p = none :=
    List.find?_eq_none.mpr fun u member => by simp [solid u (before u member)]
  rw [← List.take_append_drop n ts, whole, List.find?_append, List.find?_append, none_,
    Option.none_or, List.find?_append, found]
  rfl

theorem not_string_of_isTrivia (t : Token TokenKind) (trivia : isTrivia t) :
    (t.kind == .string) = false := by
  have either : t.kind = .blank ∨ t.kind = .comment := by simpa [isTrivia] using trivia
  rcases either with kind | kind <;> simp [kind]

/-- Where the prelude of an at-rule begins with tokens up to a string, that is the first string behind
its keyword, whatever the at-rule takes in. -/
theorem find?_prelude {cs : List Char} {origin : Position} {before mid back : Tokens}
    {keyword u : Token TokenKind} {rule : AtRule Item}
    (tokens : tokenize cs origin = before ++ keyword :: (mid ++ t :: back)) (kind : t.kind = .string)
    (first : ∀ v ∈ mid, v.kind ≠ .string) (member : .cssAtRule rule ∈ (Sheet.ofText cs origin).subjects)
    (place : rule.nameSpan = keyword.span)
    (found : rule.preludeTokens.find? (·.kind == .string) = some u) : u = t := by
  obtain ⟨keyword', rest, n, ⟨before', whole⟩, -, place', prelude, -⟩ := Sheet.exists_keyword member
  obtain ⟨-, -, rfl⟩ := split_unique whole.symm tokens (place'.symm.trans place)
  rw [prelude] at found
  have here := find?_trimTrivia not_string_of_isTrivia found
  rw [List.find?_append, List.find?_eq_none.mpr fun v inside => by simpa using first v inside,
    Option.none_or, List.find?_cons_of_pos (by simp [kind])] at here
  exact (Option.some.inj here).symm

end Css

/-- What is found is the first string of an at-rule for the encoding, in single quotes. -/
theorem Rules.mem_charsetDoubleQuotes {s : Subject} {f : Finding} (member : f ∈ charsetDoubleQuotes s) :
    ∃ rule t, s = .cssAtRule rule ∧ rule.preludeTokens.find? (·.kind == .string) = some t ∧
      t.text.head? = some '\'' ∧
      f = (Finding.filled t.span).suggest "Use double quotes"
        ('"' :: ((stringValue t).1 ++ ['"'])) := by
  cases s with
  | cssAtRule rule =>
      rw [charsetDoubleQuotes] at member
      split at member
      · split at member
        next t found =>
          split at member
          next quote =>
            exact ⟨rule, t, rfl, found, quote, List.mem_singleton.mp member⟩
          next => cases member
        next => cases member
      · cases member
  | _ => cases member

theorem StyleGuide.charsetDoubleQuotes_of_id : ∀ r ∈ rules, r.id = "charset-double-quotes" →
    r.check = reading Rules.charsetDoubleQuotes := by
  simp [rules, sharedRules, htmlRules, cssRules]

/-- **Double quotes around the name of an encoding.** What the rule tells of is the first string of an
at-rule, in single quotes, and its fix is the same characters in double ones. With it in their place,
the stylesheet has the same tokens in the same places but for this string, which has the same
characters in double quotes, if and only if these may stand between double quotes. Then the rule finds
nothing more in the at-rule. -/
theorem Document.charset_requoted {r : Rule} (isRule : r ∈ StyleGuide.rules)
    (named : r.id = "charset-double-quotes") (c : Checker) (file : Path) {cs : List Char}
    {d : Diagnostic} (told : d ∈ (c.runRule file (.ofText .css cs) r).diagnostics) :
    ∃ front t back inner fix rule, Css.tokenize cs .start = front ++ t :: back ∧
      t.kind = .string ∧ t.span = d.span ∧ t.text = '\'' :: (inner ++ ['\'']) ∧
      d.fix = some fix ∧ fix.replacement.toList = '"' :: (inner ++ ['"']) ∧
      .cssAtRule rule ∈ (Css.Sheet.ofText cs .start).subjects ∧ t ∈ rule.preludeTokens ∧
      let text := Source.splice ⟨cs⟩ d.span fix.replacement.toList
      (Css.tokenize text .start = front ++ Css.requote '"' inner t :: back ↔
        Css.Quotable '"' inner) ∧
      (Css.Quotable '"' inner → ∀ rule', .cssAtRule rule' ∈ (Css.Sheet.ofText text .start).subjects →
        rule'.nameSpan = rule.nameSpan → Rules.charsetDoubleQuotes (.cssAtRule rule') = []) := by
  obtain ⟨s, member, f, found, rfl⟩ :=
    Checker.mem_runRule (StyleGuide.charsetDoubleQuotes_of_id r isRule named) told
  obtain ⟨rule, t, rfl, isFirst, first, rfl⟩ := Rules.mem_charsetDoubleQuotes found
  have inSheet := (List.mem_cons.mp member).resolve_left (by simp)
  obtain ⟨keyword, rest, n, ⟨before, whole⟩, -, place, prelude, -⟩ := Css.Sheet.exists_keyword inSheet
  have here := Css.find?_trimTrivia Css.not_string_of_isTrivia (prelude ▸ isFirst)
  obtain ⟨string, mid, back, rfl, plain⟩ := List.find?_eq_some_iff_append.mp here
  have kind : t.kind = .string := by simpa using string
  have split : Css.tokenize cs .start = (before ++ keyword :: mid) ++ t :: back := by
    rw [← whole]
    simp
  have inText : t ∈ Css.tokenize cs .start := by simp [split]
  obtain ⟨q, inner, quote, quotable, text⟩ :=
    Css.exists_quotable (mem_of_mem_locate inText) kind
  have text' : t.text = q :: (inner ++ [q]) := text
  obtain rfl : q = '\'' := by
    rw [text'] at first
    exact Option.some.inj first
  rw [Rules.stringValue_quoted text']
  have iff : Css.tokenize (textOf (before ++ keyword :: mid) ++
        ('"' :: (inner ++ ['"']) ++ textOf back)) .start =
      (before ++ keyword :: mid) ++ Css.requote '"' inner t :: back ↔ Css.Quotable '"' inner :=
    Css.requoted_iff rfl rfl split kind text'
  refine ⟨_, t, back, inner, ⟨"Use double quotes", String.ofList ('"' :: (inner ++ ['"']))⟩, rule,
    split, kind, rfl, text', rfl, String.toList_ofList, inSheet, List.mem_of_find?_eq_some isFirst, ?_⟩
  intro text
  have newText : text = textOf (before ++ keyword :: mid) ++ ('"' :: (inner ++ ['"']) ++ textOf back) := by
    show Source.splice ⟨cs⟩ t.span (String.ofList _).toList = _
    rw [String.toList_ofList, Css.splice_token split]
  rw [newText]
  refine ⟨iff, fun quotable' rule' member' place' => ?_⟩
  have tokens := iff.mpr quotable'
  rw [List.append_assoc, List.cons_append] at tokens
  -- What would be found there is the first string behind the keyword, which is in double quotes now.
  by_contra some_
  obtain ⟨f, found'⟩ := List.exists_mem_of_ne_nil _ some_
  obtain ⟨_, u, ⟨⟩, isFirst', first', -⟩ := Rules.mem_charsetDoubleQuotes found'
  obtain rfl := Css.find?_prelude tokens kind (fun v inside => by simpa using plain v inside) member'
    (place'.trans place) isFirst'
  cases first'

/-- What the rule on the name of an encoding offers for a name that holds a double quote is no string:
the text after that quote runs on to the end of the line. -/
theorem Document.charset_breaks :
    let text := "@charset 'a\"b';".toList
    ∃ r ∈ StyleGuide.rules, r.id = "charset-double-quotes" ∧
      ∃ d ∈ (Checker.runRule {} ⟨"a.css"⟩ (.ofText .css text) r).diagnostics,
        ∃ fix, d.fix = some fix ∧ d.span = ⟨⟨9, 1, 10⟩, ⟨14, 1, 15⟩⟩ ∧
          (Css.tokenize text .start).map (·.kind) = [.atKeyword, .blank, .string, .semicolon] ∧
          (Css.tokenize (Source.splice ⟨text⟩ d.span fix.replacement.toList) .start).map (·.kind) =
            [.atKeyword, .blank, .string, .ident, .badString] := by
  intro text
  let r := StyleGuide.cssRules[2]
  have isRule : r ∈ StyleGuide.rules := List.mem_append_right _ (List.getElem_mem _)
  let d := r.diagnostic (Checker.severityOf {} r) ⟨"a.css"⟩
    ((Finding.filled ⟨⟨9, 1, 10⟩, ⟨14, 1, 15⟩⟩).suggest "Use double quotes" "\"a\"b\"".toList)
  exact ⟨r, isRule, rfl, d, by decide +kernel, _, rfl, rfl, by decide +kernel, by decide +kernel⟩

/-- A name that holds both quotes, each behind a backslash, keeps them. -/
theorem Document.charset_requoted_escapes :
    let text := "@charset 'a\\\"b\\'';".toList
    ∃ r ∈ StyleGuide.rules, r.id = "charset-double-quotes" ∧
      ∃ d ∈ (Checker.runRule {} ⟨"a.css"⟩ (.ofText .css text) r).diagnostics,
        ∃ fix, d.fix = some fix ∧ ∃ front t back, Css.tokenize text .start = front ++ t :: back ∧
          t.span = ⟨⟨9, 1, 10⟩, ⟨17, 1, 18⟩⟩ ∧
          Css.tokenize (Source.splice ⟨text⟩ d.span fix.replacement.toList) .start =
            front ++ Css.requote '"' "a\\\"b\\'".toList t :: back := by
  intro text
  let r := StyleGuide.cssRules[2]
  have isRule : r ∈ StyleGuide.rules := List.mem_append_right _ (List.getElem_mem _)
  let d := r.diagnostic (Checker.severityOf {} r) ⟨"a.css"⟩
    ((Finding.filled ⟨⟨9, 1, 10⟩, ⟨17, 1, 18⟩⟩).suggest "Use double quotes"
      "\"a\\\"b\\'\"".toList)
  have told : d ∈ (Checker.runRule {} ⟨"a.css"⟩ (.ofText .css text) r).diagnostics := by
    decide +kernel
  obtain ⟨front, t, back, inner, fix, -, split, -, place, own, fixed, -, -, -, iff, -⟩ :=
    Document.charset_requoted isRule rfl {} ⟨"a.css"⟩ told
  let u : Token Css.TokenKind := ⟨.string, "'a\\\"b\\''".toList, d.span⟩
  have inText : u ∈ Css.tokenize text .start := by decide +kernel
  obtain rfl : t = u := Css.eq_of_span (by simp [split]) inText place
  obtain rfl : inner = "a\\\"b\\'".toList :=
    List.append_cancel_right (List.cons.inj own).2.symm
  have extent : Css.stringExtent '"' ("a\\\"b\\'".toList ++ ['"']) = (7, true) := by decide
  exact ⟨r, isRule, rfl, d, told, fix, fixed, front, u, back, split, place,
    iff.mpr ((Css.stringExtent_iff rfl).mp extent)⟩

end PageLint
