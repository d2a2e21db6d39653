/-
# PageLint.Proofs.Lint.Addresses — `url()` without quotes

The rule on quotes in `url()` offers to leave them out, unless there is something in the string that
needs them: white space, a quote or a parenthesis. Then `url(`, what stands behind it and the `)` make
one token. The address in it is what stands there without the white space around it. So it is the old
one if nothing but white space stands between the string and the `)`.

A comment there is no comment any more without the quotes: it becomes a part of the address, or ends it
at a `)` of its own. The rule does not look for one (`Document.comment_in_url`). Where there is none,
and only there, its fix keeps the address (`Document.url_unquoted`).
-/
import PageLint.Proofs.Css.Addresses
import PageLint.Proofs.Css.Making
import PageLint.Proofs.Css.Segments
import PageLint.Proofs.Lint.Runs
import PageLint.Proofs.Rules.Tokens

namespace PageLint

set_option autoImplicit false

open Text

/-! ## What the rule finds -/

namespace Rules

variable {ts : List CssToken} {func arg t : CssToken} {f : Finding} {fix : Fix}

theorem urlArgument?_eq_some_iff {rest : List CssToken} : urlArgument? func rest = some arg ↔
    isUrlFunction func ∧ ∃ lead back, rest = lead ++ arg :: back ∧ (∀ t ∈ lead, Css.isTrivia t) ∧
      Css.isTrivia arg = false ∧ arg.kind = .string := by
  rw [urlArgument?]
  split
  next opens =>
    rw [Option.filter_eq_some_iff, nextSignificant?, List.find?_eq_some_iff_append]
    simp only [opens, true_and, beq_iff_eq]
    constructor
    · rintro ⟨⟨solid, lead, back, rfl, trivia⟩, kind⟩
      exact ⟨lead, back, rfl, fun t member => by simpa using trivia t member, by simpa using solid, kind⟩
    · rintro ⟨lead, back, rfl, trivia, solid, kind⟩
      exact ⟨⟨by simpa using solid, lead, back, rfl, fun t member => by simpa using trivia t member⟩,
        kind⟩
  next other => simp [other]

/-- What is found of an argument: it is a string, and a fix puts what stands between its quotes, where
nothing needs them, in its place. -/
structure QuotedUrl (ts : List CssToken) (f : Finding) (func arg : CssToken) : Prop where
  within : ∃ front rest, ts = front ++ func :: rest ∧ urlArgument? func rest = some arg
  span : f.span = arg.span
  fixed : ∀ fix, f.fix = some fix → (∀ c ∈ (stringValue arg).1, needsQuotes c = false) ∧
    fix.replacement.toList = (stringValue arg).1

/-- What is found in some tokens is found in those around them. -/
theorem QuotedUrl.mono {us : List CssToken} (found : QuotedUrl ts f func arg) (inside : ts <:+: us) :
    QuotedUrl us f func arg := by
  obtain ⟨before, after, rfl⟩ := inside
  obtain ⟨front, rest, rfl, argument⟩ := found.within
  refine { found with within := ⟨before ++ front, rest ++ after, by simp, ?_⟩ }
  obtain ⟨opens, lead, back, rfl, own⟩ := urlArgument?_eq_some_iff.mp argument
  exact urlArgument?_eq_some_iff.mpr ⟨opens, lead, back ++ after, by simp, own⟩

theorem mem_quotedUrls (member : f ∈ quotedUrls ts) : ∃ func arg, QuotedUrl ts f func arg := by
  induction ts with
  | nil => cases member
  | cons t rest ih =>
      rw [quotedUrls] at member
      rcases List.mem_append.mp member with own | later
      · obtain ⟨arg, argument, rfl⟩ := Option.map_eq_some_iff.mp (Option.mem_toList.mp own)
        refine ⟨t, arg, ⟨[], rest, rfl, argument⟩, ?_, fun fix fixed => ?_⟩
        · dsimp only
          split <;> rfl
        · dsimp only at fixed
          split at fixed
          next => cases fixed
          next plain =>
            cases fixed
            exact ⟨fun c inside => by
              simpa using List.any_eq_false.mp (by simpa using plain) c inside, String.toList_ofList⟩
      · obtain ⟨func, arg, found⟩ := ih later
        exact ⟨func, arg, found.mono (List.suffix_cons t rest).isInfix⟩

/-- The rule on quotes in `url()` finds arguments among the tokens of the stylesheet. -/
theorem mem_urlUnquoted {cs : List Char} {origin : Position} {s : Subject}
    (inSheet : s ∈ (Css.Sheet.ofText cs origin).subjects) (member : f ∈ urlUnquoted s) :
    ∃ func arg, QuotedUrl (Css.tokenize cs origin) f func arg := by
  cases s with
  | cssDeclaration d =>
      obtain ⟨func, arg, found⟩ := mem_quotedUrls member
      exact ⟨func, arg, found.mono (Css.Sheet.valueTokens_infix inSheet)⟩
  | cssAtRule rule =>
      obtain ⟨func, arg, found⟩ := mem_quotedUrls member
      obtain ⟨keyword, rest, n, within, -, -, prelude, -⟩ := Css.Sheet.exists_keyword inSheet
      refine ⟨func, arg, found.mono ?_⟩
      calc rule.preludeTokens
          <:+: rest.take n := prelude ▸ Css.trimTrivia_within _
        _ <:+: keyword :: rest := ((List.take_prefix n rest).isInfix).trans (List.suffix_cons _ _).isInfix
        _ <:+: Css.tokenize cs origin := within.isInfix
  | _ => cases member

/-- What stands between the parentheses of an address without quotes, trimmed, is the address. -/
theorem urlArguments_url {name inside : List Char} (kind : t.kind = .url) (length : name.length = 4)
    (text : t.text = name ++ (inside ++ [')'])) :
    (urlArguments [t]).map Prod.fst = if trim inside = [] then [] else [trim inside] := by
  have body : t.text.drop 4 = inside ++ [')'] := by
    rw [text, ← length, List.drop_left]
  have kept : (stripTail [')'] (inside ++ [')'])).getD (inside ++ [')']) = inside := by
    rw [stripTail_eq_some_iff.mpr rfl]
    rfl
  simp only [urlArguments, kind, if_true, urlValue?, body, kept, List.isEmpty_iff]
  split_ifs <;> simp

theorem urlArguments_plain (plain : ∀ t ∈ ts, t.kind ≠ .url ∧ t.kind ≠ .function) :
    urlArguments ts = [] := by
  induction ts with
  | nil => rfl
  | cons t rest ih =>
      rw [List.forall_mem_cons] at plain
      obtain ⟨⟨url, function⟩, plain⟩ := plain
      simp [urlArguments, urlArgument?, isUrlFunction, url, function, ih plain]

theorem ne_of_isTrivia (trivia : Css.isTrivia t) : t.kind ≠ .url ∧ t.kind ≠ .function := by
  have either : t.kind = .blank ∨ t.kind = .comment := by simpa [Css.isTrivia] using trivia
  rcases either with kind | kind <;> simp [kind]

/-- The argument of a `url(` is what stands between the quotes. -/
theorem urlArguments_quoted {lead gap : List CssToken} {close : CssToken} (opens : isUrlFunction func)
    (before : ∀ t ∈ lead, Css.isTrivia t) (kind : arg.kind = .string)
    (behind : ∀ t ∈ gap, Css.isTrivia t) (closes : close.kind = .parenClose) :
    urlArguments (func :: (lead ++ arg :: (gap ++ [close]))) = [stringValue arg] := by
  have function : func.kind = .function := by
    rw [isUrlFunction, Bool.and_eq_true, beq_iff_eq] at opens
    exact opens.1
  have argument : urlArgument? func (lead ++ arg :: (gap ++ [close])) = some arg :=
    urlArgument?_eq_some_iff.mpr ⟨opens, lead, _, rfl, before, by simp [Css.isTrivia, kind], kind⟩
  have others : urlArguments (lead ++ arg :: (gap ++ [close])) = [] := by
    refine urlArguments_plain fun t member => ?_
    simp only [List.mem_append, List.mem_cons, List.not_mem_nil, or_false] at member
    rcases member with inLead | rfl | inGap | rfl
    · exact ne_of_isTrivia (before t inLead)
    · simp [kind]
    · exact ne_of_isTrivia (behind t inGap)
    · simp [closes]
  simp [urlArguments, function, argument, others]

end Rules

/-! ## Addresses without quotes -/

theorem StyleGuide.urlUnquoted_of_id : ∀ r ∈ rules, r.id = "url-unquoted" →
    r.check = reading Rules.urlUnquoted := by
  simp [rules, sharedRules, htmlRules, cssRules]

/-- **An address without its quotes.** If the rule on quotes in `url()` tells of something with a fix,
that is a string behind a function `url(`, and the fix is what stands between its quotes. If that is not
empty, and a `)` comes behind the string after trivia, then with the fix in place of the string all up
to this `)` is one token with the same address, in a stylesheet with the same lexemes otherwise, if and
only if there is no comment among these trivia. -/
theorem Document.url_unquoted {r : Rule} (isRule : r ∈ StyleGuide.rules)
    (named : r.id = "url-unquoted") (c : Checker) (file : Path) {cs : List Char} {d : Diagnostic}
    {fix : Fix} (told : d ∈ (c.runRule file (.ofText .css cs) r).diagnostics)
    (fixed : d.fix = some fix) :
    let text := Source.splice ⟨cs⟩ d.span fix.replacement.toList
    ∃ front func lead arg rest, Css.tokenize cs .start = front ++ func :: (lead ++ arg :: rest) ∧
      Rules.isUrlFunction func ∧ (∀ t ∈ lead, t.kind = .blank) ∧ arg.kind = .string ∧
      arg.span = d.span ∧ fix.replacement.toList = (Rules.stringValue arg).1 ∧
      ∀ gap close back, rest = gap ++ close :: back → (∀ t ∈ gap, Css.isTrivia t) →
        close.kind = .parenClose → (Rules.stringValue arg).1 ≠ [] →
        ((∃ whole back', Css.tokenize text .start = front ++ whole :: back' ∧ whole.kind = .url ∧
          whole.text = func.text ++
            (textOf lead ++ ((Rules.stringValue arg).1 ++ (textOf gap ++ close.text))) ∧
          (Rules.urlArguments [whole]).map Prod.fst =
            (Rules.urlArguments (func :: (lead ++ arg :: (gap ++ [close])))).map Prod.fst ∧
          back'.map Token.lexeme = back.map Token.lexeme) ↔ ∀ t ∈ gap, t.kind = .blank) := by
  intro text
  obtain ⟨s, member, f, found, rfl⟩ :=
    Checker.mem_runRule (StyleGuide.urlUnquoted_of_id r isRule named) told
  have inSheet := (List.mem_cons.mp member).resolve_left (by rintro rfl; cases found)
  obtain ⟨func, arg, own⟩ := Rules.mem_urlUnquoted inSheet found
  obtain ⟨front, _, split, argument⟩ := own.within
  obtain ⟨opens, lead, rest, rfl, trivia, -, kind⟩ := Rules.urlArgument?_eq_some_iff.mp argument
  obtain ⟨plain, replacement⟩ := own.fixed fix fixed
  have isUrl : func.kind = .function ∧ sameIgnoringCase func.text "url(" := by
    simpa [Rules.isUrlFunction] using opens
  have blank := Css.blank_of_urlFunction split isUrl.1 isUrl.2 trivia
  refine ⟨front, func, lead, arg, rest, split, opens, blank, kind, own.span.symm, replacement, ?_⟩
  rintro gap close back rfl behind closes some_
  rw [Rules.urlArguments_quoted opens trivia kind behind closes, List.map_singleton]
  -- What stands between the parentheses, and what of it is white space.
  generalize (Rules.stringValue arg).1 = kept at *
  have solid : ∀ c ∈ kept, isBlank c = false ∧ isQuote c = false ∧ c ≠ ')' := by
    intro c inside
    have own := plain c inside
    simp only [Rules.needsQuotes, Bool.or_eq_false_iff, beq_eq_false_iff_ne] at own
    exact ⟨own.1.1.1, own.1.1.2, own.2⟩
  have inText : ∀ t ∈ gap, t ∈ Css.tokenize cs .start := fun t inGap => by simp [split, inGap]
  have inText' : ∀ t ∈ lead, t ∈ Css.tokenize cs .start := fun t inLead => by simp [split, inLead]
  have leading := Css.textOf_blanks inText' blank
  have sign : close.text = [')'] :=
    Css.text_of_sign (d := ')') (by decide)
      (mem_of_mem_locate (show close ∈ Css.tokenize cs .start by simp [split])) closes
  have length : func.text.length = 4 := by
    obtain ⟨_, _, _, own, -⟩ := Css.spelled_url isUrl.2
    rw [own]
    rfl
  have trimmed : trim (textOf lead ++ (kept ++ textOf gap)) = kept ↔ ∀ c ∈ textOf gap, isBlank c :=
    trim_between some_ (fun c inside => (solid c inside).1) leading
  rw [sign]
  constructor
  · rintro ⟨whole, -, -, isWhole, own, same, -⟩
    have inside : whole.text = func.text ++ ((textOf lead ++ (kept ++ textOf gap)) ++ [')']) := by
      simp [own]
    rw [Rules.urlArguments_url isWhole length inside] at same
    refine Css.blanks_of_textOf inText behind (trimmed.mp ?_)
    split at same
    · cases same
    · exact List.singleton_inj.mp same
  · intro blanks
    have ending := Css.textOf_blanks inText blanks
    have open_ : ')' ∉ textOf lead ++ (kept ++ textOf gap) := by
      simp only [List.mem_append, not_or]
      exact ⟨fun inside => absurd (leading _ inside) (by decide), fun inside => (solid _ inside).2.2 rfl,
        fun inside => absurd (ending _ inside) (by decide)⟩
    have unquoted : (trimStart (textOf lead ++ (kept ++ textOf gap) ++ ')' :: textOf back)).head?.any
        isQuote = false := by
      obtain ⟨e, more, rfl⟩ := List.exists_cons_of_ne_nil some_
      have first := solid e List.mem_cons_self
      rw [List.append_assoc, trimStart_blanks leading]
      simp [trimStart, trimStartBy, first.1, first.2.1]
    have parted : Css.tokenize cs .start =
        front ++ (func :: (lead ++ arg :: (gap ++ [close])) ++ back) := by simp [split]
    have tokens := Css.tokenize_unquoted parted isUrl.2 open_ unquoted
    have newText : text = textOf front ++
        (func.text ++ (textOf lead ++ (kept ++ textOf gap) ++ ')' :: textOf back)) := by
      have placed : Css.tokenize cs .start = (front ++ func :: lead) ++ arg :: (gap ++ close :: back) := by
        simp [split]
      show Source.splice ⟨cs⟩ f.span fix.replacement.toList = _
      rw [replacement, own.span, Css.splice_token placed]
      simp [textOf_append, textOf_cons, sign]
    rw [← newText, locate] at tokens
    refine ⟨_, _, tokens, rfl, by simp, ?_, map_lexeme_locate _ _⟩
    rw [Rules.urlArguments_url rfl length rfl, trimmed.mpr ending, if_neg some_]

/-- White space around the string goes with the parentheses. -/
theorem Document.url_unquoted_spaced :
    let text := "a\x7bb:url( \"c\" )\x7d".toList
    let new := "a\x7bb:url( c )\x7d".toList
    ∃ r ∈ StyleGuide.rules, r.id = "url-unquoted" ∧
      ∃ d ∈ (Checker.runRule {} ⟨"a.css"⟩ (.ofText .css text) r).diagnostics,
        ∃ fix, d.fix = some fix ∧ Source.splice ⟨text⟩ d.span fix.replacement.toList = new ∧
          ∃ whole ∈ Css.tokenize new .start, whole.kind = .url ∧
            (Rules.urlArguments [whole]).map Prod.fst = [['c']] := by
  intro text new
  let r := StyleGuide.cssRules[1]
  have isRule : r ∈ StyleGuide.rules := List.mem_append_right _ (List.getElem_mem _)
  let d := r.diagnostic (Checker.severityOf {} r) ⟨"a.css"⟩
    ((Finding.filled ⟨⟨9, 1, 10⟩, ⟨12, 1, 13⟩⟩ [("quoted", "\"c\"".toList)]).suggest
      "Remove the quotes" ['c'])
  have told : d ∈ (Checker.runRule {} ⟨"a.css"⟩ (.ofText .css text) r).diagnostics := by
    decide +kernel
  have spliced : Source.splice ⟨text⟩ d.span (String.ofList ['c']).toList = new := by decide +kernel
  obtain ⟨front, func, lead, arg, rest, split, opens, blank, kind, place, -, keeps⟩ :=
    Document.url_unquoted isRule rfl {} ⟨"a.css"⟩ told rfl
  let u : Token Css.TokenKind := ⟨.string, "\"c\"".toList, d.span⟩
  let gap : Token Css.TokenKind := ⟨.blank, [' '], ⟨⟨12, 1, 13⟩, ⟨13, 1, 14⟩⟩⟩
  let close : Token Css.TokenKind := ⟨.parenClose, [')'], ⟨⟨13, 1, 14⟩, ⟨14, 1, 15⟩⟩⟩
  let brace : Token Css.TokenKind := ⟨.braceClose, ['\x7d'], ⟨⟨14, 1, 15⟩, ⟨15, 1, 16⟩⟩⟩
  have tokens : Css.tokenize text .start = (Css.tokenize text .start).take 6 ++ u :: [gap, close, brace] := by
    decide +kernel
  have parted : Css.tokenize text .start = (front ++ func :: lead) ++ arg :: rest := by simp [split]
  obtain ⟨-, rfl, rfl⟩ := Css.split_unique parted tokens place
  have trivia : ∀ t ∈ lead, Css.isTrivia t := fun t member => by simp [Css.isTrivia, blank t member]
  obtain ⟨whole, back', own, isUrl, -, same, -⟩ :=
    (keeps [gap] close [brace] rfl (by decide) rfl (by decide)).mpr (by decide)
  rw [Rules.urlArguments_quoted opens trivia kind (by decide) rfl] at same
  rw [spliced] at own
  exact ⟨r, isRule, rfl, d, told, _, rfl, spliced, whole, by simp [own], isUrl, same⟩

/-- The rule offers to leave out the quotes before a comment too, which is in the address then. -/
theorem Document.comment_in_url :
    let text := "a\x7bb:url(\"c\"/**/)\x7d".toList
    ∃ r ∈ StyleGuide.rules, r.id = "url-unquoted" ∧
      ∃ d ∈ (Checker.runRule {} ⟨"a.css"⟩ (.ofText .css text) r).diagnostics,
        ∃ fix, d.fix = some fix ∧ d.span = ⟨⟨8, 1, 9⟩, ⟨11, 1, 12⟩⟩ ∧
          (Rules.urlArguments (Css.tokenize text .start)).map Prod.fst = ["c".toList] ∧
          (Rules.urlArguments (Css.tokenize
            (Source.splice ⟨text⟩ d.span fix.replacement.toList) .start)).map Prod.fst =
            ["c/**/".toList] := by
  intro text
  let r := StyleGuide.cssRules[1]
  have isRule : r ∈ StyleGuide.rules := List.mem_append_right _ (List.getElem_mem _)
  let d := r.diagnostic (Checker.severityOf {} r) ⟨"a.css"⟩
    ((Finding.filled ⟨⟨8, 1, 9⟩, ⟨11, 1, 12⟩⟩ [("quoted", "\"c\"".toList)]).suggest
      "Remove the quotes" ['c'])
  exact ⟨r, isRule, rfl, d, by decide +kernel, _, rfl, rfl, by decide +kernel, by decide +kernel⟩

end PageLint
