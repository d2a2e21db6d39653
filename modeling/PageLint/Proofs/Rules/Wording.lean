/-
# PageLint.Proofs.Rules.Wording — messages that lie on one line

The message of a finding is the template of its rule with its slots filled, and each character
of it comes from the template or from what fills a slot (`mem_fillTemplate`). A slot takes a
number, a reference, or a word of the subject: a name of a tag, a property, a name or a number of
a selector, a prelude or a value. All of them lie on one line if the subject is worded, one theorem
for each rule.

Five rules are left out. They quote addresses, strings, selectors or what marks importance as it
stands, and that may go over several lines (`StyleGuide.quotingRules`). The messages of all others
lie on one line (`StyleGuide.oneLine_rules`).
-/
import PageLint.Proofs.Html.Words
import PageLint.Proofs.Rules.Pages

namespace PageLint

set_option autoImplicit false

open Text

theorem mem_fillTemplate {c : Char} {template : List Char} {slots : Slots}
    (member : c ∈ fillTemplate template slots) : c ∈ template ∨ ∃ slot ∈ slots, c ∈ slot.2 := by
  induction slots generalizing template with
  | nil => exact .inl member
  | cons slot slots ih =>
      rcases ih member with filled | ⟨later, isSlot, inside⟩
      · rcases mem_replace (List.cons_ne_nil _ _) filled with value | kept
        · exact .inr ⟨slot, List.mem_cons_self, value⟩
        · exact .inl kept
      · exact .inr ⟨later, List.mem_cons_of_mem slot isSlot, inside⟩

/-- What a finding puts into its message lies on one line. -/
def Wording.OneLine : Wording → Prop
  | .template slots => ∀ slot ∈ slots, '\n' ∉ slot.2
  | .own message => '\n' ∉ message.toList

theorem Rule.newline_notMem_messageOf {r : Rule} {f : Finding} (template : '\n' ∉ r.message.toList)
    (worded : f.wording.OneLine) : '\n' ∉ (r.messageOf f).toList := by
  rw [messageOf]
  cases wording : f.wording with
  | template slots =>
      rw [wording] at worded
      rw [String.toList_ofList]
      intro broken
      rcases mem_fillTemplate broken with inTemplate | ⟨slot, isSlot, inside⟩
      · exact template inTemplate
      · exact worded slot isSlot inside
  | own message =>
      rw [wording] at worded
      exact worded

namespace Rules

/-- What all of some findings put into their messages lies on one line. -/
def OneLine (found : List Finding) : Prop := ∀ f ∈ found, f.wording.OneLine

variable {found more : List Finding} {f : Finding} {s : Subject} {ts : List CssToken} {span : Span}

theorem oneLine_nil : OneLine [] := by simp [OneLine]

theorem oneLine_singleton (own : f.wording.OneLine) : OneLine [f] :=
  List.forall_mem_singleton.mpr own

theorem OneLine.append (first : OneLine found) (second : OneLine more) : OneLine (found ++ more) :=
  List.forall_mem_append.mpr ⟨first, second⟩

theorem oneLine_flatMap {α : Type} {xs : List α} {find : α → List Finding}
    (each : ∀ x ∈ xs, OneLine (find x)) : OneLine (xs.flatMap find) := by
  intro f member
  obtain ⟨x, found, inside⟩ := List.mem_flatMap.mp member
  exact each x found f inside

theorem oneLine_filterMap {α : Type} {xs : List α} {find : α → Option Finding}
    (each : ∀ x ∈ xs, ∀ f ∈ find x, f.wording.OneLine) : OneLine (xs.filterMap find) := by
  intro f member
  obtain ⟨x, found, same⟩ := List.mem_filterMap.mp member
  exact each x found f same

/-- A finding that fills no slot says what its rule says. -/
theorem oneLine_bare : (Wording.template []).OneLine := by simp [Wording.OneLine]

theorem oneLine_slot {name : String} {value : List Char} (one : '\n' ∉ value) :
    (Wording.template [(name, value)]).OneLine := by
  simpa [Wording.OneLine] using one

theorem oneLine_slots {name other : String} {value more : List Char} (one : '\n' ∉ value)
    (two : '\n' ∉ more) : (Wording.template [(name, value), (other, more)]).OneLine := by
  simpa [Wording.OneLine] using ⟨one, two⟩

/-! ## Sources -/

theorem oneLine_onLines {exempt : List LineRange} {src : Source} {find : Line → Option Finding}
    (each : ∀ line, ∀ f ∈ find line, f.wording.OneLine) : OneLine (onLines exempt src find) := by
  apply oneLine_filterMap
  intro line _ f found
  split at found
  · cases found
  · exact each line f found

theorem oneLine_indentation (doc : Document) : OneLine (indentation doc) := by
  apply oneLine_onLines
  intro line f found
  simp only [mendIndent] at found
  split at found
  · cases found
  split at found
  · rw [← Option.some.inj found]
    show '\n' ∉ "Indent with spaces, not tabs".toList
    decide
  split at found
  · rw [← Option.some.inj found]
    refine oneLine_slot ?_
    simpa using newline_notMem_toDigits _
  · cases found

theorem oneLine_trailingWhitespace (doc : Document) : OneLine (trailingWhitespace doc) := by
  apply oneLine_onLines
  intro line f found
  dsimp only at found
  split at found
  · cases found
  · rw [← Option.some.inj found]
    exact oneLine_bare

theorem oneLine_byteOrderMark (doc : Document) : OneLine (byteOrderMark doc) := by
  rw [byteOrderMark]
  split
  · exact oneLine_singleton oneLine_bare
  · exact oneLine_nil

/-! ## Pages -/

theorem oneLine_todosIn (before : Option Char) (p : Position) (cs : List Char) :
    OneLine (todosIn before p cs) := by
  induction cs generalizing before p with
  | nil => exact oneLine_nil
  | cons c cs ih =>
      simp only [todosIn]
      split
      · exact ih _ _
      · split
        · exact ih _ _
        · exact List.forall_mem_cons.mpr ⟨oneLine_bare, ih _ _⟩

theorem oneLine_todoFormat (s : Subject) : OneLine (todoFormat s) := by
  cases s with
  | htmlComment c => exact oneLine_todosIn none _ _
  | cssComment c => exact oneLine_todosIn none _ _
  | _ => exact oneLine_nil

theorem oneLine_doctypeHtml5 (s : Subject) : OneLine (doctypeHtml5 s) := by
  cases s with
  | htmlDoctype d =>
      simp only [doctypeHtml5]
      split
      · exact oneLine_nil
      · exact oneLine_singleton oneLine_bare
  | _ => exact oneLine_nil

theorem newline_notMem_name {e : Html.Element} (worded : e.tag.Worded) : '\n' ∉ e.name := by
  show '\n' ∉ e.tag.name
  rw [Html.mem_name_newline]
  exact worded.name

theorem oneLine_voidElementSelfClose (worded : s.Worded) : OneLine (voidElementSelfClose s) := by
  cases s with
  | htmlElement e ancestors =>
      rw [voidElementSelfClose]
      split
      · split
        · exact oneLine_singleton (oneLine_slot (newline_notMem_name worded))
        · exact oneLine_nil
      · exact oneLine_nil
  | _ => exact oneLine_nil

theorem oneLine_altAttribute (s : Subject) : OneLine (altAttribute s) := by
  cases s with
  | htmlElement e ancestors =>
      rw [altAttribute]
      split
      · exact oneLine_singleton oneLine_bare
      · exact oneLine_nil
  | _ => exact oneLine_nil

theorem oneLine_doubleQuotes (worded : s.Worded) : OneLine (doubleQuotes s) := by
  cases s with
  | htmlElement e ancestors =>
      apply oneLine_flatMap
      intro a member
      have name := Html.StartTag.Worded.attributes worded a (List.mem_of_mem_filter member)
      split
      · refine oneLine_singleton ?_
        split <;> exact oneLine_slot name
      · exact oneLine_nil
  | _ => exact oneLine_nil

theorem oneLine_optionalTags (worded : s.Worded) : OneLine (optionalTags s) := by
  cases s with
  | htmlElement e ancestors =>
      have name := newline_notMem_name worded
      rw [optionalTags]
      apply OneLine.append
      · split
        · exact oneLine_singleton (oneLine_slot (by simpa using name))
        · exact oneLine_nil
      · split
        · split
          · exact oneLine_singleton (oneLine_slot (by simpa using name))
          · exact oneLine_nil
        · exact oneLine_nil
  | _ => exact oneLine_nil

theorem oneLine_typeAttribute (worded : s.Worded) : OneLine (typeAttribute s) := by
  cases s with
  | htmlElement e ancestors =>
      rw [typeAttribute]
      split
      · split
        · exact oneLine_singleton (oneLine_slot (newline_notMem_name worded))
        · exact oneLine_nil
      · exact oneLine_nil
  | _ => exact oneLine_nil

theorem oneLine_metaCharset (s : Subject) : OneLine (metaCharset s) := by
  cases s with
  | htmlElement e ancestors =>
      rw [metaCharset]
      split
      · exact oneLine_nil
      dsimp only
      split
      · exact oneLine_singleton oneLine_bare
      · split
        · exact oneLine_nil
        · exact oneLine_singleton oneLine_bare
  | _ => exact oneLine_nil

/-- A run that a `;` ends. -/
theorem newline_notMem_ended {p : Char → Bool} {body : List Char} (feed : p '\n' = false)
    (ends : body[(body.takeWhile p).length]? = some ';') :
    '\n' ∉ body.take ((body.takeWhile p).length + 1) := by
  have run := take_extentWhile p body
  rw [extentWhile] at run
  rw [List.take_add_one, ends, run, List.mem_append, not_or]
  exact ⟨notMem_takeWhile feed body, by decide⟩

/-- A reference is made of a name or of digits between its signs. -/
theorem newline_notMem_referent {cs : List Char} {r : Referent} {n : Nat}
    (read : referent? cs = some (r, n)) : '\n' ∉ cs.take n := by
  simp only [referent?] at read
  split at read
  next x body =>
    split at read
    next hex =>
      split at read
      next ends =>
        simp only [Bool.and_eq_true, beq_iff_eq] at ends
        obtain ⟨-, rfl⟩ := Prod.mk.inj (Option.some.inj read)
        have digits := newline_notMem_ended (p := isHexDigit) (by decide) ends.2
        rw [Nat.add_assoc]
        refine notMem_take_add ?_ digits
        rcases hex with rfl | rfl <;> simp
      next => cases read
    next =>
      split at read
      next ends =>
        simp only [Bool.and_eq_true, beq_iff_eq] at ends
        obtain ⟨-, rfl⟩ := Prod.mk.inj (Option.some.inj read)
        have digits := newline_notMem_ended (p := Char.isDigit) (by decide) ends.2
        rw [Nat.add_assoc]
        exact notMem_take_add (by simp) digits
      next => cases read
  next c rest _ =>
    split at read
    · split at read
      next ends =>
        simp only [Bool.and_eq_true, beq_iff_eq] at ends
        obtain ⟨-, rfl⟩ := Prod.mk.inj (Option.some.inj read)
        rw [Nat.zero_add]
        exact newline_notMem_ended (p := Char.isAlphanum) (by decide) ends.2
      next => cases read
    · cases read
  next => cases read

theorem newline_notMem_references (p : Position) (cs : List Char) :
    ∀ r ∈ references p cs, '\n' ∉ r.2.1 := by
  induction cs generalizing p with
  | nil => simp [references]
  | cons c cs ih =>
      simp only [references]
      split
      next amp =>
        split
        next r n named =>
          refine List.forall_mem_cons.mpr ⟨?_, ih _⟩
          rw [amp, List.mem_cons, not_or]
          exact ⟨by decide, newline_notMem_referent named⟩
        next => exact ih _
      next => exact ih _

theorem wording_judgeReference {r : Referent} {text : List Char} {f : Finding}
    (judged : judgeReference r text span = some f) : f.wording = .template [("entity", text)] := by
  rw [judgeReference.eq_def] at judged
  dsimp only at judged
  split at judged
  next name =>
    split at judged
    · cases judged
    · rw [← Option.some.inj judged]
      cases namedCharacters.lookup name <;> rfl
  next code =>
    obtain ⟨c, -, rfl⟩ := Option.map_eq_some_iff.mp judged
    rfl

theorem oneLine_referencesIn (p : Position) (cs : List Char) : OneLine (referencesIn p cs) := by
  apply oneLine_filterMap
  intro r member f found
  rw [wording_judgeReference found]
  exact List.forall_mem_singleton.mpr (newline_notMem_references p cs r member)

theorem oneLine_entityReferences (s : Subject) : OneLine (entityReferences s) := by
  cases s with
  | htmlText t =>
      rw [entityReferences]
      split
      · exact oneLine_nil
      · exact oneLine_referencesIn _ _
  | htmlElement e ancestors =>
      apply oneLine_flatMap
      intro a _
      split
      · exact oneLine_referencesIn _ _
      · exact oneLine_nil
  | _ => exact oneLine_nil

/-! ## Stylesheets -/

theorem oneLine_charsetDoubleQuotes (s : Subject) : OneLine (charsetDoubleQuotes s) := by
  cases s with
  | cssAtRule r =>
      rw [charsetDoubleQuotes]
      split
      · split
        · split
          · exact oneLine_singleton oneLine_bare
          · exact oneLine_nil
        · exact oneLine_nil
      · exact oneLine_nil
  | _ => exact oneLine_nil

theorem oneLine_underscored {name : List Char} (one : '\n' ∉ name) :
    OneLine (underscored name span) := by
  rw [underscored]
  split
  · exact oneLine_singleton (oneLine_slot one)
  · exact oneLine_nil

/-- The tokens of a site are tokens of its selector. -/
theorem site_subset {selector : Css.Selector} {site : Site} (member : site ∈ sitesOf selector) :
    site.here ∈ selector.tokens ∧ site.after ⊆ selector.tokens := by
  have inside := (sitesOutsideBrackets_sublist false none selector.tokens site member).subset
  exact ⟨inside List.mem_cons_self, (List.cons_subset.mp inside).2⟩

theorem kind_className? {point name : CssToken} {rest : List CssToken}
    (named : className? point rest = some name) : name.kind = .ident := by
  rw [className?] at named
  split at named
  · simpa using (Option.filter_eq_some_iff.mp named).2
  · cases named

theorem glued_className? {point name : CssToken} {rest : List CssToken}
    (named : className? point rest = some name) :
    point.kind = .delim ∧ point.text = ['.'] ∧ name.span.start = point.span.finish := by
  rw [className?] at named
  split at named
  next isPoint =>
    obtain ⟨glued, -⟩ := Option.filter_eq_some_iff.mp named
    rw [glued?, Option.filter_eq_some_iff, beq_iff_eq] at glued
    exact ⟨isPoint.1, isPoint.2, glued.2⟩
  · cases named

theorem oneLine_idClassHyphen (worded : s.Worded) : OneLine (idClassHyphen s) := by
  cases s with
  | cssStyleRule r =>
      refine oneLine_flatMap fun selector member => oneLine_flatMap fun site isSite => ?_
      have words := worded selector ((selectorsOf_sublist r).subset member)
      obtain ⟨here, after⟩ := site_subset isSite
      split
      next hash => exact oneLine_underscored (words _ here (by rw [hash]; rfl))
      next =>
        split
        next name named =>
          have ident := words name (after (className?_mem named))
            (by rw [kind_className? named]; rfl)
          exact oneLine_underscored (by simpa using ident)
        next => exact oneLine_nil
  | _ => exact oneLine_nil

theorem shortHex?_subset {cs short : List Char} (shortened : shortHex? cs = some short) :
    short ⊆ cs := by
  rw [shortHex?.eq_def] at shortened
  split at shortened
  · split at shortened
    · rw [← Option.some.inj shortened]
      simp
    · cases shortened
  · cases shortened

theorem oneLine_threeDigitHex (worded : s.Worded) : OneLine (threeDigitHex s) := by
  cases s with
  | cssDeclaration d =>
      apply oneLine_filterMap
      intro t member f found
      obtain ⟨inside, hash⟩ := List.mem_filter.mp member
      obtain ⟨short, shortened, rfl⟩ := Option.map_eq_some_iff.mp found
      have color := Css.Declaration.Worded.value worded t inside (by rw [beq_iff_eq.mp hash]; rfl)
      refine oneLine_slots color ?_
      rw [List.mem_cons, not_or]
      refine ⟨by decide, fun broken => ?_⟩
      exact color (List.mem_of_mem_drop (shortHex?_subset shortened broken))
  | _ => exact oneLine_nil

theorem oneLine_leadingZeros (worded : Css.Worded ts) : OneLine (leadingZeros ts) := by
  apply oneLine_filterMap
  intro t member f found
  obtain ⟨inside, kind⟩ := List.mem_filter.mp member
  obtain ⟨short, -, rfl⟩ := Option.map_eq_some_iff.mp found
  refine oneLine_slot (worded t inside ?_)
  simp only [Bool.or_eq_true, beq_iff_eq] at kind
  rcases kind with (kind | kind) | kind <;> rw [kind] <;> rfl

theorem oneLine_leadingZero (worded : s.Worded) : OneLine (leadingZero s) := by
  cases s with
  | cssDeclaration d => exact oneLine_leadingZeros (Css.Declaration.Worded.value worded)
  | cssAtRule r => exact oneLine_leadingZeros worded
  | _ => exact oneLine_nil

theorem oneLine_zeroLengths (worded : Css.Worded ts) (depth : Nat) :
    OneLine (zeroLengths depth ts) := by
  induction ts generalizing depth with
  | nil => exact oneLine_nil
  | cons t rest ih =>
      have later := ih (worded.subset (List.subset_cons_self t rest))
      rw [zeroLengths]
      split
      · exact later _
      · exact later _
      · exact later _
      next kind =>
        refine OneLine.append ?_ (later _)
        split
        · exact oneLine_singleton (oneLine_slot (worded t List.mem_cons_self (by rw [kind]; rfl)))
        · exact oneLine_nil
      · exact later _

theorem oneLine_zeroUnit (worded : s.Worded) : OneLine (zeroUnit s) := by
  cases s with
  | cssDeclaration d =>
      rw [zeroUnit]
      split
      · exact oneLine_nil
      · exact oneLine_zeroLengths (Css.Declaration.Worded.value worded) 0
  | _ => exact oneLine_nil

theorem oneLine_declarationSemicolon (worded : s.Worded) : OneLine (declarationSemicolon s) := by
  cases s with
  | cssBlock b =>
      rw [declarationSemicolon]
      split
      next d last =>
        split
        · have property := (worded d (List.mem_of_getLast? last)).property
          exact oneLine_singleton (oneLine_slot property)
        · exact oneLine_nil
      next => exact oneLine_nil
  | _ => exact oneLine_nil

theorem oneLine_propertyColonSpace (doc : Document) (worded : s.Worded) :
    OneLine (propertyColonSpace doc s) := by
  cases s with
  | cssDeclaration d =>
      have property := Css.Declaration.Worded.property worded
      rw [propertyColonSpace]
      apply OneLine.append
      · split
        · exact oneLine_singleton (oneLine_slot property)
        · exact oneLine_nil
      · split
        · exact oneLine_nil
        dsimp only
        split
        · exact oneLine_singleton (oneLine_slot property)
        split
        · exact oneLine_singleton (oneLine_slot property)
        · exact oneLine_nil
  | _ => exact oneLine_nil

theorem oneLine_alphabeticalDeclarations (worded : s.Worded) :
    OneLine (alphabeticalDeclarations s) := by
  cases s with
  | cssBlock b =>
      apply oneLine_filterMap
      intro pair member f found
      obtain ⟨previous, current⟩ := mem_of_mem_neighbours member
      dsimp only at found
      split at found
      · cases found
      split at found
      · rw [← Option.some.inj found]
        exact oneLine_slots (worded _ current).property (worded _ previous).property
      · cases found
  | _ => exact oneLine_nil

theorem oneLine_important (worded : s.Worded) : OneLine (important s) := by
  cases s with
  | cssDeclaration d =>
      intro f found
      obtain ⟨i, -, rfl⟩ := Option.map_eq_some_iff.mp (Option.mem_toList.mp found)
      exact oneLine_slot (Css.Declaration.Worded.property worded)
  | _ => exact oneLine_nil

theorem oneLine_declarationNewline (worded : s.Worded) : OneLine (declarationNewline s) := by
  cases s with
  | cssBlock b =>
      rw [declarationNewline]
      split
      · exact oneLine_nil
      · apply oneLine_filterMap
        intro pair member f found
        dsimp only at found
        split at found
        · rw [← Option.some.inj found]
          exact oneLine_slot (worded _ (mem_of_mem_neighbours member).2).property
        · cases found
  | _ => exact oneLine_nil

theorem oneLine_badGap (doc : Document) (headEnd : Position) (opening : Span) :
    OneLine (badGap doc headEnd opening) := by
  simp only [badGap]
  split
  · exact oneLine_nil
  · refine oneLine_singleton ?_
    split
    · exact oneLine_bare
    split
    · show '\n' ∉ "Put the opening brace on the same line as the selector".toList
      decide
    · exact oneLine_bare

theorem oneLine_braceSpacing (doc : Document) (s : Subject) : OneLine (braceSpacing doc s) := by
  cases s with
  | cssStyleRule r =>
      rw [braceSpacing]
      split
      · exact oneLine_badGap _ _ _
      · exact oneLine_nil
  | cssAtRule r =>
      rw [braceSpacing]
      split
      · exact oneLine_badGap _ _ _
      · exact oneLine_nil
  | _ => exact oneLine_nil

theorem oneLine_crowdedRules (previous : Option Css.Item) (lead : Option Position)
    (items : List Css.Item) : OneLine (crowdedRules previous lead items) := by
  fun_induction crowdedRules previous lead items with
  | case1 => exact oneLine_nil
  | case2 previous lead c rest starts ih => exact ih
  | case3 previous lead block rest ih => exact ih
  | case4 previous lead item rest _ _ own ih =>
      refine OneLine.append ?_ ih
      simp only [own]
      split
      · exact oneLine_nil
      split
      · exact oneLine_singleton oneLine_bare
      · exact oneLine_nil

theorem oneLine_ruleBlankLine (s : Subject) : OneLine (ruleBlankLine s) := by
  cases s with
  | cssRuleList items parent =>
      rw [ruleBlankLine]
      split
      · exact oneLine_nil
      · exact oneLine_crowdedRules _ _ _
  | _ => exact oneLine_nil

theorem oneLine_idSelector (worded : s.Worded) : OneLine (idSelector s) := by
  cases s with
  | cssStyleRule r =>
      apply oneLine_flatMap
      intro selector member f found
      obtain ⟨site, isSite, rfl⟩ := List.mem_map.mp found
      obtain ⟨inside, hash⟩ := List.mem_filter.mp isSite
      refine oneLine_slot (worded selector member site.here (site_subset inside).1 ?_)
      rw [beq_iff_eq.mp hash]
      rfl
  | _ => exact oneLine_nil

/-- Two tokens, one glued to the other, are cut out of the text as one. -/
theorem slice_join_glued {cs : List Char} {t next : CssToken}
    (reads : (Passage.whole cs).Reads [t, next]) (glued : next.span.start = t.span.finish) :
    Source.slice ⟨cs⟩ (t.span.join next.span) = t.text ++ next.text := by
  have own := reads.shows t (by simp)
  have later := (reads.shows next (by simp)).holds
  have here : t.span = .covering t.span.start t.text := by rw [Span.covering, ← own.2]
  have behind : next.span = .covering (t.span.start.after t.text) next.text := by
    rw [Span.covering, ← own.2, ← glued, ← (reads.shows next (by simp)).2]
  rw [glued, own.2] at later
  rw [here, behind, Span.join_covering]
  exact Source.slice_of_holds (own.holds.append later)

theorem newline_notMem_qualified? {cs : List Char} {name : CssToken} {rest : List CssToken}
    (reads : (Passage.whole cs).Reads rest) (worded : Css.Worded rest) :
    ∀ i ∈ qualified? name rest, '\n' ∉ Source.slice ⟨cs⟩ i := by
  intro i found
  rw [qualified?] at found
  split at found
  · cases found
  next next glued =>
    have member := glued?_mem glued
    split at found
    next hash =>
      obtain rfl := Option.some.inj found
      rw [Source.slice_of_shows (reads.shows next member)]
      exact worded next member (by rw [hash]; rfl)
    next =>
      obtain ⟨c, named, rfl⟩ := Option.map_eq_some_iff.mp found
      have ident := worded c (List.mem_of_mem_drop (className?_mem named))
        (by rw [kind_className? named]; rfl)
      obtain ⟨-, point, touches⟩ := glued_className? named
      obtain ⟨tail, rfl⟩ := List.head?_eq_some_iff.mp (Option.filter_eq_some_iff.mp glued).1
      have pair : [next, c].Sublist (next :: tail) :=
        (List.singleton_sublist.mpr (className?_mem named)).cons_cons next
      rw [slice_join_glued (reads.sublist pair) touches, point, List.mem_append, not_or]
      exact ⟨by decide, ident⟩

theorem oneLine_typeSelectorQualifier {cs : List Char} {doc : Document}
    (source : doc.source = ⟨cs⟩) (placed : s.Placed (.whole cs)) (worded : s.Worded) :
    OneLine (typeSelectorQualifier doc s) := by
  cases s with
  | cssStyleRule r =>
      refine oneLine_flatMap fun selector member => oneLine_filterMap fun site isSite f found => ?_
      have reads := Site.reads ((selectorsOf_placed placed).each selector member).tokens isSite
      have words := worded selector ((selectorsOf_sublist r).subset member)
      obtain ⟨here, after⟩ := site_subset isSite
      split at found
      next ident =>
        obtain ⟨i, qualifier, rfl⟩ := Option.map_eq_some_iff.mp found
        rw [source]
        refine oneLine_slots (words site.here here (by rw [ident.1]; rfl)) ?_
        exact newline_notMem_qualified? (reads.sublist (List.sublist_cons_self _ _))
          (words.subset after) i qualifier
      next => cases found
  | _ => exact oneLine_nil

end Rules

/-! ## The style guide -/

/-- What the check finds on a worded subject, in its place, puts into messages what lies on one
line. -/
def Check.OneLine (check : Check) : Prop :=
  ∀ (cs : List Char) (doc : Document) (s : Subject), doc.source = ⟨cs⟩ → s.Placed (.whole cs) →
    s.Worded → ∀ found, check doc s = .ok found → Rules.OneLine found

theorem oneLine_total {find : Document → Subject → List Finding}
    (each : ∀ (cs : List Char) (doc : Document) (s : Subject), doc.source = ⟨cs⟩ →
      s.Placed (.whole cs) → s.Worded → Rules.OneLine (find doc s)) :
    (Check.total find).OneLine := by
  intro cs doc s source placed worded found answer
  rw [← Except.ok.inj answer]
  exact each cs doc s source placed worded

theorem oneLine_reading {find : Subject → List Finding}
    (each : ∀ s : Subject, s.Worded → Rules.OneLine (find s)) :
    (StyleGuide.reading find).OneLine :=
  oneLine_total fun _ _ s _ _ worded => each s worded

theorem oneLine_onSource {find : Document → List Finding}
    (each : ∀ doc : Document, Rules.OneLine (find doc)) : (Rules.onSource find).OneLine := by
  apply oneLine_total
  intro cs doc s _ _ _
  cases s with
  | source => exact each doc
  | _ => exact Rules.oneLine_nil

namespace StyleGuide

open Rules

/-- The rules that quote what may go over several lines. -/
def quotingRules : List String :=
  ["protocol-relative-url", "lowercase", "single-quotes", "url-unquoted", "selector-newline"]

/-- A rule that is not one of these keeps to one line. -/
def KeepsToLine (r : Rule) : Prop := r.id ∉ quotingRules → r.check.OneLine

theorem keepsToLine_of_quoting {r : Rule} (quotes : r.id ∈ quotingRules) : KeepsToLine r :=
  fun other => absurd quotes other

theorem keepsToLine_sharedRules : ∀ r ∈ sharedRules, KeepsToLine r := by
  simp only [sharedRules, List.forall_mem_cons]
  exact ⟨keepsToLine_of_quoting (by decide),
    fun _ => oneLine_onSource oneLine_indentation,
    keepsToLine_of_quoting (by decide),
    fun _ => oneLine_onSource oneLine_trailingWhitespace,
    fun _ => oneLine_onSource oneLine_byteOrderMark,
    fun _ => oneLine_reading fun s _ => oneLine_todoFormat s, by simp⟩

theorem keepsToLine_htmlRules : ∀ r ∈ htmlRules, KeepsToLine r := by
  simp only [htmlRules, List.forall_mem_cons]
  exact ⟨fun _ => oneLine_reading fun s _ => oneLine_doctypeHtml5 s,
    fun _ => oneLine_reading fun _ => oneLine_voidElementSelfClose,
    fun _ => oneLine_reading fun s _ => oneLine_altAttribute s,
    fun _ => oneLine_reading fun _ => oneLine_doubleQuotes,
    fun _ => oneLine_reading fun _ => oneLine_optionalTags,
    fun _ => oneLine_reading fun _ => oneLine_typeAttribute,
    fun _ => oneLine_reading fun s _ => oneLine_entityReferences s,
    fun _ => oneLine_reading fun s _ => oneLine_metaCharset s, by simp⟩

theorem keepsToLine_cssRules : ∀ r ∈ cssRules, KeepsToLine r := by
  simp only [cssRules, List.forall_mem_cons]
  exact ⟨keepsToLine_of_quoting (by decide),
    keepsToLine_of_quoting (by decide),
    fun _ => oneLine_reading fun s _ => oneLine_charsetDoubleQuotes s,
    fun _ => oneLine_reading fun _ => oneLine_idClassHyphen,
    fun _ => oneLine_reading fun _ => oneLine_threeDigitHex,
    fun _ => oneLine_reading fun _ => oneLine_leadingZero,
    fun _ => oneLine_reading fun _ => oneLine_zeroUnit,
    fun _ => oneLine_reading fun _ => oneLine_declarationSemicolon,
    fun _ => oneLine_total fun _ doc _ _ _ => oneLine_propertyColonSpace doc,
    fun _ => oneLine_total fun _ doc s _ _ _ => oneLine_braceSpacing doc s,
    fun _ => oneLine_reading fun _ => oneLine_alphabeticalDeclarations,
    fun _ => oneLine_total fun _ _ _ => oneLine_typeSelectorQualifier,
    fun _ => oneLine_reading fun _ => oneLine_important,
    fun _ => oneLine_reading fun _ => oneLine_idSelector,
    fun _ => oneLine_reading fun _ => oneLine_declarationNewline,
    keepsToLine_of_quoting (by decide),
    fun _ => oneLine_reading fun s _ => oneLine_ruleBlankLine s, by simp⟩

/-- **Rules that quote no more than words write messages of one line.** -/
theorem oneLine_rules : ∀ r ∈ rules, r.id ∉ quotingRules → r.check.OneLine :=
  List.forall_mem_append.mpr
    ⟨List.forall_mem_append.mpr ⟨keepsToLine_sharedRules, keepsToLine_htmlRules⟩,
      keepsToLine_cssRules⟩

/-- The ids and the templates of the rules lie on one line. -/
theorem newline_notMem_rules : ∀ r ∈ rules, '\n' ∉ r.id.toList ∧ '\n' ∉ r.message.toList := by
  decide +kernel

end StyleGuide

end PageLint
