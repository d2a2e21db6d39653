/-
# PageLint.Proofs.Lint.Names — hyphens in the names of ids and classes

The rule on the words of a name tells of ids and classes with an underscore in them, and offers hyphens
for the underscores. With these, the name of an id still is one, and so is the name of a class that may
have them; nothing else in the stylesheet changes, and the rule has nothing more to tell there
(`Document.hyphenated`). The name of a class that begins with an underscore before a digit is none with
a hyphen for it (`Document.hyphenated_breaks`).
-/
import PageLint.Proofs.Css.Hyphens
import PageLint.Proofs.Css.Making
import PageLint.Proofs.Lint.Runs
import PageLint.Proofs.Rules.Wording

namespace PageLint

set_option autoImplicit false

open Text

namespace Rules

variable {cs name : List Char} {f : Finding} {span : Span}

theorem mem_underscored_iff : f ∈ underscored name span ↔ '_' ∈ name ∧
    f = (Finding.filled span [("name", name)]).suggest "Use hyphens" (Css.hyphenate name) := by
  rw [underscored, Css.replace_underscore]
  by_cases inside : '_' ∈ name <;> simp [inside]

/-- What the rule tells of a name: where it stands with its sign, and the name with hyphens. -/
def hyphens (front lead : Css.Tokens) (t : CssToken) : Finding :=
  (Finding.filled (.covering (Position.start.after (textOf front)) (textOf (lead ++ [t])))
    [("name", textOf (lead ++ [t]))]).suggest "Use hyphens" (textOf lead ++ Css.hyphenate t.text)

/-- **What is found is the name of an id or a class**, with an underscore in it. -/
theorem mem_idClassHyphen {s : Subject} (inText : s.From (Css.tokenize cs .start))
    (member : f ∈ idClassHyphen s) : ∃ front lead t back,
      Css.tokenize cs .start = front ++ (lead ++ t :: back) ∧ Css.Names lead t ∧ '_' ∈ t.text ∧
        f = hyphens front lead t := by
  cases s with
  | cssStyleRule r =>
      obtain ⟨selector, isSelector, inside⟩ := List.mem_flatMap.mp member
      obtain ⟨site, isSite, found⟩ := List.mem_flatMap.mp inside
      have tokens := inText selector ((selectorsOf_sublist r).subset isSelector)
      obtain ⟨here, after⟩ := site_subset isSite
      split at found
      next hash =>
        obtain ⟨underscore, rfl⟩ := mem_underscored_iff.mp found
        obtain ⟨front, back, split⟩ := List.append_of_mem (tokens here)
        refine ⟨front, [], site.here, back, split, .ofId hash, underscore, ?_⟩
        rw [Css.span_of_split split]
        simp [hyphens, textOf]
      next =>
        split at found
        next name named =>
          obtain ⟨underscore, rfl⟩ := mem_underscored_iff.mp found
          obtain ⟨point, sign, glued⟩ := glued_className? named
          obtain ⟨front, back, split⟩ :=
            Css.split_of_glued (tokens here) (tokens (after (className?_mem named))) glued
          refine ⟨front, [site.here], name, back, split,
            .ofClass point sign (kind_className? named), by simpa using underscore, ?_⟩
          have text : textOf ([site.here] ++ [name]) = '.' :: name.text := by
            simp [textOf, sign]
          rw [Css.join_of_split split, hyphens, text, show textOf [site.here] = ['.'] by simp [textOf, sign]]
          rfl
        next => cases found
  | _ => cases member

end Rules

theorem StyleGuide.idClassHyphen_of_id : ∀ r ∈ rules, r.id = "id-class-hyphen" →
    r.check = reading Rules.idClassHyphen := by
  simp [rules, sharedRules, htmlRules, cssRules]

/-- What the rule tells of a stylesheet it tells of the names of ids and classes. -/
theorem Checker.mem_runRule_idClassHyphen {r : Rule} (isRule : r ∈ StyleGuide.rules)
    (named : r.id = "id-class-hyphen") {c : Checker} {file : Path} {cs : List Char} {d : Diagnostic}
    (told : d ∈ (c.runRule file (.ofText .css cs) r).diagnostics) : ∃ front lead t back,
      Css.tokenize cs .start = front ++ (lead ++ t :: back) ∧ Css.Names lead t ∧ '_' ∈ t.text ∧
        d = r.diagnostic (c.severityOf r) file (Rules.hyphens front lead t) := by
  obtain ⟨s, member, f, found, rfl⟩ := mem_runRule (StyleGuide.idClassHyphen_of_id r isRule named) told
  rcases List.mem_cons.mp member with rfl | inSheet
  · cases found
  · obtain ⟨front, lead, t, back, split, names, underscore, rfl⟩ :=
      Rules.mem_idClassHyphen (Css.Sheet.subjects_from cs .start s inSheet) found
    exact ⟨front, lead, t, back, split, names, underscore, rfl⟩

/-- **Hyphens for underscores keep the name of an id or a class.** What the rule tells of is such a name
with an underscore in it, and its fix is the name with hyphens. With that in its place, the stylesheet
has the same tokens in the same places but for the text of this one, if and only if the name of a class
may have hyphens there; and the rule does not tell of that place any more. -/
theorem Document.hyphenated {r : Rule} (isRule : r ∈ StyleGuide.rules)
    (named : r.id = "id-class-hyphen") (c : Checker) (file : Path) {cs : List Char} {d : Diagnostic}
    (told : d ∈ (c.runRule file (.ofText .css cs) r).diagnostics) :
    ∃ front lead t back fix, Css.tokenize cs .start = front ++ (lead ++ t :: back) ∧
      Css.Names lead t ∧ '_' ∈ t.text ∧
      d.span = .covering (Position.start.after (textOf front)) (textOf (lead ++ [t])) ∧
      d.fix = some fix ∧ fix.replacement.toList = textOf lead ++ Css.hyphenate t.text ∧
      let text := Source.splice ⟨cs⟩ d.span fix.replacement.toList
      (Css.tokenize text .start = front ++ (lead ++ Css.hyphenated t :: back) ↔
        (t.kind = .ident → Css.Hyphenable t.text (textOf back))) ∧
      ∀ d' ∈ (c.runRule file (.ofText .css text) r).diagnostics, d'.span ≠ d.span := by
  obtain ⟨front, lead, t, back, split, names, underscore, rfl⟩ :=
    Checker.mem_runRule_idClassHyphen isRule named told
  refine ⟨front, lead, t, back, _, split, names, underscore, rfl, rfl, String.toList_ofList, ?_⟩
  intro text
  have whole : lead ++ t :: back = (lead ++ [t]) ++ back := by simp
  have newText : text = textOf front ++ (textOf lead ++ (Css.hyphenate t.text ++ textOf back)) := by
    rw [whole] at split
    show Source.splice ⟨cs⟩ (.covering _ _) (String.ofList _).toList = _
    rw [String.toList_ofList, Css.splice_tokens split (by simp), List.append_assoc]
  refine ⟨newText ▸ Css.hyphenated_iff names split, fun d' told' same => ?_⟩
  obtain ⟨front', lead', t', back', split', -, underscore', rfl⟩ :=
    Checker.mem_runRule_idClassHyphen isRule named told'
  -- What stands there now has no underscore in it, and what the rule tells of has one.
  have old : Source.slice ⟨text⟩ (Rules.hyphens front' lead' t').span = textOf (lead' ++ [t']) := by
    refine Source.slice_of_holds ⟨textOf front', ⟨textOf back', ?_⟩, rfl⟩
    show _ = text
    rw [Css.textOf_split split']
    simp [textOf]
  have width : (Rules.hyphens front lead t).span = .covering (Position.start.after (textOf front))
      (textOf lead ++ Css.hyphenate t.text) := by
    show Span.covering _ (textOf (lead ++ [t])) = _
    rw [textOf_append, show textOf [t] = t.text by simp [textOf], Span.covering, Span.covering,
      Position.after_append _ (textOf lead), Position.after_append _ (textOf lead),
      Css.after_hyphenate]
  have new : Source.slice ⟨text⟩ (Rules.hyphens front lead t).span =
      textOf lead ++ Css.hyphenate t.text := by
    rw [width]
    refine Source.slice_of_holds ⟨textOf front, ⟨textOf back, ?_⟩, rfl⟩
    show _ = text
    simp [newText]
  have same' : (Rules.hyphens front' lead' t').span = (Rules.hyphens front lead t).span := same
  rw [same', new] at old
  have member : '_' ∈ textOf lead ++ Css.hyphenate t.text := by
    rw [old, textOf_append]
    exact List.mem_append_right _ (by simpa [textOf] using underscore')
  rcases List.mem_append.mp member with sign | name
  · exact names.underscore_notMem sign
  · exact Css.underscore_notMem_hyphenate t.text name

/-- Two hyphens are a name, where no `>` follows. -/
theorem Document.hyphenated_twice :
    let text := ".__\x7b\x7d".toList
    let new := ".--\x7b\x7d".toList
    ∃ r ∈ StyleGuide.rules, r.id = "id-class-hyphen" ∧
      ∃ d ∈ (Checker.runRule {} ⟨"a.css"⟩ (.ofText .css text) r).diagnostics,
        ∃ fix, d.fix = some fix ∧ Source.splice ⟨text⟩ d.span fix.replacement.toList = new ∧
          ∃ front t back, Css.tokenize text .start = front ++ t :: back ∧ t.text = "__".toList ∧
            Css.tokenize new .start = front ++ Css.hyphenated t :: back ∧
            ∀ d' ∈ (Checker.runRule {} ⟨"a.css"⟩ (.ofText .css new) r).diagnostics,
              d'.span ≠ d.span := by
  intro text new
  let r := StyleGuide.cssRules[3]
  have isRule : r ∈ StyleGuide.rules := List.mem_append_right _ (List.getElem_mem _)
  let point : Rules.CssToken := ⟨.delim, ['.'], ⟨⟨0, 1, 1⟩, ⟨1, 1, 2⟩⟩⟩
  let name : Rules.CssToken := ⟨.ident, "__".toList, ⟨⟨1, 1, 2⟩, ⟨3, 1, 4⟩⟩⟩
  let d := r.diagnostic (Checker.severityOf {} r) ⟨"a.css"⟩ (Rules.hyphens [] [point] name)
  have told : d ∈ (Checker.runRule {} ⟨"a.css"⟩ (.ofText .css text) r).diagnostics := by
    decide +kernel
  have spliced : Source.splice ⟨text⟩ d.span (String.ofList ".--".toList).toList = new := by
    decide +kernel
  have parted : Css.tokenize text .start = [point] ++ name :: (Css.tokenize text .start).drop 2 := by
    decide +kernel
  have only : ∀ u ∈ Css.tokenize text .start, '_' ∈ u.text → u.span = name.span := by
    decide +kernel
  obtain ⟨front, lead, t, back, fix, split, -, underscore, -, fixed, -, tokens, gone⟩ :=
    Document.hyphenated isRule rfl {} ⟨"a.css"⟩ told
  obtain rfl : (⟨"Use hyphens", String.ofList ".--".toList⟩ : Fix) = fix := Option.some.inj fixed
  rw [← List.append_assoc] at split
  obtain ⟨before, rfl, rfl⟩ := Css.split_unique split parted (only t (by simp [split]) underscore)
  have hyphenable : Css.Hyphenable name.text (textOf ((Css.tokenize text .start).drop 2)) :=
    ⟨by decide, by simp [name], by decide +kernel⟩
  have after := tokens.mpr fun _ => hyphenable
  rw [spliced, ← List.append_assoc, before] at after
  exact ⟨r, isRule, rfl, d, told, _, rfl, spliced, [point], name, _, parted, rfl, after, spliced ▸ gone⟩

/-- **The name of a class that begins with an underscore before a digit** is a number with a hyphen for
it. -/
theorem Document.hyphenated_breaks :
    let text := "._1\x7b\x7d".toList
    ∃ r ∈ StyleGuide.rules, r.id = "id-class-hyphen" ∧
      ∃ d ∈ (Checker.runRule {} ⟨"a.css"⟩ (.ofText .css text) r).diagnostics,
        ∃ fix, d.fix = some fix ∧ d.span = ⟨⟨0, 1, 1⟩, ⟨3, 1, 4⟩⟩ ∧
          (Css.tokenize text .start).map (·.kind) = [.delim, .ident, .braceOpen, .braceClose] ∧
          (Css.tokenize (Source.splice ⟨text⟩ d.span fix.replacement.toList) .start).map (·.kind) =
            [.delim, .number, .braceOpen, .braceClose] := by
  intro text
  let r := StyleGuide.cssRules[3]
  have isRule : r ∈ StyleGuide.rules := List.mem_append_right _ (List.getElem_mem _)
  let d := r.diagnostic (Checker.severityOf {} r) ⟨"a.css"⟩
    (Rules.hyphens [] [⟨.delim, ['.'], ⟨⟨0, 1, 1⟩, ⟨1, 1, 2⟩⟩⟩]
      ⟨.ident, "_1".toList, ⟨⟨1, 1, 2⟩, ⟨3, 1, 4⟩⟩⟩)
  exact ⟨r, isRule, rfl, d, by decide +kernel, _, rfl, rfl, by decide +kernel, by decide +kernel⟩

end PageLint
