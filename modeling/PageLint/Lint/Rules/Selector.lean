/-
# PageLint.Lint.Rules.Selector — selectors of style rules

Names of ids and classes are hyphenated, ids and classes are not qualified by the
name of an element, ids are not selected by at all, and each selector of a list
begins a line. The steps of an animation are no selectors in this sense, save for
the rule on ids.
-/
import PageLint.Lint.Rules.Tokens

namespace PageLint.Rules

set_option autoImplicit false

open Text

/-- A style rule of the page's own tokens: its selectors, unless it is a step of an
animation. -/
def selectorsOf (r : Css.StyleRule Css.Item) : List Css.Selector :=
  if r.keyframe then [] else r.selectors

/-- A name with an underscore in it. -/
def underscored (name : List Char) (span : Span) : List Finding :=
  if name.contains '_' then
    [(Finding.filled span [("name", name)]).suggest "Use hyphens" (replace ['_'] ['-'] name)]
  else []

/-- Words in the names of ids and classes are joined by hyphens. -/
def idClassHyphen : Subject → List Finding
  | .cssStyleRule r =>
    (selectorsOf r).flatMap fun s =>
      (sitesOf s).flatMap fun site =>
        if site.here.kind = .hash then underscored site.here.text site.here.span
        else
          match className? site.here site.after with
          | some name => underscored ('.' :: name.text) (site.here.span.join name.span)
          | none => []
  | _ => []

/-- Whether the first simple selector of a compound may come after a token. -/
def startsCompound (t : CssToken) : Bool :=
  match t.kind with
  | .blank | .comment | .comma | .function | .parenOpen => true
  | .delim => t.text == ['>'] || t.text == ['+'] || t.text == ['~']
  | _ => false

/-- The stretch of an id or a class that follows the name of an element at once. -/
def qualified? (name : CssToken) (rest : List CssToken) : Option Span :=
  match glued? name rest with
  | none => none
  | some next =>
    if next.kind = .hash then some next.span
    else (className? next (rest.drop 1)).map fun c => next.span.join c.span

/-- Ids and classes are not qualified by the name of an element. -/
def typeSelectorQualifier (doc : Document) : Subject → List Finding
  | .cssStyleRule r =>
    (selectorsOf r).flatMap fun s =>
      (sitesOf s).filterMap fun site =>
        if site.here.kind = .ident ∧ (site.before.map startsCompound).getD true then
          (qualified? site.here site.after).map fun span =>
            let text := doc.source.slice span
            (Finding.filled (site.here.span.join span)
              [("name", site.here.text), ("qualifier", text)]).suggest "Drop the type selector" text
        else none
  | _ => []

/-- Ids are not selected by. -/
def idSelector : Subject → List Finding
  | .cssStyleRule r =>
    r.selectors.flatMap fun s =>
      ((sitesOf s).filter (·.here.kind == .hash)).map fun site =>
        .filled site.here.span [("name", site.here.text)]
  | _ => []

/-- Each selector of a list begins a line. -/
def selectorNewline (doc : Document) : Subject → List Finding
  | .cssStyleRule r =>
    let selectors := selectorsOf r
    (selectors.zip (selectors.drop 1)).filterMap fun (previous, current) =>
      let gap : Span := ⟨previous.span.finish, current.span.start⟩
      let between := doc.source.slice gap
      if between.contains '\n' then none
      else
        let lead := between.takeWhile (· != ',')
        let comma :=
          if between.contains ',' then Span.covering (gap.start.after lead) [','] else gap
        some <| (Finding.filled comma [("selector", current.text)]).suggest
          "Break the line after the comma" ",\n"
  | _ => []

end PageLint.Rules
