/-
# PageLint.Proofs.Lint.Types — types that go without saying

Whether a `style` element holds a stylesheet is asked of the whole value of its type. The rule on types
asks only of what stands before the parameters. So it tells that a type goes without saying of elements
that count as stylesheets, and also of elements that do not: those whose type has parameters
(`Attribute.namesCss_iff`). The fix takes out the attribute. The page then has the tree that it had but
for this attribute (`Html.Dropping.nodes`), and the element counts as a stylesheet if the next attribute
of that name says so, or if there is none.
-/
import PageLint.Proofs.Html.Dropped
import PageLint.Proofs.Lint.Requoted

namespace PageLint

set_option autoImplicit false

open Text

namespace Text

/-- Only white space is trimmed. -/
theorem mem_trim {c : Char} {cs : List Char} (solid : isBlank c = false) : c ∈ trim cs ↔ c ∈ cs := by
  have parted : cs = cs.takeWhile isBlank ++ trimStart cs := List.takeWhile_append_dropWhile.symm
  obtain ⟨back, whole, trimmed⟩ := trimEndBy_spec isBlank (trimStart cs)
  have left : trim cs = trimEndBy isBlank (trimStart cs) := rfl
  have noLead : c ∉ cs.takeWhile isBlank := fun member => by
    simp [List.mem_takeWhile_imp member] at solid
  have noBack : c ∉ back := fun member => by
    simp [trimmed c member] at solid
  rw [left]
  conv_rhs => rw [parted, whole]
  simp [noLead, noBack]

end Text

namespace Html

/-! ## What a type says -/

/-- Its value names a stylesheet, or there is none. -/
def Attribute.NamesCss (a : Attribute) : Prop :=
  ∀ v ∈ a.value, sameIgnoringCase (trim v) "text/css"

/-- The attributes that name a type. -/
def StartTag.types (tag : StartTag) : List Attribute :=
  tag.attributes.filter (·.name == "type")

variable {a : Attribute} {tag : StartTag}

theorem StartTag.attribute?_type (tag : StartTag) : tag.attribute? "type" = tag.types.head? := by
  rw [types, List.head?_filter]
  rfl

/-- A stylesheet is a `style` element the first type of which says so. -/
theorem StartTag.isStylesheet_iff (tag : StartTag) :
    tag.isStylesheet ↔ tag.name = "style" ∧ ∀ a ∈ tag.types.head?, a.NamesCss := by
  rw [isStylesheet, value?, attribute?_type, Bool.and_eq_true, beq_iff_eq]
  refine and_congr_right fun _ => ?_
  cases tag.types.head? with
  | none => simp
  | some a =>
      cases value : a.value with
      | none => simp [Attribute.NamesCss, value]
      | some v => simp [Attribute.NamesCss, value]

/-- **A type that the rule takes for that of a stylesheet names one just if it has no parameters.** -/
theorem Attribute.namesCss_iff (css : Rules.mimeType a = "text/css") :
    a.NamesCss ↔ ∀ v ∈ a.value, ';' ∉ v := by
  rw [NamesCss]
  refine forall₂_congr fun v valued => ?_
  rw [Rules.mimeType, Option.mem_def.mp valued, Option.getD_some] at css
  have sign : ';' ∈ trim v ↔ ';' ∈ v := mem_trim (by decide)
  constructor
  · intro same param
    have inType : ';' ∈ lowerAscii "text/css" := by
      rw [← eq_of_beq same]
      exact List.mem_map.mpr ⟨';', sign.mpr param, rfl⟩
    exact absurd inType (by decide)
  · intro plain
    have whole : v.takeWhile (· != ';') = v := by
      refine List.takeWhile_eq_self_iff.mpr fun c member => bne_iff_ne.mpr ?_
      rintro rfl
      exact plain member
    rw [whole] at css
    rw [sameIgnoringCase, css]
    decide

/-- Without the first attribute that names a type, the next one does, if there is one. -/
theorem StartTag.types_dropping (nodup : (tag.attributes.map (·.span)).Nodup)
    (typed : tag.attribute? "type" = some a) :
    ((Retag.dropping a.span).tag tag).types = tag.types.tail := by
  rw [attribute?_type] at typed
  obtain ⟨others, types⟩ := List.head?_eq_some_iff.mp typed
  have apart : ((a :: others).map (·.span)).Nodup :=
    types ▸ nodup.sublist (List.filter_sublist.map _)
  have left : others.filter (·.span != a.span) = others := by
    refine List.filter_eq_self.mpr fun b member => bne_iff_ne.mpr fun same => ?_
    exact (List.nodup_cons.mp apart).1 (List.mem_map.mpr ⟨b, member, same⟩)
  calc ((Retag.dropping a.span).tag tag).types
      = tag.types.filter (·.span != a.span) := List.filter_comm ..
    _ = tag.types.tail := by rw [types, List.filter_cons_of_neg (by simp), left, List.tail_cons]

end Html

/-! ## The rule -/

theorem StyleGuide.typeAttribute_of_id : ∀ r ∈ rules, r.id = "type-attribute" →
    r.check = reading Rules.typeAttribute ∧ r.targets = [.htmlElement] ∧ r.languages = [.html] := by
  simp [rules, sharedRules, htmlRules, cssRules]

/-- What is told of a type that goes without saying. -/
def Rules.redundantType (e : Html.Element) (a : Html.Attribute) : Finding :=
  (Finding.filled a.span [("name", e.name)]).suggest "Remove the type attribute" []

/-- What is told of an element: of its first type, if that goes without saying. -/
def Rules.redundantTypes (e : Html.Element) : List Finding :=
  ((e.tag.attribute? "type").toList.filter fun a => isTypeImplied e (mimeType a)).map
    (redundantType e)

theorem Rules.typeAttribute_eq (s : Subject) :
    typeAttribute s = s.htmlElement?.toList.flatMap redundantTypes := by
  cases s with
  | htmlElement e ancestors =>
      rw [typeAttribute, Subject.htmlElement?, Option.toList_some, List.flatMap_singleton,
        redundantTypes]
      cases e.tag.attribute? "type" with
      | none => rfl
      | some a =>
          dsimp only
          split
          next implied => simp [implied, redundantType]
          next spoken => simp [spoken]
  | _ => rfl

/-- The rule tells of the elements whose first type goes without saying. -/
theorem Checker.mem_runRule_typeAttribute {r : Rule} (isRule : r ∈ StyleGuide.rules)
    (named : r.id = "type-attribute") {c : Checker} {file : Path} {cs : List Char} {d : Diagnostic} :
    d ∈ (c.runRule file (.ofText .html cs) r).diagnostics ↔
      ∃ e ∈ (Html.Page.ofText cs).elements, ∃ a, e.tag.attribute? "type" = some a ∧
        Rules.isTypeImplied e (Rules.mimeType a) ∧
          d = r.diagnostic (c.severityOf r) file (Rules.redundantType e a) := by
  obtain ⟨check, targets, languages⟩ := StyleGuide.typeAttribute_of_id r isRule named
  rw [runRule_elements check targets languages Rules.typeAttribute_eq]
  simp only [List.mem_flatMap, Rules.redundantTypes, List.map_map, List.mem_map, List.mem_filter,
    Option.mem_toList, Function.comp_apply, and_assoc]
  simp only [@eq_comm _ d]

namespace Html

variable {cs : List Char} {e : Element} {a : Attribute}

/-- Without one of its attributes the page has the other elements as they are. -/
theorem tag_dropping_of_ne {e' : Element} (inPage : e ∈ (Page.ofText cs).elements)
    (own : a ∈ e.tag.attributes) (inPage' : e' ∈ (Page.ofText cs).elements) (other : e' ≠ e) :
    (Retag.dropping a.span).tag e'.tag = e'.tag :=
  Retag.tag_dropping_of_apart fun _ own' same =>
    other (eq_of_attributeSpan inPage' inPage own' own same).1

/-- No text that is read as a stylesheet stands where an attribute does. -/
theorem span_styleText_ne {t : TextNode} (inPage : e ∈ (Page.ofText cs).elements)
    (own : a ∈ e.tag.attributes) (text : t ∈ styleTextsIn false (Page.ofText cs).nodes) :
    t.span ≠ a.span := by
  have inTags : a ∈ (Page.ofText cs).elements.flatMap (·.tag.attributes) :=
    List.mem_flatMap.mpr ⟨e, inPage, own⟩
  rw [attributes_elements] at inTags
  obtain ⟨v, isAttribute, rfl⟩ := List.mem_map.mp inTags
  obtain ⟨member, attr⟩ := Markup.mem_attributes isAttribute
  obtain ⟨u, isRaw, rfl⟩ := List.mem_map.mp ((styleTexts_sublist cs).subset text)
  obtain ⟨inText, raw⟩ := List.mem_filter.mp isRaw
  intro same
  obtain rfl : u = v := List.inj_on_of_nodup_map (nodup_spans cs) inText member
    (same.trans (span_ofToken v))
  rw [isRawText, attr] at raw
  cases raw

/-- **An attribute that stands free is taken out, and nothing else changes.** -/
theorem nodes_without (free : StandsFree cs a.span) : ∃ edit : Edit, edit.old = cs ∧
    edit.span = a.span ∧ edit.new = Source.splice ⟨cs⟩ a.span [] ∧
      (Page.ofText edit.new).nodes = (Carry.retexting edit a.span []).nodes
        ((Retag.dropping a.span).nodes (Page.ofText cs).nodes) := by
  obtain ⟨edit, d, rfl, span⟩ := exists_dropping free
  refine ⟨edit, rfl, span, ?_, ?_⟩
  · rw [← span, ← d.put, Source.splice_span]
  · rw [← span, d.nodes, d.put]

/-- If its element counts as a stylesheet as before, the same texts are read as stylesheets. -/
theorem styleTexts_without {edit : Edit} {new : List Node} (inPage : e ∈ (Page.ofText cs).elements)
    (own : a ∈ e.tag.attributes)
    (nodes : new = (Carry.retexting edit a.span []).nodes
      ((Retag.dropping a.span).nodes (Page.ofText cs).nodes))
    (same : ((Retag.dropping a.span).tag e.tag).isStylesheet = e.tag.isStylesheet) :
    styleTextsIn false new = (styleTextsIn false (Page.ofText cs).nodes).map fun t =>
      { t with span := edit.moveSpan t.span } := by
  have every : ∀ e' ∈ (Page.ofText cs).elements,
      ((Retag.dropping a.span).tag e'.tag).isStylesheet = e'.tag.isStylesheet := by
    intro e' inPage'
    by_cases here : e' = e
    · rw [here]
      exact same
    · rw [tag_dropping_of_ne inPage own inPage' here]
  rw [Page.elements, Page.children_root] at every
  have texts : styleTextsIn false ((Retag.dropping a.span).nodes (Page.ofText cs).nodes) =
      styleTextsIn false (Page.ofText cs).nodes := Retag.styleTexts_nodes false _ every
  rw [nodes, styleTextsIn_carry, texts]
  refine List.map_congr_left fun t text => ?_
  have left : (Carry.retexting edit a.span []).content t.span t.text = t.text :=
    if_neg (span_styleText_ne inPage own text)
  rw [Carry.text, left]
  rfl

end Html

/-- **A redundant type and a stylesheet.** The rule on types tells of the first type of a `style`
element just if that is `text/css`, with or without parameters. The element counts as a stylesheet just
if there are none. Without the attribute it counts as one just if the next type says so, or if there is
none. If white space stands before the attribute and no `=` follows, the fix takes it out, and nothing
else changes: the tree is the same, moved along, and if the element counts as a stylesheet as before,
the same texts are read as stylesheets. -/
theorem Document.redundant_type {r : Rule} (isRule : r ∈ StyleGuide.rules)
    (named : r.id = "type-attribute") (c : Checker) (file : Path) {cs : List Char} {e : Html.Element}
    {a : Html.Attribute} (inPage : e ∈ (Html.Page.ofText cs).elements) (style : e.name = "style")
    (typed : e.tag.attribute? "type" = some a) :
    let old := Html.Page.ofText cs
    let told := (c.runRule file (.ofText .html cs) r).diagnostics.filter (·.span = a.span)
    let drop := Html.Retag.dropping a.span
    let without := drop.tag e.tag
    (told ≠ [] ↔ Rules.mimeType a = "text/css") ∧
      (told ≠ [] → (e.tag.isStylesheet ↔ ∀ v ∈ a.value, ';' ∉ v)) ∧
      (without.isStylesheet ↔ ∀ b ∈ e.tag.types.tail.head?, b.NamesCss) ∧
      (∀ e' ∈ old.elements, e' ≠ e → drop.tag e'.tag = e'.tag) ∧
      (∀ d ∈ told, d.fix = some ⟨"Remove the type attribute", ""⟩) ∧
      (Html.StandsFree cs a.span → ∃ edit : Edit, edit.old = cs ∧ edit.span = a.span ∧
        let new := Html.Page.ofText (Source.splice ⟨cs⟩ a.span [])
        new.nodes = (Html.Carry.retexting edit a.span []).nodes (drop.nodes old.nodes) ∧
          (without.isStylesheet = e.tag.isStylesheet → Html.styleTextsIn false new.nodes =
            (Html.styleTextsIn false old.nodes).map fun t =>
              { t with span := edit.moveSpan t.span })) := by
  intro old told drop without
  have own : a ∈ e.tag.attributes := List.mem_of_find?_eq_some typed
  have implied : Rules.isTypeImplied e (Rules.mimeType a) ↔ Rules.mimeType a = "text/css" := by
    rw [Rules.isTypeImplied, if_pos style, beq_iff_eq]
  have mem_told : ∀ d, d ∈ told ↔ Rules.mimeType a = "text/css" ∧
      d = r.diagnostic (c.severityOf r) file (Rules.redundantType e a) := by
    intro d
    rw [List.mem_filter, Checker.mem_runRule_typeAttribute isRule named, decide_eq_true_iff]
    constructor
    · rintro ⟨⟨e', inPage', b, typed', css, rfl⟩, same⟩
      obtain ⟨rfl, rfl⟩ := Html.eq_of_attributeSpan inPage' inPage
        (List.mem_of_find?_eq_some typed') own same
      exact ⟨implied.mp css, rfl⟩
    · rintro ⟨css, rfl⟩
      exact ⟨⟨e, inPage, a, typed, implied.mpr css, rfl⟩, rfl⟩
  have told_iff : told ≠ [] ↔ Rules.mimeType a = "text/css" := by
    rw [ne_eq, List.eq_nil_iff_forall_not_mem]
    simp [mem_told]
  have first : e.tag.types.head? = some a := (e.tag.attribute?_type).symm.trans typed
  have named_ : e.tag.name = "style" := style
  have others : ∀ e' ∈ old.elements, e' ≠ e → drop.tag e'.tag = e'.tag :=
    fun e' inPage' => Html.tag_dropping_of_ne inPage own inPage'
  refine ⟨told_iff, fun some_ => ?_, ?_, others, fun d member => ?_, fun free => ?_⟩
  · rw [Html.StartTag.isStylesheet_iff, first, ← Html.Attribute.namesCss_iff (told_iff.mp some_)]
    simp [named_]
  · have inTag : e.tag.attributes.Sublist (old.elements.flatMap (·.tag.attributes)) :=
      List.sublist_flatten_of_mem (List.mem_map_of_mem inPage)
    have nodup := (Html.nodup_attributeSpans cs).sublist (inTag.map _)
    rw [Html.StartTag.isStylesheet_iff, Html.StartTag.types_dropping nodup typed, drop.name]
    exact and_iff_right named_
  · rw [((mem_told d).mp member).2]
    rfl
  · obtain ⟨edit, rfl, span, text, nodes⟩ := Html.nodes_without free
    rw [text] at nodes
    exact ⟨edit, rfl, span, nodes, Html.styleTexts_without inPage own nodes⟩

/-- A plain type may be taken out: the same is read as a stylesheet. -/
theorem Document.redundant_type_plain :
    let text := "<style type=\"text/css\">a{}</style>".toList
    ∃ r ∈ StyleGuide.rules, r.id = "type-attribute" ∧ ∃ e ∈ (Html.Page.ofText text).elements,
      ∃ a, e.tag.attribute? "type" = some a ∧
        (Checker.runRule {} ⟨"a.html"⟩ (.ofText .html text) r).diagnostics.filter
          (·.span = a.span) ≠ [] ∧ e.tag.isStylesheet ∧
        Source.splice ⟨text⟩ a.span [] = "<style >a{}</style>".toList ∧
        (Html.styleTextsIn false (Html.Page.ofText "<style >a{}</style>".toList).nodes).map
          (·.text) = ["a{}".toList] := by
  intro text
  let r := StyleGuide.htmlRules[5]
  have isRule : r ∈ StyleGuide.rules :=
    List.mem_append_left _ (List.mem_append_right _ (List.getElem_mem _))
  let a : Html.Attribute := ⟨"type", ⟨⟨7, 1, 8⟩, ⟨11, 1, 12⟩⟩, some "text/css",
    some ⟨⟨12, 1, 13⟩, ⟨22, 1, 23⟩⟩, .double, ⟨⟨7, 1, 8⟩, ⟨22, 1, 23⟩⟩⟩
  let tag : Html.StartTag := ⟨"style", ⟨⟨1, 1, 2⟩, ⟨6, 1, 7⟩⟩, [a], false,
    some ⟨⟨22, 1, 23⟩, ⟨23, 1, 24⟩⟩, ⟨⟨0, 1, 1⟩, ⟨23, 1, 24⟩⟩⟩
  have tags : (Html.Page.ofText text).elements.map (·.tag) = [tag] := by decide +kernel
  obtain ⟨e, inPage, same⟩ := List.mem_map.mp (tags ▸ List.mem_singleton_self tag)
  have style : e.name = "style" := (congrArg Html.StartTag.name same).trans (by decide)
  have typed : e.tag.attribute? "type" = some a := by
    rw [same]
    decide
  have free : Html.StandsFree text a.span :=
    ⟨[⟨.tagOpen, "<style", ⟨⟨0, 1, 1⟩, ⟨6, 1, 7⟩⟩⟩], ⟨.blank, " ", ⟨⟨6, 1, 7⟩, ⟨7, 1, 8⟩⟩⟩,
      ⟨.attr, "type=\"text/css\"", a.span⟩,
      [⟨.tagEnd, ">", ⟨⟨22, 1, 23⟩, ⟨23, 1, 24⟩⟩⟩,
        ⟨.rawText, "a{}", ⟨⟨23, 1, 24⟩, ⟨26, 1, 27⟩⟩⟩,
        ⟨.tagClose, "</style>", ⟨⟨26, 1, 27⟩, ⟨34, 1, 35⟩⟩⟩],
      by decide +kernel, rfl, rfl, rfl, by decide⟩
  obtain ⟨told, counts, without, -, -, apart⟩ :=
    Document.redundant_type isRule rfl {} ⟨"a.html"⟩ inPage style typed
  have some_ := told.mpr (by decide)
  have sheet := (counts some_).mpr (by decide)
  obtain ⟨edit, -, -, -, texts⟩ := apart free
  have spliced : Source.splice ⟨text⟩ a.span [] = "<style >a{}</style>".toList := by decide +kernel
  have alone : e.tag.types = [a] := by
    rw [same]
    decide
  have still := texts ((without.mpr (by simp [alone])).trans sheet.symm)
  have before : (Html.styleTextsIn false (Html.Page.ofText text).nodes).map (·.text) =
      ["a{}".toList] := by decide +kernel
  refine ⟨r, isRule, rfl, e, inPage, a, typed, some_, sheet, spliced, ?_⟩
  rw [← spliced, still, List.map_map, ← before]
  rfl

/-- A type with parameters is told as well, but nothing is read as a stylesheet until it is taken out. -/
theorem Document.redundant_type_parameters :
    let text := "<style type=\"text/css;\">a{}</style>".toList
    ∃ r ∈ StyleGuide.rules, r.id = "type-attribute" ∧ ∃ e ∈ (Html.Page.ofText text).elements,
      e.name = "style" ∧ ∃ a, e.tag.attribute? "type" = some a ∧
        (∃ d ∈ (Checker.runRule {} ⟨"a.html"⟩ (.ofText .html text) r).diagnostics,
          d.span = a.span ∧ d.fix = some ⟨"Remove the type attribute", ""⟩) ∧
        e.tag.isStylesheet = false ∧ (Html.Page.ofText text).sheets.length = 0 ∧
        (Html.Page.ofText (Source.splice ⟨text⟩ a.span [])).sheets.length = 1 := by
  intro text
  let r := StyleGuide.htmlRules[5]
  have isRule : r ∈ StyleGuide.rules :=
    List.mem_append_left _ (List.mem_append_right _ (List.getElem_mem _))
  let a : Html.Attribute := ⟨"type", ⟨⟨7, 1, 8⟩, ⟨11, 1, 12⟩⟩, some "text/css;",
    some ⟨⟨12, 1, 13⟩, ⟨23, 1, 24⟩⟩, .double, ⟨⟨7, 1, 8⟩, ⟨23, 1, 24⟩⟩⟩
  let tag : Html.StartTag := ⟨"style", ⟨⟨1, 1, 2⟩, ⟨6, 1, 7⟩⟩, [a], false,
    some ⟨⟨23, 1, 24⟩, ⟨24, 1, 25⟩⟩, ⟨⟨0, 1, 1⟩, ⟨24, 1, 25⟩⟩⟩
  have tags : (Html.Page.ofText text).elements.map (·.tag) = [tag] := by decide +kernel
  obtain ⟨e, inPage, same⟩ := List.mem_map.mp (tags ▸ List.mem_singleton_self tag)
  have style : e.name = "style" := (congrArg Html.StartTag.name same).trans (by decide)
  have typed : e.tag.attribute? "type" = some a := by
    rw [same]
    decide
  have css : Rules.isTypeImplied e (Rules.mimeType a) := by
    rw [Rules.isTypeImplied, if_pos style]
    decide
  let d := r.diagnostic (Checker.severityOf {} r) ⟨"a.html"⟩ (Rules.redundantType e a)
  have told : d ∈ (Checker.runRule {} ⟨"a.html"⟩ (.ofText .html text) r).diagnostics :=
    (Checker.mem_runRule_typeAttribute isRule rfl).mpr ⟨e, inPage, a, typed, css, rfl⟩
  refine ⟨r, isRule, rfl, e, inPage, style, a, typed, ⟨d, told, rfl, rfl⟩, ?_, ?_, ?_⟩
  · rw [same]
    decide
  · decide +kernel
  · decide +kernel

end PageLint
