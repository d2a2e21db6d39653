/-
# PageLint.Proofs.Html.Likeness — pages that differ in white space and end tags alone

The same elements with the same content can be written in many ways: an end tag stands there or is
left out, white space comes between tags or not. `bareIn` keeps what all of these have in common: the
elements with their start tags, without any place, without end tags and without texts that are white
space alone, and of the other texts no white space at the end.

A step of the builder sees of the tree so far only what is bare of it, and of a piece of markup only
what `Markup.Alike` leaves (`step_alike`). So builders that hold alike trees do so after alike pieces
(`run_alike`), and find the same faults.
-/
import PageLint.Proofs.Html.Depth

namespace PageLint.Html

set_option autoImplicit false

open Text

/-! ## What is left of nodes -/

/-- The attribute, wherever it stands. -/
def Attribute.bare (a : Attribute) : Attribute :=
  { a with nameSpan := .emptyAt .start, valueSpan := none, span := .emptyAt .start }

/-- The start tag, wherever it stands. -/
def StartTag.bare (tag : StartTag) : StartTag where
  rawName := tag.rawName
  nameSpan := .emptyAt .start
  attributes := tag.attributes.map Attribute.bare
  selfClosing := tag.selfClosing
  finish := tag.finish.map fun _ => .emptyAt .start
  span := .emptyAt .start

mutual

/-- The node without places and end tags; nothing, if it is white space. -/
def Node.bare? : Node → Option Node
  | .element tag children _ _ => some (.element tag.bare (bareIn children) none (.emptyAt .start))
  | .text t => if t.isBlank then none else some (.text ⟨trimEnd t.text, t.raw, .emptyAt .start⟩)
  | .comment c => some (.comment ⟨c.text, .emptyAt .start⟩)
  | .doctype d => some (.doctype ⟨d.text, .emptyAt .start⟩)

/-- What is left of some nodes. -/
def bareIn : List Node → List Node
  | [] => []
  | node :: nodes => node.bare?.toList ++ bareIn nodes

end

variable {nodes more : List Node} {node : Node}

theorem bareIn_eq (nodes : List Node) : bareIn nodes = nodes.filterMap Node.bare? := by
  induction nodes with
  | nil => rfl
  | cons node nodes ih =>
      rw [bareIn, ih, List.filterMap_cons]
      cases node.bare? <;> rfl

theorem bareIn_reverse (nodes : List Node) : bareIn nodes.reverse = (bareIn nodes).reverse := by
  simp only [bareIn_eq, List.filterMap_reverse]

/-- White space leaves nothing. -/
theorem bare?_of_isBlank (blank : node.isBlank) : node.bare? = none := by
  cases node with
  | text t => exact if_pos blank
  | _ => cases blank

@[simp] theorem StartTag.name_bare (tag : StartTag) : tag.bare.name = tag.name := rfl

@[simp] theorem StartTag.isVoid_bare (tag : StartTag) : tag.bare.isVoid = tag.isVoid := rfl

@[simp] theorem StartTag.selfClosing_bare (tag : StartTag) :
    tag.bare.selfClosing = tag.selfClosing := rfl

/-! ## Tokens of which the same is built -/

/-- Two tokens of which the same is built. White space at the end of a text does not count, and of an
end tag only its name does, and whether it is broken off. -/
structure Alike (t u : Token TokenKind) : Prop where
  kind : u.kind = t.kind
  text : t.kind = .text → trimEnd u.text = trimEnd t.text
  close : t.kind = .tagClose → Builder.endTagName u.text = Builder.endTagName t.text ∧
    (u.text.getLast? = some '>' ↔ t.text.getLast? = some '>')
  other : t.kind ≠ .text → t.kind ≠ .tagClose → u.text = t.text

variable {t u : Token TokenKind} {ts us : List (Token TokenKind)}

theorem Alike.of_text (kind : u.kind = t.kind) (text : u.text = t.text) : Alike t u :=
  ⟨kind, fun _ => congrArg trimEnd text, fun _ => text ▸ ⟨rfl, Iff.rfl⟩, fun _ _ => text⟩

theorem Alike.refl (t : Token TokenKind) : Alike t t := .of_text rfl rfl

/-- Pieces of markup of which the same is built, token by token. -/
inductive Markup.Alike : Markup → Markup → Prop
  | tag {head head' : Token TokenKind} {parts parts' : List (Token TokenKind)}
      {close close' : Option (Token TokenKind)} : head'.text = head.text →
      List.Forall₂ Html.Alike parts parts' → close'.map Token.kind = close.map Token.kind →
      Markup.Alike (.tag head parts close) (.tag head' parts' close')
  | single {t u : Token TokenKind} : Html.Alike t u → Markup.Alike (.single t) (.single u)

theorem Markup.Alike.refl (piece : Markup) : piece.Alike piece := by
  cases piece with
  | tag head parts close => exact .tag rfl (List.forall₂_same.mpr fun t _ => .refl t) rfl
  | single t => exact .single (.refl t)

/-! ## Tokens that are put together alike -/

theorem Alike.isTagPart (alike : Alike t u) : isTagPart u = isTagPart t := by
  rw [Html.isTagPart, Html.isTagPart, alike.kind]

theorem Alike.isTagEnd (alike : Alike t u) : isTagEnd u = isTagEnd t := by
  rw [Html.isTagEnd, Html.isTagEnd, alike.kind]

/-- The parts in front of alike tokens are alike, and so is what follows them. -/
theorem alike_parts (alike : List.Forall₂ Alike ts us) :
    List.Forall₂ Alike (ts.takeWhile isTagPart) (us.takeWhile isTagPart) ∧
      List.Forall₂ Alike (ts.dropWhile isTagPart) (us.dropWhile isTagPart) := by
  induction alike with
  | nil => exact ⟨.nil, .nil⟩
  | @cons t u ts us first rest ih =>
      have same := first.isTagPart
      by_cases part : isTagPart t
      · rw [List.takeWhile_cons_of_pos part, List.takeWhile_cons_of_pos (same.trans part),
          List.dropWhile_cons_of_pos part, List.dropWhile_cons_of_pos (same.trans part)]
        exact ⟨.cons first ih.1, ih.2⟩
      · have part' : ¬ isTagPart u := fun holds => part (same.symm.trans holds)
        rw [List.takeWhile_cons_of_neg part, List.takeWhile_cons_of_neg part',
          List.dropWhile_cons_of_neg part, List.dropWhile_cons_of_neg part']
        exact ⟨.nil, .cons first rest⟩

/-- **Alike tokens make alike pieces.** The induction follows the grouping. -/
theorem alike_ofTokens (alike : List.Forall₂ Alike ts us) :
    List.Forall₂ Markup.Alike (Markup.ofTokens ts) (Markup.ofTokens us) := by
  fun_induction Markup.ofTokens ts generalizing us with
  | case1 =>
      cases alike
      rw [Markup.ofTokens]
      exact .nil
  | case2 t ts opens parts =>
      rename_i ended
      obtain ⟨u, us, first, rest, rfl⟩ := List.forall₂_cons_left_iff.mp alike
      obtain ⟨inside, after⟩ := alike_parts rest
      rw [ended] at after
      have all : us.takeWhile isTagPart = us := by
        have whole := us.takeWhile_append_dropWhile (p := isTagPart)
        rwa [List.forall₂_nil_left_iff.mp after, List.append_nil] at whole
      have within : ∀ v ∈ us, isTagPart v := List.takeWhile_eq_self_iff.mp all
      have stops : ∀ v ∈ ([] : List (Token TokenKind)).head?,
          isTagPart v = false ∧ isTagEnd v = false := by simp
      have grouped := Markup.ofTokens_broken (first.kind.trans opens) within stops
      rw [List.append_nil, Markup.ofTokens] at grouped
      rw [grouped]
      rw [all] at inside
      exact .cons (.tag (first.other (by simp [opens]) (by simp [opens])) inside rfl) .nil
  | case3 t ts opens parts e rest left closes =>
      rename_i ih
      obtain ⟨u, us, first, others, rfl⟩ := List.forall₂_cons_left_iff.mp alike
      obtain ⟨inside, after⟩ := alike_parts others
      rw [left] at after
      obtain ⟨e', rest', last, later, left'⟩ := List.forall₂_cons_left_iff.mp after
      have within : ∀ v ∈ us.takeWhile isTagPart, isTagPart v :=
        fun v member => List.mem_takeWhile_imp member
      have grouped : Markup.ofTokens (u :: (us.takeWhile isTagPart ++ e' :: rest')) = _ :=
        Markup.ofTokens_closed (first.kind.trans opens) within (last.isTagEnd.trans closes)
      rw [← left', List.takeWhile_append_dropWhile] at grouped
      rw [grouped]
      exact .cons (.tag (first.other (by simp [opens]) (by simp [opens])) inside
        (congrArg some last.kind)) (ih later)
  | case4 t ts opens parts e rest left other =>
      rename_i ih
      obtain ⟨u, us, first, others, rfl⟩ := List.forall₂_cons_left_iff.mp alike
      obtain ⟨inside, after⟩ := alike_parts others
      rw [left] at after
      obtain ⟨e', rest', last, later, left'⟩ := List.forall₂_cons_left_iff.mp after
      have stops : ∀ v ∈ (e' :: rest').head?, isTagPart v = false ∧ isTagEnd v = false := by
        rintro v ⟨⟩
        exact ⟨last.isTagPart.trans (isTagPart_of_left left),
          last.isTagEnd.trans (Bool.eq_false_of_not_eq_true other)⟩
      have within : ∀ v ∈ us.takeWhile isTagPart, isTagPart v :=
        fun v member => List.mem_takeWhile_imp member
      have grouped := Markup.ofTokens_broken (first.kind.trans opens) within stops
      rw [← left', List.takeWhile_append_dropWhile, left'] at grouped
      rw [grouped]
      exact .cons (.tag (first.other (by simp [opens]) (by simp [opens])) inside rfl)
        (ih (.cons last later))
  | case5 t ts other ih =>
      obtain ⟨u, us, first, rest, rfl⟩ := List.forall₂_cons_left_iff.mp alike
      have other' : u.kind ≠ .tagOpen := fun opens => other (first.kind.symm.trans opens)
      rw [ofTokens_single other']
      exact .cons (.single first) (ih rest)

/-! ## Start tags -/

/-- What is wrong, wherever. -/
def faults (issues : List Issue) : List Fault := issues.map Issue.fault

@[simp] theorem faults_append (issues more : List Issue) :
    faults (issues ++ more) = faults issues ++ faults more :=
  List.map_append

/-- A value is read off its text alone. -/
theorem readValue_alike (name raw : List Char) (p q : Position) :
    (Attribute.readValue name p raw).1 = (Attribute.readValue name q raw).1 ∧
      (Attribute.readValue name p raw).2.1 = (Attribute.readValue name q raw).2.1 ∧
      faults (Attribute.readValue name p raw).2.2 = faults (Attribute.readValue name q raw).2.2 := by
  cases raw with
  | nil => exact ⟨rfl, rfl, rfl⟩
  | cons c body =>
      simp only [Attribute.readValue]
      split
      · split <;> exact ⟨rfl, rfl, rfl⟩
      · exact ⟨rfl, rfl, rfl⟩

theorem ofToken_alike (text : u.text = t.text) :
    (Attribute.ofToken u).1.bare = (Attribute.ofToken t).1.bare ∧
      faults (Attribute.ofToken u).2 = faults (Attribute.ofToken t).2 := by
  simp only [Attribute.ofToken, text]
  split
  next afterSign _ =>
    obtain ⟨value, quote, issues⟩ := readValue_alike
      (t.text.takeWhile fun c => !(c == '=' || isBlank c)) (trimStart afterSign)
      (u.span.start.after (t.text.take (t.text.length - (trimStart afterSign).length)))
      (t.span.start.after (t.text.take (t.text.length - (trimStart afterSign).length)))
    refine ⟨?_, issues⟩
    simp only [Attribute.bare, value, quote]
  next => exact ⟨rfl, rfl⟩

theorem readParts_alike (name : List Char) (alike : List.Forall₂ Alike ts us) :
    (readParts name us).1.map Attribute.bare = (readParts name ts).1.map Attribute.bare ∧
      faults (readParts name us).2 = faults (readParts name ts).2 := by
  induction alike with
  | nil => exact ⟨rfl, rfl⟩
  | @cons t u ts us first _ ih =>
      obtain ⟨attributes, issues⟩ := ih
      simp only [readParts, first.kind]
      cases kind : t.kind
      case attr =>
        obtain ⟨own, told⟩ := ofToken_alike (first.other (by simp [kind]) (by simp [kind]))
        simp only [List.map_cons, faults_append, attributes, issues, own, told]
        exact ⟨trivial, trivial⟩
      case unknown =>
        have text := first.other (by simp [kind]) (by simp [kind])
        simp only [faults, List.map_cons, text] at issues ⊢
        exact ⟨attributes, congrArg _ issues⟩
      all_goals exact ⟨attributes, issues⟩

/-- **A start tag is read off the texts of its tokens.** -/
theorem startTag_bare_alike {head head' : Token TokenKind} {close close' : Option (Token TokenKind)}
    (named : head'.text = head.text) (parts : List.Forall₂ Alike ts us)
    (closed : close'.map Token.kind = close.map Token.kind) :
    (StartTag.ofTokens head' us close').1.bare = (StartTag.ofTokens head ts close).1.bare ∧
      faults (StartTag.ofTokens head' us close').2 = faults (StartTag.ofTokens head ts close).2 := by
  obtain ⟨attributes, issues⟩ := readParts_alike (lowerAscii (head.text.drop 1)) parts
  have selfClosing : close'.any (·.kind == .selfClosingTagEnd) =
      close.any (·.kind == .selfClosingTagEnd) := by
    cases close <;> cases close' <;> simp_all
  have broken : close'.isNone = close.isNone := by
    cases close <;> cases close' <;> simp_all
  constructor
  · simp only [StartTag.ofTokens, StartTag.bare, named, attributes, selfClosing, Option.map_map]
    cases close <;> cases close' <;> simp_all
  · simp only [StartTag.ofTokens, named, broken]
    split
    · rw [faults_append, faults_append, issues]
      rfl
    · exact issues

/-! ## Builders -/

/-- The open element, with what is left of its content. -/
def OpenElement.bare (e : OpenElement) : OpenElement := ⟨e.tag.bare, bareIn e.children⟩

/-- The element as a node that stands nowhere. -/
def OpenElement.whole (e : OpenElement) : Node :=
  .element e.tag e.children.reverse none (.emptyAt .start)

/-- However an element ends, the same is left of it. -/
theorem bare?_close (e : OpenElement) (endTag : Option Span) :
    (e.close endTag).bare? = some e.bare.whole := by
  simp only [OpenElement.close, Node.bare?, OpenElement.whole, OpenElement.bare, bareIn_reverse]

namespace Builder

variable {b b' : Builder}

/-- What is left of the tree so far. -/
def bare (b : Builder) : Builder := ⟨b.stack.map OpenElement.bare, bareIn b.top, b.flattened⟩

/-- Closes the innermost open element, wherever it ends. -/
def shut (b : Builder) : Builder :=
  match b.stack with
  | [] => b
  | e :: outer => { b with stack := outer }.append e.whole

theorem bare_append (b : Builder) (node : Node) :
    (b.append node).bare = node.bare?.elim b.bare b.bare.append := by
  obtain ⟨stack, top, flattened⟩ := b
  cases left : node.bare? <;> cases stack <;>
    simp [append, bare, OpenElement.bare, bareIn, left]

/-- White space leaves no trace. -/
theorem bare_append_blank (b : Builder) (blank : node.isBlank) : (b.append node).bare = b.bare := by
  rw [bare_append, bare?_of_isBlank blank]
  rfl

theorem bare_closeTop (b : Builder) (endTag : Option Span) : (b.closeTop endTag).bare = b.bare.shut := by
  obtain ⟨stack, top, flattened⟩ := b
  cases stack with
  | nil => rfl
  | cons e outer =>
      rw [closeTop, bare_append, bare?_close]
      rfl

section Same

variable (same : b'.bare = b.bare)
include same

theorem flattened_alike : b'.flattened = b.flattened := by
  have names := congrArg Builder.flattened same
  exact names

theorem stack_alike : b'.stack.map OpenElement.bare = b.stack.map OpenElement.bare := by
  have open_ := congrArg Builder.stack same
  exact open_

theorem top_alike : bareIn b'.top = bareIn b.top := by
  have outside := congrArg Builder.top same
  exact outside

theorem names_alike : b'.names = b.names := by
  have names : ∀ b : Builder, b.names = (b.stack.map OpenElement.bare).map (·.tag.name) := by
    intro b
    rw [names_eq, List.map_map]
    rfl
  rw [names, names, stack_alike same]

theorem length_alike : b'.stack.length = b.stack.length := by
  simpa using congrArg List.length (stack_alike same)

theorem append_alike {node' : Node} (nodes : node'.bare? = node.bare?) :
    (b'.append node').bare = (b.append node).bare := by
  rw [bare_append, bare_append, nodes, same]

theorem closeTop_alike (endTag endTag' : Option Span) :
    (b'.closeTop endTag').bare = (b.closeTop endTag).bare := by
  rw [bare_closeTop, bare_closeTop, same]

theorem closeMany_alike (n : Nat) : (closeMany n b').bare = (closeMany n b).bare := by
  induction n generalizing b b' with
  | zero => exact same
  | succ n ih => exact ih (closeTop_alike same none none)

theorem flatten_alike (names : List (List Char)) :
    bare { b' with flattened := names } = bare { b with flattened := names } := by
  rw [bare, bare, stack_alike same, top_alike same]

/-- The elements in front that go by their names. -/
theorem takeWhile_alike (p : List Char → Bool) :
    (b'.stack.takeWhile fun e => p e.tag.name).map OpenElement.bare =
      (b.stack.takeWhile fun e => p e.tag.name).map OpenElement.bare := by
  have front : ∀ stack : List OpenElement,
      (stack.takeWhile fun e => p e.tag.name).map OpenElement.bare =
        (stack.map OpenElement.bare).takeWhile fun e => p e.tag.name := by
    intro stack
    rw [List.takeWhile_map]
    rfl
  rw [front, front, stack_alike same]

theorem length_takeWhile_alike (p : List Char → Bool) :
    (b'.stack.takeWhile fun e => p e.tag.name).length =
      (b.stack.takeWhile fun e => p e.tag.name).length := by
  simpa using congrArg List.length (takeWhile_alike same p)

theorem closeImplied_alike (incoming : List Char) :
    (b'.closeImplied incoming).bare = (b.closeImplied incoming).bare := by
  have length := length_takeWhile_alike same (closedBy · incoming)
  rw [closeImplied, closeImplied, flattened_alike same, length]
  split
  · exact closeMany_alike (flatten_alike same []) _
  · exact flatten_alike same _

end Same

theorem faults_missingEnds (fault : List Char → Fault) {ended ended' : List OpenElement}
    (same : ended'.map OpenElement.bare = ended.map OpenElement.bare) :
    faults (missingEnds fault ended') = faults (missingEnds fault ended) := by
  have told : ∀ ended : List OpenElement, faults (missingEnds fault ended) =
      (((ended.map OpenElement.bare).map (·.tag.name)).filter
        fun name => !optionalEndTag.contains name).map fault := by
    intro ended
    rw [missingEnds, faults, List.map_map, List.map_map, List.filter_map, List.map_map]
    rfl
  rw [told, told, same]

/-! ## A step -/

/-- Two builders hold the same, and two lists of issues tell of the same faults. -/
def Agree (r r' : Builder × List Issue) : Prop := r'.1.bare = r.1.bare ∧ faults r'.2 = faults r.2

theorem openTag_alike (cap : Option Nat) (same : b'.bare = b.bare) {tag tag' : StartTag} (tags : tag'.bare = tag.bare) :
    Agree (b.openTag cap tag) (b'.openTag cap tag') := by
  have name : tag'.name = tag.name := by
    rw [← StartTag.name_bare, tags, StartTag.name_bare]
  have void : tag'.isVoid = tag.isVoid := by
    rw [← StartTag.isVoid_bare, tags, StartTag.isVoid_bare]
  have selfClosing : tag'.selfClosing = tag.selfClosing := by
    rw [← StartTag.selfClosing_bare, tags, StartTag.selfClosing_bare]
  have finish : tag'.finish.isNone = tag.finish.isNone := by
    simpa [StartTag.bare] using congrArg (fun t : StartTag => t.finish.isNone) tags
  have implied := closeImplied_alike same tag.name
  have nodes : Node.bare? (.element tag' [] none tag'.span) =
      Node.bare? (.element tag [] none tag.span) := by
    rw [Node.bare?, Node.bare?, tags]
  simp only [openTag, name, void, selfClosing, finish]
  generalize b.closeImplied tag.name = b₁ at implied
  generalize b'.closeImplied tag.name = b₂ at implied
  have full : b₂.isFull cap = b₁.isFull cap := by
    rw [isFull, isFull, length_alike implied]
  have opened : OpenElement.bare ⟨tag', []⟩ = OpenElement.bare ⟨tag, []⟩ := by
    rw [OpenElement.bare, OpenElement.bare, tags]
  rw [full, flattened_alike implied]
  split
  · exact ⟨append_alike implied nodes, rfl⟩
  split
  · refine ⟨flatten_alike (append_alike implied nodes) _, ?_⟩
    dsimp only
    split <;> rfl
  · refine ⟨?_, rfl⟩
    simp only [bare, List.map_cons, stack_alike implied, opened, top_alike implied]

theorem faults_broken (alike : Alike t u) (kind : t.kind = .tagClose) :
    faults (broken u) = faults (broken t) := by
  obtain ⟨name, ends⟩ := alike.close kind
  by_cases whole : t.text.getLast? = some '>'
  · rw [broken, broken, if_pos whole, if_pos (ends.mpr whole)]
  · rw [broken, broken, if_neg whole, if_neg (fun whole' => whole (ends.mp whole'))]
    simp only [faults, List.map_cons, List.map_nil, name]

theorem close_alike (same : b'.bare = b.bare) (alike : Alike t u) (kind : t.kind = .tagClose) :
    Agree (b.close t) (b'.close u) := by
  have broken := faults_broken alike kind
  have name := (alike.close kind).1
  have inner := takeWhile_alike same (· != endTagName t.text)
  have count := length_takeWhile_alike same (· != endTagName t.text)
  have one := closing b t
  have other := closing b' u
  rw [name] at other
  have known : ∀ n, n ∈ b'.names ↔ n ∈ b.names := fun n => by rw [names_alike same]
  have flat : ∀ n, n ∈ b'.flattened ↔ n ∈ b.flattened := fun n => by rw [flattened_alike same]
  have opened : ∀ n, n ∈ b'.openNames ↔ n ∈ b.openNames := fun n => by
    rw [openNames, openNames, names_alike same, flattened_alike same]
  generalize endTagName t.text = n at one other inner count
  generalize b.close t = r at one
  generalize b'.close u = r' at other
  cases one with
  | void void =>
      cases other with
      | void _ => exact ⟨same, by simp only [faults_append, broken]; rfl⟩
      | flattened solid _ => exact absurd void solid
      | element solid _ _ => exact absurd void solid
      | stray solid _ => exact absurd void solid
  | flattened solid known' =>
      cases other with
      | void void => exact absurd void solid
      | flattened _ _ =>
          rw [flattened_alike same]
          exact ⟨flatten_alike same _, broken⟩
      | element _ unknown _ => exact absurd ((flat n).mpr known') unknown
      | stray _ unknown => exact absurd (List.mem_append_left _ ((flat n).mpr known')) unknown
  | element solid unknown known' =>
      cases other with
      | void void => exact absurd void solid
      | flattened _ there => exact absurd ((flat n).mp there) unknown
      | element _ _ _ =>
          rw [count]
          refine ⟨closeTop_alike (closeMany_alike (flatten_alike same []) _) _ _, ?_⟩
          simp only [faults_append, broken, faults_missingEnds .notClosed inner]
      | stray _ none_ => exact absurd (List.mem_append_right _ ((known n).mpr known')) none_
  | stray solid none_ =>
      cases other with
      | void void => exact absurd void solid
      | flattened _ there => exact absurd (List.mem_append_left _ ((flat n).mp there)) none_
      | element _ _ there => exact absurd (List.mem_append_right _ ((known n).mp there)) none_
      | stray _ _ => exact ⟨same, by simp only [faults_append, broken]; rfl⟩

/-- A text without white space at its end tells whether it is white space. -/
theorem all_isBlank_iff (cs : List Char) : cs.all isBlank ↔ trimEnd cs = [] := by
  obtain ⟨back, whole, blank⟩ := trimEndBy_spec isBlank cs
  constructor
  · intro all
    have trimmed : trimEndBy isBlank ([] ++ cs) = [] :=
      trimEndBy_append (by simp) (List.all_eq_true.mp all)
    rwa [List.nil_append] at trimmed
  · intro none_
    rw [show trimEndBy isBlank cs = [] from none_, List.nil_append] at whole
    rw [whole]
    exact List.all_eq_true.mpr blank

theorem bare?_text_alike {text text' : List Char} (trimmed : trimEnd text' = trimEnd text) (raw : Bool)
    (s s' : Span) : Node.bare? (.text ⟨text', raw, s'⟩) = Node.bare? (.text ⟨text, raw, s⟩) := by
  have blank : text'.all isBlank = text.all isBlank := by
    rw [Bool.eq_iff_iff, all_isBlank_iff, all_isBlank_iff, trimmed]
  simp only [Node.bare?, TextNode.isBlank, blank, trimmed]
  rfl

theorem takeIn_alike (same : b'.bare = b.bare) (alike : Alike t u) :
    Agree (b.takeIn t) (b'.takeIn u) := by
  simp only [takeIn, alike.kind]
  cases kind : t.kind
  case text => exact ⟨append_alike same (bare?_text_alike (alike.text kind) false _ _), rfl⟩
  case tagClose => exact close_alike same alike kind
  case byteOrderMark => exact ⟨same, rfl⟩
  all_goals
    have text := alike.other (by simp [kind]) (by simp [kind])
    dsimp only
    rw [text]
  case doctype => exact ⟨append_alike same rfl, rfl⟩
  case comment => exact ⟨append_alike same rfl, by dsimp only; split <;> rfl⟩
  case cdata => exact ⟨append_alike same (bare?_text_alike rfl true _ _), by dsimp only; split <;> rfl⟩
  case rawText => exact ⟨append_alike same (bare?_text_alike rfl true _ _), rfl⟩
  case blank => exact ⟨append_alike same (bare?_text_alike rfl false _ _), rfl⟩
  all_goals exact ⟨same, rfl⟩

/-- **Alike builders are alike after alike pieces**, and find the same faults; so they are after several. -/
theorem step_alike (cap : Option Nat) (same : b'.bare = b.bare) {piece piece' : Markup} (alike : piece.Alike piece') :
    Agree (b.step cap piece) (b'.step cap piece') := by
  cases alike with
  | tag named parts closed =>
      obtain ⟨tags, issues⟩ := startTag_bare_alike named parts closed
      obtain ⟨held, told⟩ := openTag_alike cap same tags
      refine ⟨held, ?_⟩
      simp only [step, faults_append, issues, told]
  | single alike => exact takeIn_alike same alike

theorem run_alike (cap : Option Nat) (same : b'.bare = b.bare) {pieces pieces' : List Markup}
    (alike : List.Forall₂ Markup.Alike pieces pieces') :
    Agree (b.run cap pieces) (b'.run cap pieces') := by
  induction alike generalizing b b' with
  | nil => exact ⟨same, rfl⟩
  | @cons piece piece' pieces pieces' first _ ih =>
      obtain ⟨held, told⟩ := step_alike cap same first
      obtain ⟨held', told'⟩ := ih held
      refine ⟨held', ?_⟩
      simp only [run, faults_append, told, told']

theorem finish_alike (same : b'.bare = b.bare) : Agree b.finish b'.finish := by
  simp only [finish, length_alike same]
  exact ⟨closeMany_alike same _, faults_missingEnds .unclosed (stack_alike same)⟩

end Builder

end PageLint.Html
