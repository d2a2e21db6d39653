/-
# PageLint.Proofs.Html.Carry — a page carried over to another text

What is built of tokens does not depend on where they lie, and of what they say only their names
matter. So a tree can be carried over: a `Carry` says where each place goes, what each text becomes
and how each attribute is quoted afterwards, and `Carry.nodes` applies it to a whole tree. Each
operation of the builder commutes with it, and therefore a run does: tokens that are carried over
build the tree that is carried over, with the faults carried over (`buildTree_carry`).
-/
import PageLint.Proofs.Html.Outline

namespace PageLint.Html

set_option autoImplicit false

open Text

/-- How the parts of a page are carried over to another one. -/
structure Carry where
  /-- Where a place goes. -/
  place : Position → Position
  /-- What the text at a stretch becomes. -/
  content : Span → List Char → List Char
  /-- How the value of an attribute is written afterwards. -/
  quote : Attribute → Quote
  /-- Whether the value at a stretch gets the closing quote that it lacks. -/
  mends : Span → Bool

namespace Carry

variable (f : Carry)

/-! ## The parts of a page -/

def span (s : Span) : Span := ⟨f.place s.start, f.place s.finish⟩

def token (t : Token TokenKind) : Token TokenKind := ⟨t.kind, f.content t.span t.text, f.span t.span⟩

def markup : Markup → Markup
  | .tag head parts close => .tag (f.token head) (parts.map f.token) (close.map f.token)
  | .single t => .single (f.token t)

def attr (a : Attribute) : Attribute :=
  { a with
    nameSpan := f.span a.nameSpan
    valueSpan := a.valueSpan.map f.span
    quote := f.quote a
    span := f.span a.span }

def tag (t : StartTag) : StartTag :=
  { t with
    nameSpan := f.span t.nameSpan
    attributes := t.attributes.map f.attr
    finish := t.finish.map f.span
    span := f.span t.span }

def text (t : TextNode) : TextNode := ⟨f.content t.span t.text, t.raw, f.span t.span⟩

def verbatim (c : Verbatim) : Verbatim := ⟨c.text, f.span c.span⟩

mutual

/-- A node with all that it contains. -/
def node : Node → Node
  | .element tag children endTag span =>
    .element (f.tag tag) (nodes children) (endTag.map f.span) (f.span span)
  | .text t => .text (f.text t)
  | .comment c => .comment (f.verbatim c)
  | .doctype d => .doctype (f.verbatim d)

/-- Nodes, each with all that it contains. -/
def nodes : List Node → List Node
  | [] => []
  | first :: others => node first :: nodes others

end

/-- The fault of a value that gets its closing quote. -/
def isMended (issue : Issue) : Bool :=
  match issue.fault with
  | .unterminatedValue _ => f.mends issue.span
  | _ => false

/-- The faults that are left, with the stretches where they go. -/
def issues (issues : List Issue) : List Issue :=
  (issues.filter fun issue => !f.isMended issue).map fun issue =>
    ⟨issue.fault, f.span issue.span⟩

def openElement (e : OpenElement) : OpenElement := ⟨f.tag e.tag, f.nodes e.children⟩

def builder (b : Builder) : Builder := ⟨b.stack.map f.openElement, f.nodes b.top, b.flattened⟩

variable {f}

theorem nodes_eq_map (nodes : List Node) : f.nodes nodes = nodes.map f.node := by
  induction nodes with
  | nil => rfl
  | cons node nodes ih => rw [Carry.nodes, ih, List.map_cons]

theorem nodes_reverse (nodes : List Node) : f.nodes nodes.reverse = (f.nodes nodes).reverse := by
  rw [nodes_eq_map, nodes_eq_map, List.map_reverse]

@[simp] theorem span_node (node : Node) : (f.node node).span = f.span node.span := by
  cases node <;> rfl

@[simp] theorem issues_nil : f.issues [] = [] := rfl

@[simp] theorem issues_append (issues more : List Issue) :
    f.issues (issues ++ more) = f.issues issues ++ f.issues more := by
  simp [Carry.issues]

/-- A fault of anything but a value stays. -/
theorem issues_cons {issue : Issue} (other : ∀ name, issue.fault ≠ .unterminatedValue name)
    (more : List Issue) :
    f.issues (issue :: more) = ⟨issue.fault, f.span issue.span⟩ :: f.issues more := by
  have left : f.isMended issue = false := by
    rw [isMended]
    split
    next name fault => exact absurd fault (other name)
    next => rfl
  simp [Carry.issues, left]

@[simp] theorem isVoid_tag (tag : StartTag) : (f.tag tag).isVoid = tag.isVoid := rfl

@[simp] theorem name_tag (tag : StartTag) : (f.tag tag).name = tag.name := rfl

/-! ## Start tags -/

@[simp] theorem isTagPart_token (t : Token TokenKind) : isTagPart (f.token t) = isTagPart t := rfl

@[simp] theorem isTagEnd_token (t : Token TokenKind) : isTagEnd (f.token t) = isTagEnd t := rfl

/-- **Tokens are grouped by their kinds alone.** -/
theorem ofTokens_token (ts : List (Token TokenKind)) :
    Markup.ofTokens (ts.map f.token) = (Markup.ofTokens ts).map f.markup := by
  have within : ∀ ts : List (Token TokenKind),
      ∀ u ∈ (ts.takeWhile isTagPart).map f.token, isTagPart u := by
    intro ts u member
    obtain ⟨t, inside, rfl⟩ := List.mem_map.mp member
    exact (isTagPart_token t).trans (List.mem_takeWhile_imp inside)
  fun_induction Markup.ofTokens ts with
  | case1 => simp [Markup.ofTokens]
  | case2 t ts opens parts ended =>
      have opens' : (f.token t).kind = .tagOpen := opens
      have all : parts = ts := List.takeWhile_eq_self_iff.mpr (List.dropWhile_eq_nil_iff.mp ended)
      have stops : ∀ u ∈ ([] : List (Token TokenKind)).head?,
          isTagPart u = false ∧ isTagEnd u = false := by simp
      have grouped := Markup.ofTokens_broken opens' (within ts) stops
      rw [List.append_nil, Markup.ofTokens] at grouped
      rw [List.map_cons, ← all, grouped]
      rfl
  | case3 t ts opens parts e rest left closes ih =>
      have opens' : (f.token t).kind = .tagOpen := opens
      have closes' : isTagEnd (f.token e) := closes
      have whole : ts.map f.token = parts.map f.token ++ f.token e :: rest.map f.token := by
        rw [← List.map_cons, ← left, ← List.map_append, List.takeWhile_append_dropWhile]
      rw [List.map_cons, whole, Markup.ofTokens_closed opens' (within ts) closes', ih]
      rfl
  | case4 t ts opens parts e rest left other ih =>
      have opens' : (f.token t).kind = .tagOpen := opens
      have whole : ts.map f.token = parts.map f.token ++ (e :: rest).map f.token := by
        rw [← left, ← List.map_append, List.takeWhile_append_dropWhile]
      have stops : ∀ u ∈ ((e :: rest).map f.token).head?,
          isTagPart u = false ∧ isTagEnd u = false := by
        rintro u ⟨⟩
        have part : isTagPart e = false := isTagPart_of_left left
        exact ⟨part, Bool.eq_false_of_not_eq_true other⟩
      rw [List.map_cons, whole, Markup.ofTokens_broken opens' (within ts) stops, ih]
      rfl
  | case5 t ts other ih =>
      have other' : (f.token t).kind ≠ .tagOpen := other
      rw [List.map_cons, ofTokens_single other', ih]
      rfl

variable (f) in
/-- What the text of a token says is left as it is. -/
def Keeps (t : Token TokenKind) : Prop := f.content t.span t.text = t.text

variable (f) in
/-- What an attribute and its faults become is read off what its token becomes. -/
def Reads (t : Token TokenKind) : Prop :=
  Attribute.ofToken (f.token t) = (f.attr (Attribute.ofToken t).1, f.issues (Attribute.ofToken t).2)

variable (f) in
/-- Nothing but a text between tags says anything else afterwards, and what attributes become is read
off their tokens. -/
def Fits : Markup → Prop
  | .tag head parts _ =>
    f.Keeps head ∧ f.place (head.span.start.next '<') = (f.place head.span.start).next '<' ∧
      (∀ t ∈ parts, t.kind ≠ .attr → f.Keeps t) ∧ ∀ t ∈ parts, t.kind = .attr → f.Reads t
  | .single t => t.kind ≠ .text → f.Keeps t

variable {head : Token TokenKind} {parts : List (Token TokenKind)} {close : Option (Token TokenKind)}

theorem readParts_token (name : List Char) (keeps : ∀ t ∈ parts, t.kind ≠ .attr → f.Keeps t)
    (reads : ∀ t ∈ parts, t.kind = .attr → f.Reads t) :
    readParts name (parts.map f.token) =
      ((readParts name parts).1.map f.attr, f.issues (readParts name parts).2) := by
  induction parts with
  | nil => rfl
  | cons t parts ih =>
      rw [List.forall_mem_cons] at keeps reads
      have kind : (f.token t).kind = t.kind := rfl
      rw [List.map_cons, readParts, readParts, ih keeps.2 reads.2, kind]
      cases same : t.kind
      case attr =>
        dsimp only
        rw [reads.1 same, issues_append, List.map_cons]
      case unknown =>
        have told : f.content t.span t.text = t.text := keeps.1 (by simp [same])
        dsimp only
        rw [issues_cons (by simp), token, told]
      all_goals rfl

/-- **A start tag is read off what its tokens become.** -/
theorem startTag_token (fits : f.Fits (.tag head parts close)) :
    StartTag.ofTokens (f.token head) (parts.map f.token) (close.map f.token) =
      (f.tag (StartTag.ofTokens head parts close).1,
        f.issues (StartTag.ofTokens head parts close).2) := by
  obtain ⟨named, next, keeps, reads⟩ := fits
  have said : (f.token head).text = head.text := named
  have whole : f.token head :: parts.map f.token ++ (close.map f.token).toList =
      (head :: parts ++ close.toList).map f.token := by
    cases close <;> simp
  have lasts : (close.map f.token).isNone = close.isNone := by cases close <;> rfl
  have closing : ((close.map f.token).any fun t => t.kind == .selfClosingTagEnd) =
      close.any fun t => t.kind == .selfClosingTagEnd := by cases close <;> rfl
  have finish : (close.map f.token).map Token.span = (close.map Token.span).map f.span := by
    cases close <;> rfl
  simp only [StartTag.ofTokens, said, readParts_token _ keeps reads, whole, List.getLast_map, lasts,
    closing, finish]
  refine Prod.ext ?_ ?_
  · rw [tag, span, next]
    rfl
  · split
    · rw [issues_append, issues_cons (by simp)]
      rfl
    · rfl

/-! ## The builder -/

section Builder

variable {b : Builder} {t : Token TokenKind}

theorem append_builder (b : Builder) (node : Node) :
    (f.builder b).append (f.node node) = f.builder (b.append node) := by
  obtain ⟨stack, top, flattened⟩ := b
  cases stack <;> rfl

theorem close_openElement (e : OpenElement) (endTag : Option Span) :
    (f.openElement e).close (endTag.map f.span) = f.node (e.close endTag) := by
  obtain ⟨tag, children⟩ := e
  cases endTag with
  | some s => simp [OpenElement.close, openElement, node, nodes_eq_map, span, Carry.tag]
  | none =>
      cases children <;>
        simp [OpenElement.close, openElement, node, nodes_eq_map, span, Carry.tag]

theorem closeTop_builder (b : Builder) (endTag : Option Span) :
    (f.builder b).closeTop (endTag.map f.span) = f.builder (b.closeTop endTag) := by
  obtain ⟨stack, top, flattened⟩ := b
  cases stack with
  | nil => rfl
  | cons e outer =>
      have whole := append_builder (f := f) ⟨outer, top, flattened⟩ (e.close endTag)
      rw [← close_openElement] at whole
      exact whole

theorem closeMany_builder (n : Nat) (b : Builder) :
    Builder.closeMany n (f.builder b) = f.builder (Builder.closeMany n b) := by
  induction n generalizing b with
  | zero => rfl
  | succ n ih =>
      have top := closeTop_builder (f := f) b none
      rw [Builder.closeMany, Builder.closeMany, ← ih, ← top]
      rfl

/-- What is open is found by names. -/
theorem takeWhile_openElement (p : List Char → Bool) (stack : List OpenElement) :
    (stack.map f.openElement).takeWhile (fun e => p e.tag.name) =
      (stack.takeWhile fun e => p e.tag.name).map f.openElement := by
  rw [List.takeWhile_map]
  rfl

theorem closeImplied_builder (b : Builder) (incoming : List Char) :
    (f.builder b).closeImplied incoming = f.builder (b.closeImplied incoming) := by
  have ended := takeWhile_openElement (f := f) (closedBy · incoming) b.stack
  have same : (f.builder b).flattened = b.flattened := rfl
  rw [Builder.closeImplied, Builder.closeImplied, same]
  split
  · rw [show (f.builder b).stack = b.stack.map f.openElement from rfl, ended, List.length_map,
      ← closeMany_builder]
    rfl
  · rfl

theorem isFull_builder (b : Builder) (cap : Option Nat) :
    (f.builder b).isFull cap = b.isFull cap := by
  simp [Builder.isFull, builder]

theorem openTag_builder (b : Builder) (cap : Option Nat) (tag : StartTag) :
    (f.builder b).openTag cap (f.tag tag) =
      (f.builder (b.openTag cap tag).1, f.issues (b.openTag cap tag).2) := by
  have whole : Node.element (f.tag tag) [] none (f.tag tag).span =
      f.node (.element tag [] none tag.span) := rfl
  have broken : (f.tag tag).finish.isNone = tag.finish.isNone := by
    cases finish : tag.finish <;> simp [Carry.tag, finish]
  have flattened : ∀ b, (f.builder b).flattened = b.flattened := fun _ => rfl
  simp only [Builder.openTag, name_tag, isVoid_tag, closeImplied_builder, whole, append_builder,
    broken, isFull_builder, flattened]
  generalize b.closeImplied tag.name = b
  have closing : (f.tag tag).selfClosing = tag.selfClosing := rfl
  rw [closing]
  split
  · rfl
  split
  · refine Prod.ext rfl ?_
    dsimp only
    split
    · rw [issues_cons (by simp)]
      rfl
    · rfl
  · rfl

theorem missingEnds_openElement {fault : List Char → Fault}
    (other : ∀ name value, fault name ≠ .unterminatedValue value) (ended : List OpenElement) :
    f.issues (Builder.missingEnds fault ended) =
      Builder.missingEnds fault (ended.map f.openElement) := by
  induction ended with
  | nil => rfl
  | cons e ended ih =>
      have name : (f.openElement e).tag.name = e.tag.name := rfl
      rw [List.map_cons]
      simp only [Builder.missingEnds, List.filter_cons, name] at ih ⊢
      split
      · rw [List.map_cons, issues_cons (other _), ih]
        rfl
      · exact ih

theorem close_builder (keeps : f.Keeps t) (b : Builder) :
    (f.builder b).close (f.token t) = (f.builder (b.close t).1, f.issues (b.close t).2) := by
  have said : (f.token t).text = t.text := keeps
  have inner := fun name : List Char => takeWhile_openElement (f := f) (· != name) b.stack
  have stack : (f.builder b).stack = b.stack.map f.openElement := rfl
  have flattened : (f.builder b).flattened = b.flattened := rfl
  have broken : f.issues (if t.text.getLast? = some '>' then []
      else [⟨.unterminatedEndTag (Builder.endTagName t.text), t.span⟩]) =
        if t.text.getLast? = some '>' then []
        else [⟨.unterminatedEndTag (Builder.endTagName t.text), (f.token t).span⟩] := by
    split
    · rfl
    · rw [issues_cons (by simp)]
      rfl
  simp only [Builder.close, said, stack, inner, flattened, List.length_map]
  generalize Builder.endTagName t.text = name at broken ⊢
  split
  · rw [issues_append, broken, issues_cons (by simp)]
    rfl
  split
  · rw [broken]
    rfl
  split
  · rw [issues_append, broken, issues_cons (by simp)]
    rfl
  · rw [issues_append, broken, missingEnds_openElement (by simp)]
    refine Prod.ext ?_ rfl
    rw [← closeTop_builder, ← closeMany_builder]
    rfl

theorem text_of_keeps (keeps : f.Keeps t) (raw : Bool) :
    f.node (.text ⟨t.text, raw, t.span⟩) = .text ⟨t.text, raw, f.span t.span⟩ :=
  congrArg (fun said => Node.text ⟨said, raw, f.span t.span⟩) keeps

theorem takeIn_builder (keeps : t.kind ≠ .text → f.Keeps t) (b : Builder) :
    (f.builder b).takeIn (f.token t) = (f.builder (b.takeIn t).1, f.issues (b.takeIn t).2) := by
  have kind : (f.token t).kind = t.kind := rfl
  have added : ∀ node : Node, (f.builder b).append (f.node node) = f.builder (b.append node) :=
    append_builder b
  rw [Builder.takeIn, Builder.takeIn, kind]
  cases same : t.kind
  case text => exact Prod.ext (added (.text ⟨t.text, false, t.span⟩)) rfl
  case byteOrderMark => rfl
  case tagClose => exact close_builder (keeps (by simp [same])) b
  all_goals
    have said : (f.token t).text = t.text := keeps (by simp [same])
    dsimp only
    rw [said]
  case rawText | blank => exact Prod.ext ((congrArg _ (text_of_keeps said _)).symm.trans (added _)) rfl
  case doctype => exact Prod.ext (added (.doctype ⟨t.text, t.span⟩)) rfl
  case comment =>
    refine Prod.ext (added (.comment ⟨t.text, t.span⟩)) ?_
    dsimp only
    split
    · rw [issues_cons (by simp)]
      rfl
    · rfl
  case cdata =>
    refine Prod.ext ((congrArg _ (text_of_keeps said _)).symm.trans (added _)) ?_
    dsimp only
    split
    · rfl
    · rw [issues_cons (by simp)]
      rfl
  all_goals
    rw [issues_cons (by simp)]
    rfl

/-- **A step commutes with carrying over.** -/
theorem step_builder {piece : Markup} (fits : f.Fits piece) (cap : Option Nat) (b : Builder) :
    (f.builder b).step cap (f.markup piece) =
      (f.builder (b.step cap piece).1, f.issues (b.step cap piece).2) := by
  cases piece with
  | tag head parts close =>
      simp only [markup, Builder.step, startTag_token fits, openTag_builder, issues_append]
  | single t => exact takeIn_builder fits b

theorem run_builder {pieces : List Markup} (fits : ∀ piece ∈ pieces, f.Fits piece)
    (cap : Option Nat) (b : Builder) : (f.builder b).run cap (pieces.map f.markup) =
      (f.builder (b.run cap pieces).1, f.issues (b.run cap pieces).2) := by
  induction pieces generalizing b with
  | nil => rfl
  | cons piece pieces ih =>
      rw [List.forall_mem_cons] at fits
      simp only [List.map_cons, Builder.run, step_builder fits.1, ih fits.2, issues_append]

end Builder

/-- **Tokens that are carried over build the tree that is carried over**, with the faults that are
left. -/
theorem buildTree_token {ts : List (Token TokenKind)}
    (fits : ∀ piece ∈ Markup.ofTokens ts, f.Fits piece) (cap : Option Nat) :
    buildTree cap (ts.map f.token) =
      (f.nodes (buildTree cap ts).1, f.issues (buildTree cap ts).2) := by
  have run := run_builder fits cap .empty
  have empty : f.builder .empty = .empty := rfl
  have length : ∀ b, (f.builder b).stack.length = b.stack.length := fun b => List.length_map _
  have ends : ∀ open_, f.issues (Builder.missingEnds .unclosed open_) =
      Builder.missingEnds .unclosed (open_.map f.openElement) :=
    missingEnds_openElement (by simp)
  rw [empty] at run
  simp only [buildTree, ofTokens_token, run, Builder.finish, issues_append, length,
    closeMany_builder, ends, nodes_reverse]
  rfl

end Carry

/-! ## Stylesheets -/

theorem isStylesheet_carry (f : Carry) (tag : StartTag) :
    (f.tag tag).isStylesheet = tag.isStylesheet := by
  have typed : (f.tag tag).value? "type" = tag.value? "type" := by
    have found : (f.tag tag).attribute? "type" = (tag.attribute? "type").map f.attr := by
      simp only [StartTag.attribute?, Carry.tag, List.find?_map]
      rfl
    rw [StartTag.value?, StartTag.value?, found]
    cases tag.attribute? "type" <;> rfl
  rw [StartTag.isStylesheet, StartTag.isStylesheet, typed]
  rfl

mutual

theorem Node.styleTexts_carry (f : Carry) (inStyle : Bool) :
    (node : Node) → (f.node node).styleTexts inStyle = (node.styleTexts inStyle).map f.text
  | .element tag children endTag span => by
      rw [Carry.node, Node.styleTexts, Node.styleTexts, isStylesheet_carry,
        styleTextsIn_carry f _ children]
  | .text t => by
      rw [Carry.node, Node.styleTexts, Node.styleTexts]
      split <;> rfl
  | .comment c => rfl
  | .doctype d => rfl

/-- The texts that hold stylesheets hold them in the page that is carried over. -/
theorem styleTextsIn_carry (f : Carry) (inStyle : Bool) :
    (nodes : List Node) →
      styleTextsIn inStyle (f.nodes nodes) = (styleTextsIn inStyle nodes).map f.text
  | [] => rfl
  | node :: nodes => by
      rw [Carry.nodes, styleTextsIn, styleTextsIn, List.map_append, Node.styleTexts_carry f inStyle node,
        styleTextsIn_carry f inStyle nodes]

end

end PageLint.Html
