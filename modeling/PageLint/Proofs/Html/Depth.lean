/-
# PageLint.Proofs.Html.Depth — the cap on nesting changes no name

What a piece of markup opens and closes depends on the names of the open elements alone, and
with a cap these are the names of the flattened elements before those of the stack
(`Builder.openNames`). So the names follow a rule that knows of no cap (`Markup.opens`), and
so do the end tags that find nothing to close (`Markup.strays`): with and without a cap the
names are the same all along (`openNames_run`), and the same end tags are at fault.

The rule holds because elements are flattened only where no more may be open (`Spilled`): else
one that opens later would come before flattened ones that lie outside it. What the cap does
change is how deep the tree is (`Shallow`); where nothing reaches it, it changes nothing at all
(`run_of_room`).
-/
import Mathlib
import PageLint.Proofs.Html.Stylesheets

namespace PageLint.Html

set_option autoImplicit false

open Text

/-! ## Names of open elements -/

/-- The names that are open after a start tag. -/
def StartTag.opens (tag : StartTag) (names : List (List Char)) : List (List Char) :=
  let kept := names.dropWhile (closedBy · tag.name)
  if tag.isVoid || tag.selfClosing || tag.finish.isNone then kept else tag.name :: kept

/-- The names that are open after an end tag: what is open inside the element that it names
ends as well. -/
def opensAfter (name : List Char) (names : List (List Char)) : List (List Char) :=
  if name ∈ voidElements ∨ name ∉ names then names
  else (names.dropWhile (· != name)).drop 1

/-- The names that are open after a piece of markup, innermost first. -/
def Markup.opens : Markup → List (List Char) → List (List Char)
  | .tag head parts close, names => (StartTag.ofTokens head parts close).1.opens names
  | .single t, names =>
    if t.kind = .tagClose then opensAfter (Builder.endTagName t.text) names else names

/-- The fault of an end tag that closes nothing. -/
def Fault.isStrayEnd : Fault → Bool
  | voidEndTag _ => true
  | unexpectedEndTag _ => true
  | _ => false

/-- The faults of end tags that close nothing. -/
def strayEnds (issues : List Issue) : List Issue := issues.filter (·.fault.isStrayEnd)

@[simp] theorem strayEnds_append (issues more : List Issue) :
    strayEnds (issues ++ more) = strayEnds issues ++ strayEnds more :=
  List.filter_append issues more

@[simp] theorem strayEnds_singleton (issue : Issue) :
    strayEnds [issue] = if issue.fault.isStrayEnd then [issue] else [] := by
  simp [strayEnds, List.filter_singleton]

theorem strayEnds_eq_nil {issues : List Issue}
    (other : ∀ issue ∈ issues, issue.fault.isStrayEnd = false) : strayEnds issues = [] :=
  List.filter_eq_nil_iff.mpr fun issue member => by simp [other issue member]

/-- What is wrong with a piece of markup as an end tag, by the names that are open. -/
def Markup.strays : Markup → List (List Char) → List Issue
  | .tag .., _ => []
  | .single t, names =>
    let name := Builder.endTagName t.text
    if t.kind ≠ .tagClose then []
    else if name ∈ voidElements then [⟨.voidEndTag name, t.span⟩]
    else if name ∈ names then []
    else [⟨.unexpectedEndTag name, t.span⟩]

namespace Builder

variable {b : Builder} {cap : Option Nat} {t : Token TokenKind}

/-- The names of the elements on the stack, innermost first. -/
def names (b : Builder) : List (List Char) := b.tags.map StartTag.name

/-- The names of all open elements, flattened ones included, innermost first. -/
def openNames (b : Builder) : List (List Char) := b.flattened ++ b.names

theorem names_eq (b : Builder) : b.names = b.stack.map (·.tag.name) := by
  simp [names, tags]

@[simp] theorem openNames_append (b : Builder) (node : Node) :
    (b.append node).openNames = b.openNames := by
  simp [openNames, names]

/-- Elements are flattened only where no more may be open. -/
def Spilled (cap : Option Nat) (b : Builder) : Prop := b.flattened ≠ [] → b.isFull cap

theorem spilled_empty (cap : Option Nat) : Spilled cap .empty := fun some_ => absurd rfl some_

theorem Spilled.of_tags {b' : Builder} (spilled : Spilled cap b) (tags : b'.tags = b.tags)
    (names : b'.flattened ≠ [] → b.flattened ≠ []) : Spilled cap b' := by
  intro some_
  rw [isFull_of_tags tags]
  exact spilled (names some_)

/-- Without a cap no element is flattened. -/
theorem Spilled.flattened_none (spilled : Spilled none b) : b.flattened = [] := by
  by_contra some_
  cases spilled some_

/-- What is dropped from the stack by name is dropped from the names. -/
theorem drop_names (b : Builder) (p : List Char → Bool) :
    b.names.drop (b.stack.takeWhile fun e => p e.tag.name).length = b.names.dropWhile p := by
  have length : (b.stack.takeWhile fun e => p e.tag.name).length =
      (b.names.takeWhile p).length := by
    rw [names_eq, List.takeWhile_map, List.length_map]
    rfl
  rw [length, drop_length_takeWhile]

/-- A start tag ends the elements in front that it may, flattened or not. -/
theorem openNames_closeImplied (b : Builder) (incoming : List Char) :
    (b.closeImplied incoming).openNames = b.openNames.dropWhile (closedBy · incoming) := by
  simp only [closeImplied, openNames, List.dropWhile_append]
  split
  next none_ =>
    have left := drop_names b (closedBy · incoming)
    simp only [none_, List.isEmpty_nil, if_true, flattened_closeMany, List.nil_append]
    rw [names, tags_closeMany, List.map_drop]
    exact left
  next some_ =>
    have kept : (b.flattened.dropWhile (closedBy · incoming)).isEmpty = false := by
      simpa using some_
    rw [kept]
    rfl

theorem Spilled.closeImplied (spilled : Spilled cap b) (incoming : List Char) :
    Spilled cap (b.closeImplied incoming) := by
  intro more
  rcases tags_closeImplied b incoming with ⟨n, -, none_⟩ | ⟨same, some_⟩
  · exact absurd none_ more
  · rw [isFull_of_tags same]
    exact spilled some_

/-- **A start tag opens by names alone**, with a cap or without one. -/
theorem Spilled.openTag (spilled : Spilled cap b) (tag : StartTag) :
    Spilled cap (b.openTag cap tag).1 ∧
      (b.openTag cap tag).1.openNames = tag.opens b.openNames := by
  have closed := spilled.closeImplied tag.name
  have implied := openNames_closeImplied b tag.name
  simp only [Builder.openTag, StartTag.opens]
  generalize b.closeImplied tag.name = b' at closed implied
  split
  · refine ⟨closed.of_tags (tags_append _ _) (by simp), ?_⟩
    rw [openNames_append, implied]
  split
  next full =>
    have tags : Builder.tags { b'.append (.element tag [] none tag.span) with
        flattened := tag.name :: b'.flattened } = b'.tags := tags_append _ _
    constructor
    · intro _
      rwa [isFull_of_tags tags]
    · rw [← implied, openNames, names, tags]
      rfl
  next room =>
    have none_ : b'.flattened = [] := by
      by_contra some_
      exact room (closed some_)
    constructor
    · intro some_
      exact absurd none_ some_
    · rw [← implied, openNames, openNames, none_]
      rfl

/-- What is wrong with an end tag by itself. -/
def broken (t : Token TokenKind) : List Issue :=
  if t.text.getLast? = some '>' then [] else [⟨.unterminatedEndTag (endTagName t.text), t.span⟩]

/-- All that an end tag can do: it is one of a void element and does nothing; it ends a flattened
element with the flattened ones inside it; it ends an element on the stack with all that is open
inside that; or it names no open element and does nothing. -/
inductive Closing (b : Builder) (t : Token TokenKind) (name : List Char) :
    Builder × List Issue → Prop
  | void : name ∈ voidElements → Closing b t name (b, broken t ++ [⟨.voidEndTag name, t.span⟩])
  | flattened : name ∉ voidElements → name ∈ b.flattened → Closing b t name
      ({ b with flattened := (b.flattened.dropWhile (· != name)).drop 1 }, broken t)
  | element : name ∉ voidElements → name ∉ b.flattened → name ∈ b.names → Closing b t name
      ((closeMany (b.stack.takeWhile (·.tag.name != name)).length
          { b with flattened := [] }).closeTop (some t.span),
        broken t ++ missingEnds .notClosed (b.stack.takeWhile (·.tag.name != name)))
  | stray : name ∉ voidElements → name ∉ b.openNames →
      Closing b t name (b, broken t ++ [⟨.unexpectedEndTag name, t.span⟩])

theorem length_takeWhile_eq_iff {α : Type} {p : α → Bool} {xs : List α} :
    (xs.takeWhile p).length = xs.length ↔ ∀ x ∈ xs, p x := by
  rw [← List.takeWhile_eq_self_iff]
  constructor
  · exact (List.takeWhile_prefix p).eq_of_length
  · exact congrArg List.length

theorem closing (b : Builder) (t : Token TokenKind) :
    Closing b t (endTagName t.text) (b.close t) := by
  simp only [Builder.close, List.contains_iff_mem]
  split
  next void => exact .void void
  split
  next solid known => exact .flattened solid known
  have onStack : ((b.stack.takeWhile fun e => e.tag.name != endTagName t.text).length =
      b.stack.length) ↔ endTagName t.text ∉ b.names := by
    rw [length_takeWhile_eq_iff, names_eq]
    simp
  split
  next solid unknown none_ =>
    refine .stray solid ?_
    rw [openNames, List.mem_append, not_or]
    exact ⟨unknown, onStack.mp none_⟩
  next solid unknown some_ =>
    exact .element solid unknown (not_not.mp fun none_ => some_ (onStack.mpr none_))

/-- Dropping up to a name that a list holds leaves something of the list. -/
theorem dropWhile_ne_append {name : List Char} {front back : List (List Char)}
    (member : name ∈ front) : ((front ++ back).dropWhile (· != name)).drop 1 =
      (front.dropWhile (· != name)).drop 1 ++ back := by
  have some_ : front.dropWhile (· != name) ≠ [] := by
    intro none_
    have all := List.dropWhile_eq_nil_iff.mp none_ name member
    simp at all
  rw [List.dropWhile_append]
  cases left : front.dropWhile (· != name) with
  | nil => exact absurd left some_
  | cons first others => rfl

/-- **An end tag closes by names alone.** -/
theorem Spilled.close (spilled : Spilled cap b) (t : Token TokenKind) :
    Spilled cap (b.close t).1 ∧
      (b.close t).1.openNames = opensAfter (endTagName t.text) b.openNames := by
  have cases_ := closing b t
  generalize endTagName t.text = name at cases_ ⊢
  generalize b.close t = closed at cases_ ⊢
  unfold opensAfter
  cases cases_ with
  | void isVoid => exact ⟨spilled, (if_pos (.inl isVoid)).symm⟩
  | flattened solid known =>
      have member : name ∈ b.openNames := List.mem_append_left _ known
      rw [if_neg (not_or.mpr ⟨solid, not_not.mpr member⟩)]
      constructor
      · refine spilled.of_tags rfl ?_
        rintro - none_
        rw [none_] at known
        cases known
      · exact (dropWhile_ne_append known).symm
  | element solid unknown known =>
      have member : name ∈ b.openNames := List.mem_append_right _ known
      rw [if_neg (not_or.mpr ⟨solid, not_not.mpr member⟩)]
      have passed : b.flattened.dropWhile (· != name) = [] := by
        refine List.dropWhile_eq_nil_iff.mpr ?_
        intro other found
        simpa using fun same : other = name => unknown (same ▸ found)
      constructor
      · intro some_
        simp at some_
      · have left := drop_names b (· != name)
        simp only [openNames, flattened_closeTop, flattened_closeMany, List.nil_append, names,
          tags_closeTop, tags_closeMany, List.map_drop, List.dropWhile_append, passed,
          List.isEmpty_nil, if_true]
        exact congrArg (List.drop 1) left
  | stray solid unknown => exact ⟨spilled, (if_pos (.inr unknown)).symm⟩

theorem Spilled.takeIn (spilled : Spilled cap b) (t : Token TokenKind) :
    Spilled cap (b.takeIn t).1 ∧
      (b.takeIn t).1.openNames = (Markup.single t).opens b.openNames := by
  have appended : ∀ node : Node, Spilled cap (b.append node) ∧
      (b.append node).openNames = b.openNames := by
    intro node
    exact ⟨spilled.of_tags (tags_append _ _) (by simp), openNames_append b node⟩
  simp only [Builder.takeIn, Markup.opens]
  cases t.kind
  case tagClose => exact spilled.close t
  all_goals first | exact ⟨spilled, rfl⟩ | exact appended _

/-- **What a piece of markup does to the names**, with a cap or without one. -/
theorem Spilled.step (spilled : Spilled cap b) (piece : Markup) :
    Spilled cap (b.step cap piece).1 ∧
      (b.step cap piece).1.openNames = piece.opens b.openNames := by
  cases piece with
  | tag head parts close => exact spilled.openTag _
  | single t => exact spilled.takeIn t

theorem Spilled.run (spilled : Spilled cap b) (pieces : List Markup) :
    Spilled cap (b.run cap pieces).1 ∧
      (b.run cap pieces).1.openNames =
        pieces.foldl (fun names piece => piece.opens names) b.openNames := by
  induction pieces generalizing b with
  | nil => exact ⟨spilled, rfl⟩
  | cons piece pieces ih =>
      obtain ⟨kept, names⟩ := spilled.step piece
      rw [List.foldl_cons, ← names]
      exact ih kept

/-! ## End tags that close nothing -/

theorem strayEnds_missingEnds (fault : List Char → Fault)
    (other : ∀ name, (fault name).isStrayEnd = false) (ended : List OpenElement) :
    strayEnds (missingEnds fault ended) = [] := by
  apply strayEnds_eq_nil
  intro issue member
  obtain ⟨e, -, rfl⟩ := List.mem_map.mp member
  exact other e.tag.name

@[simp] theorem strayEnds_broken (t : Token TokenKind) : strayEnds (broken t) = [] := by
  unfold broken
  split <;> rfl

theorem strayEnds_close (b : Builder) (t : Token TokenKind) (kind : t.kind = .tagClose) :
    strayEnds (b.close t).2 = (Markup.single t).strays b.openNames := by
  have cases_ := closing b t
  simp only [Markup.strays, kind]
  generalize endTagName t.text = name at cases_ ⊢
  generalize b.close t = closed at cases_ ⊢
  cases cases_ with
  | void isVoid => simp [isVoid, Fault.isStrayEnd]
  | flattened solid known =>
      have member : name ∈ b.openNames := List.mem_append_left _ known
      simp [solid, member]
  | element solid unknown known =>
      have member : name ∈ b.openNames := List.mem_append_right _ known
      have others := strayEnds_missingEnds .notClosed (fun _ => rfl)
        (b.stack.takeWhile (·.tag.name != name))
      simp [solid, member, others]
  | stray solid unknown => simp [solid, unknown, Fault.isStrayEnd]

end Builder

/-- The faults that a start tag can have by itself. -/
def Fault.isOfTag : Fault → Bool
  | strayInTag _ _ => true
  | unterminatedValue _ => true
  | unterminatedStartTag _ => true
  | _ => false

theorem isOfTag_readParts (name : List Char) (parts : List (Token TokenKind)) :
    ∀ issue ∈ (readParts name parts).2, issue.fault.isOfTag := by
  have ofValue : ∀ (rawName raw : List Char) (p : Position),
      ∀ issue ∈ (Attribute.readValue rawName p raw).2.2, issue.fault.isOfTag := by
    intro rawName raw p issue member
    unfold Attribute.readValue at member
    split at member
    · cases member
    split at member
    · dsimp only at member
      split at member
      · cases member
      · rw [List.mem_singleton.mp member]
        rfl
    · cases member
  induction parts with
  | nil => simp [readParts]
  | cons t parts ih =>
      simp only [readParts]
      split
      · refine List.forall_mem_append.mpr ⟨?_, ih⟩
        simp only [Attribute.ofToken]
        split
        · exact ofValue _ _ _
        · simp
      · exact List.forall_mem_cons.mpr ⟨rfl, ih⟩
      · exact ih

theorem isOfTag_startTag (head : Token TokenKind) (parts : List (Token TokenKind))
    (close : Option (Token TokenKind)) :
    ∀ issue ∈ (StartTag.ofTokens head parts close).2, issue.fault.isOfTag := by
  have inside := isOfTag_readParts (lowerAscii (head.text.drop 1)) parts
  simp only [StartTag.ofTokens]
  split
  · exact List.forall_mem_append.mpr ⟨inside, List.forall_mem_singleton.mpr rfl⟩
  · exact inside

/-- What is wrong with a start tag is no end tag. -/
theorem strayEnds_startTag (head : Token TokenKind) (parts : List (Token TokenKind))
    (close : Option (Token TokenKind)) : strayEnds (StartTag.ofTokens head parts close).2 = [] := by
  apply strayEnds_eq_nil
  intro issue member
  have own := isOfTag_startTag head parts close issue member
  cases fault : issue.fault <;> simp [fault, Fault.isOfTag, Fault.isStrayEnd] at own ⊢

namespace Builder

variable {b : Builder} {cap : Option Nat}

theorem strayEnds_openTag (b : Builder) (cap : Option Nat) (tag : StartTag) :
    strayEnds (b.openTag cap tag).2 = [] := by
  simp only [openTag]
  split
  · rfl
  split
  · split <;> rfl
  · rfl

/-- **Which end tags close nothing** is a matter of names alone. -/
theorem strayEnds_step (b : Builder) (cap : Option Nat) (piece : Markup) :
    strayEnds (b.step cap piece).2 = piece.strays b.openNames := by
  cases piece with
  | tag head parts close =>
      show strayEnds ((StartTag.ofTokens head parts close).2 ++ (b.openTag cap _).2) = []
      rw [strayEnds_append, strayEnds_startTag, strayEnds_openTag, List.append_nil]
  | single t =>
      by_cases kind : t.kind = .tagClose
      · rw [← strayEnds_close b t kind]
        simp [step, takeIn, kind]
      · simp only [Markup.strays, if_pos kind, step, takeIn]
        split
        case h_3 => split <;> rfl
        case h_4 => split <;> rfl
        case h_8 kind' => exact absurd kind' kind
        all_goals rfl

/-- The end tags of a page that close nothing follow from the names that are open at the start. -/
theorem strayEnds_run {b' : Builder} {cap' : Option Nat} (spilled : Spilled cap b)
    (spilled' : Spilled cap' b') (same : b.openNames = b'.openNames) (pieces : List Markup) :
    strayEnds (b.run cap pieces).2 = strayEnds (b'.run cap' pieces).2 := by
  induction pieces generalizing b b' with
  | nil => rfl
  | cons piece pieces ih =>
      obtain ⟨kept, names⟩ := spilled.step piece
      obtain ⟨kept', names'⟩ := spilled'.step piece
      have next : (b.step cap piece).1.openNames = (b'.step cap' piece).1.openNames := by
        rw [names, names', same]
      simp only [run, strayEnds_append, strayEnds_step, same]
      rw [ih kept kept' next]

theorem strayEnds_finish (b : Builder) : strayEnds b.finish.2 = [] :=
  strayEnds_missingEnds .unclosed (fun _ => rfl) b.stack

/-! ## Where the cap is not reached -/

/-- A piece that leaves no more elements open than may be is taken in as without a cap. -/
theorem step_of_room {n : Nat} {piece : Markup}
    (room : (b.step none piece).1.stack.length ≤ n) :
    b.step (some n) piece = b.step none piece := by
  cases piece with
  | single t => rfl
  | tag head parts close =>
      have opened : b.openTag (some n) (StartTag.ofTokens head parts close).1 =
          b.openTag none (StartTag.ofTokens head parts close).1 := by
        simp only [step] at room
        revert room
        generalize (StartTag.ofTokens head parts close).1 = tag
        intro room
        simp only [openTag] at room ⊢
        split
        next whole => rfl
        next opens =>
          have full : (b.closeImplied tag.name).isFull (some n) = false := by
            simp only [opens, isFull, Option.any_none, Bool.false_eq_true, if_false,
              List.length_cons] at room
            simp only [isFull, Option.any_some, decide_eq_false_iff_not]
            omega
          rw [full]
          rfl
      simp only [step, opened]

/-- **A cap that is not reached changes nothing.** -/
theorem run_of_room {n : Nat} {pieces : List Markup}
    (room : ∀ done, done <+: pieces → (b.run none done).1.stack.length ≤ n) :
    b.run (some n) pieces = b.run none pieces := by
  induction pieces generalizing b with
  | nil => rfl
  | cons piece pieces ih =>
      have first := step_of_room (room [piece] ⟨pieces, rfl⟩)
      have others : (b.step none piece).1.run (some n) pieces =
          (b.step none piece).1.run none pieces := by
        apply ih
        intro done leads
        exact room (piece :: done) (List.cons_prefix_cons.mpr ⟨rfl, leads⟩)
      simp only [run, first, others]

end Builder

/-! ## How deep a tree is -/

mutual

/-- How many nodes lie on the longest way down from a node, itself included. -/
def Node.height : Node → Nat
  | .element _ children _ _ => heightIn children + 1
  | _ => 1

/-- How many nodes lie on the longest way down through some nodes. -/
def heightIn : List Node → Nat
  | [] => 0
  | node :: nodes => max node.height (heightIn nodes)

end

theorem heightIn_append (nodes more : List Node) :
    heightIn (nodes ++ more) = max (heightIn nodes) (heightIn more) := by
  induction nodes with
  | nil => simp [heightIn]
  | cons node nodes ih => simp [heightIn, ih, max_assoc]

@[simp] theorem heightIn_reverse (nodes : List Node) : heightIn nodes.reverse = heightIn nodes := by
  induction nodes with
  | nil => rfl
  | cons node nodes ih => simp [heightIn, heightIn_append, ih, max_comm]

/-- The content of every open element reaches no deeper than a limit below the page. -/
def Within (limit : Nat) : List OpenElement → Prop
  | [] => True
  | e :: outer => heightIn e.children + outer.length + 1 ≤ limit ∧ Within limit outer

namespace Builder

variable {b : Builder} {n : Nat} {node : Node}

/-- No more than `n` elements are open, and nothing lies deeper than one below them. -/
structure Shallow (n : Nat) (b : Builder) : Prop where
  stack : b.stack.length ≤ n
  inside : Within (n + 1) b.stack
  top : heightIn b.top ≤ n + 1

theorem shallow_empty (n : Nat) : Shallow n .empty := ⟨Nat.zero_le n, trivial, Nat.zero_le _⟩

theorem Shallow.append (shallow : Shallow n b) (fits : node.height + b.stack.length ≤ n + 1) :
    Shallow n (b.append node) := by
  obtain ⟨stack, top, flattened⟩ := b
  obtain ⟨few, inside, high⟩ := shallow
  cases stack with
  | nil => exact ⟨few, trivial, max_le fits high⟩
  | cons e outer =>
      obtain ⟨content, below⟩ := inside
      refine ⟨few, ⟨?_, below⟩, high⟩
      simp only [List.length_cons] at fits
      simp only [heightIn]
      omega

theorem Shallow.closeTop (shallow : Shallow n b) (endTag : Option Span) :
    Shallow n (b.closeTop endTag) := by
  obtain ⟨stack, top, flattened⟩ := b
  obtain ⟨few, inside, high⟩ := shallow
  cases stack with
  | nil => exact ⟨few, inside, high⟩
  | cons e outer =>
      obtain ⟨content, below⟩ := inside
      have outside : Shallow n ⟨outer, top, flattened⟩ := ⟨Nat.le_of_succ_le few, below, high⟩
      refine outside.append ?_
      simp only [OpenElement.close, Node.height, heightIn_reverse]
      omega

theorem Shallow.flatten (shallow : Shallow n b) (names : List (List Char)) :
    Shallow n { b with flattened := names } := ⟨shallow.stack, shallow.inside, shallow.top⟩

theorem Shallow.closeMany (shallow : Shallow n b) (k : Nat) : Shallow n (closeMany k b) :=
  closeMany_keeps (fun _ shallow => shallow.closeTop none) shallow k

theorem Shallow.closeImplied (shallow : Shallow n b) (incoming : List Char) :
    Shallow n (b.closeImplied incoming) :=
  closeImplied_keeps (fun _ shallow => shallow.closeTop none)
    (fun _ names shallow => shallow.flatten names) shallow incoming

/-- A node without content fits wherever the reading stands. -/
theorem Shallow.leaf (shallow : Shallow n b) (low : node.height = 1) :
    Shallow n (b.append node) := by
  have := shallow.stack
  exact shallow.append (by omega)

theorem Shallow.openTag (shallow : Shallow n b) (tag : StartTag) :
    Shallow n (b.openTag (some n) tag).1 := by
  have implied := shallow.closeImplied tag.name
  simp only [Builder.openTag]
  split
  · exact implied.leaf rfl
  split
  · exact (implied.leaf rfl).flatten _
  next room =>
    simp only [isFull, Option.any_some, decide_eq_true_eq, not_le] at room
    refine ⟨room, ⟨?_, implied.inside⟩, implied.top⟩
    simp only [heightIn]
    omega

theorem Shallow.close (shallow : Shallow n b) (t : Token TokenKind) : Shallow n (b.close t).1 := by
  have cases_ := closing b t
  generalize b.close t = closed at cases_ ⊢
  cases cases_ with
  | void _ => exact shallow
  | flattened _ _ => exact shallow.flatten _
  | element _ _ _ => exact ((shallow.flatten []).closeMany _).closeTop _
  | stray _ _ => exact shallow

theorem Shallow.step (shallow : Shallow n b) (piece : Markup) :
    Shallow n (b.step (some n) piece).1 := by
  cases piece with
  | tag head parts close => exact shallow.openTag _
  | single t =>
      simp only [Builder.step, Builder.takeIn]
      split
      case h_8 => exact shallow.close t
      all_goals
        first
          | exact shallow
          | exact shallow.leaf rfl

theorem Shallow.run (shallow : Shallow n b) (pieces : List Markup) :
    Shallow n (b.run (some n) pieces).1 := by
  induction pieces generalizing b with
  | nil => exact shallow
  | cons piece pieces ih => exact ih (shallow.step piece)

end Builder

/-! ## Pages -/

theorem heightIn_buildTree (n : Nat) (ts : List (Token TokenKind)) :
    heightIn (buildTree (some n) ts).1 ≤ n + 1 := by
  have run := (Builder.shallow_empty n).run (Markup.ofTokens ts)
  rw [buildTree, heightIn_reverse]
  exact (run.closeMany _).top

theorem buildTree_of_room {n : Nat} {ts : List (Token TokenKind)}
    (room : ∀ done, done <+: Markup.ofTokens ts →
      (Builder.empty.run none done).1.stack.length ≤ n) :
    buildTree (some n) ts = buildTree none ts := by
  rw [buildTree, buildTree, Builder.run_of_room room]

/-- **The cap on nesting shows in nothing but the depth of the tree.** After every piece of
markup, the flattened elements and those on the stack bear the names of the elements that are
open without a cap. So the same end tags close nothing; a page that never has more elements
open than the cap is built as without one; and no node lies deeper than one below the cap. -/
theorem cap_simulates (cs : List Char) :
    (∀ done, done <+: Markup.ofTokens (tokenize cs) →
      (Builder.empty.run (some depthCap) done).1.flattened ++
          (Builder.empty.run (some depthCap) done).1.stack.map (·.tag.name) =
        (Builder.empty.run none done).1.stack.map (·.tag.name)) ∧
      strayEnds (buildTree (some depthCap) (tokenize cs)).2 =
        strayEnds (buildTree none (tokenize cs)).2 ∧
      ((∀ done, done <+: Markup.ofTokens (tokenize cs) →
          (Builder.empty.run none done).1.stack.length ≤ depthCap) →
        buildTree (some depthCap) (tokenize cs) = buildTree none (tokenize cs)) ∧
      heightIn (Page.ofText cs).root.children ≤ depthCap + 1 := by
  refine ⟨?_, ?_, buildTree_of_room, heightIn_buildTree depthCap (tokenize cs)⟩
  · intro done _
    obtain ⟨-, capped⟩ := (Builder.spilled_empty (some depthCap)).run done
    obtain ⟨spilled, free⟩ := (Builder.spilled_empty none).run done
    rw [← Builder.names_eq, ← Builder.names_eq]
    calc (Builder.empty.run (some depthCap) done).1.openNames
        = (Builder.empty.run none done).1.openNames := capped.trans free.symm
      _ = (Builder.empty.run none done).1.names := by
        rw [Builder.openNames, spilled.flattened_none, List.nil_append]
  · have run := Builder.strayEnds_run (Builder.spilled_empty (some depthCap))
      (Builder.spilled_empty none) rfl (Markup.ofTokens (tokenize cs))
    simp only [buildTree, strayEnds_append, Builder.strayEnds_finish, run]

/-- A list with one item inside another one stays under the cap. -/
theorem cap_simulates_list :
    (∀ done, done <+: Markup.ofTokens (tokenize "<ul><li>a<li><b>b</ul>".toList) →
      (Builder.empty.run none done).1.stack.length ≤ depthCap) ∧
    buildTree (some depthCap) (tokenize "<ul><li>a<li><b>b</ul>".toList) =
      buildTree none (tokenize "<ul><li>a<li><b>b</ul>".toList) := by
  have room : ∀ done, done <+: Markup.ofTokens (tokenize "<ul><li>a<li><b>b</ul>".toList) →
      (Builder.empty.run none done).1.stack.length ≤ depthCap := by
    have each : ∀ done ∈ (Markup.ofTokens (tokenize "<ul><li>a<li><b>b</ul>".toList)).inits,
        (Builder.empty.run none done).1.stack.length ≤ depthCap := by decide +kernel
    exact fun done leads => each done ((List.mem_inits done _).mpr leads)
  exact ⟨room, (cap_simulates _).2.2.1 room⟩

end PageLint.Html
