/-
# PageLint.Proofs.Html.Implied — elements that end without their end tag

An element that lacks its end tag stays open, with what is open inside it. That does not show while
nothing comes but white space and tags that do nothing (`isQuiet`), and all of it ends in the right place
after all if what comes then is a start tag that ends it, the end tag of an element around it, or the end
of the page (`Implied`). So a builder in which such an element is open, and the same builder where it has
ended, build the same of the rest of the page, and the first finds no fault that the second does not
find, but for those of the elements inside (`mends_implied`).
-/
import PageLint.Proofs.Html.Ends
import PageLint.Proofs.Html.Likeness

namespace PageLint.Html

set_option autoImplicit false

open Text

/-! ## What comes after an element -/

/-- What adds nothing but white space where elements of these names are open: white space, markup of
no use, and end tags that end none of them. -/
def isQuiet (names : List (List Char)) (t : Token TokenKind) : Bool :=
  match t.kind with
  | .byteOrderMark | .attr | .tagEnd | .selfClosingTagEnd | .unknown => true
  | .text | .blank | .rawText | .cdata => t.text.all isBlank
  | .tagClose =>
    voidElements.contains (Builder.endTagName t.text) || !names.contains (Builder.endTagName t.text)
  | .tagOpen | .doctype | .comment => false

/-- The names behind the first one of this name. -/
def namesAfter (name : List Char) (names : List (List Char)) : List (List Char) :=
  (names.dropWhile (· != name)).drop 1

theorem forall_other {name : List Char} {front : List (List Char)} (new : name ∉ front) :
    ∀ n ∈ front, (n != name) = true := by
  intro n member
  simpa using fun same : n = name => new (same ▸ member)

theorem takeWhile_other {name : List Char} {front : List (List Char)} (new : name ∉ front)
    (rest : List (List Char)) : (front ++ name :: rest).takeWhile (· != name) = front := by
  rw [List.takeWhile_append_of_pos (forall_other new), List.takeWhile_cons_of_neg (by simp),
    List.append_nil]

theorem namesAfter_append {name : List Char} {front : List (List Char)} (new : name ∉ front)
    (rest : List (List Char)) : namesAfter name (front ++ name :: rest) = rest := by
  rw [namesAfter, List.dropWhile_append_of_pos (forall_other new),
    List.dropWhile_cons_of_neg (by simp)]
  rfl

/-- The tokens end an element of this name, and the elements of other names that are open inside it,
before anything is put into them. All names are innermost first. -/
inductive Implied (name : List Char) (around : List (List Char)) :
    List (List Char) → List (Token TokenKind) → Prop
  | finish {inside : List (List Char)} : (∀ inner ∈ inside, inner ∈ optionalEndTag) →
    Implied name around inside []
  | quiet {inside : List (List Char)} {t : Token TokenKind} {ts : List (Token TokenKind)} :
    isQuiet (inside ++ name :: around) t → Implied name around inside ts →
      Implied name around inside (t :: ts)
  | start {inside : List (List Char)} {t : Token TokenKind} {ts : List (Token TokenKind)} :
    t.kind = .tagOpen → (∀ inner ∈ inside, closedBy inner (lowerAscii (t.text.drop 1))) →
      closedBy name (lowerAscii (t.text.drop 1)) → Implied name around inside (t :: ts)
  | inner {inside : List (List Char)} {t : Token TokenKind} {ts : List (Token TokenKind)} :
    t.kind = .tagClose → Builder.endTagName t.text ∉ voidElements →
      Builder.endTagName t.text ∈ inside → Builder.endTagName t.text ∉ around →
        Implied name around (namesAfter (Builder.endTagName t.text) inside) ts →
          Implied name around inside (t :: ts)
  | outer {inside : List (List Char)} {t : Token TokenKind} {ts : List (Token TokenKind)} :
    t.kind = .tagClose → Builder.endTagName t.text ∉ voidElements →
      Builder.endTagName t.text ∉ inside → Builder.endTagName t.text ≠ name →
        Builder.endTagName t.text ∈ around → Implied name around inside (t :: ts)
  | own {inside : List (List Char)} {t : Token TokenKind} {ts : List (Token TokenKind)} :
    t.kind = .tagClose → Builder.endTagName t.text = name → name ∉ around →
      Implied name around inside (t :: ts)

/-- An element that may go without its end tag may have one. -/
theorem solid_of_optional {name : List Char} (optional : name ∈ optionalEndTag) :
    name ∉ voidElements := by
  have all : ∀ name ∈ optionalEndTag, name ∉ voidElements := by decide
  exact all name optional

namespace Builder

variable {b b' : Builder} {cap : Option Nat} {t : Token TokenKind} {ts : List (Token TokenKind)}
  {name : List Char} {around inside : List (List Char)}

/-! ## End tags by what they do -/

theorem close_void (void : endTagName t.text ∈ voidElements) :
    b.close t = (b, broken t ++ [⟨.voidEndTag (endTagName t.text), t.span⟩]) := by
  have cases_ := closing b t
  generalize b.close t = closed at cases_ ⊢
  cases cases_ with
  | void _ => rfl
  | flattened solid _ => exact absurd void solid
  | element solid _ _ => exact absurd void solid
  | stray solid _ => exact absurd void solid

theorem close_stray (solid : endTagName t.text ∉ voidElements)
    (unknown : endTagName t.text ∉ b.openNames) :
    b.close t = (b, broken t ++ [⟨.unexpectedEndTag (endTagName t.text), t.span⟩]) := by
  have cases_ := closing b t
  generalize b.close t = closed at cases_ ⊢
  cases cases_ with
  | void void => exact absurd void solid
  | flattened _ known => exact absurd (List.mem_append_left _ known) unknown
  | element _ _ known => exact absurd (List.mem_append_right _ known) unknown
  | stray _ _ => rfl

/-! ## Elements by their names -/

/-- The faults of elements of these names that end without an end tag. -/
def owing (fault : List Char → Fault) (names : List (List Char)) : List Fault :=
  (names.filter fun name => !optionalEndTag.contains name).map fault

theorem owing_append (fault : List Char → Fault) (names more : List (List Char)) :
    owing fault (names ++ more) = owing fault names ++ owing fault more := by
  rw [owing, List.filter_append, List.map_append, owing, owing]

/-- No fault tells of an element that may go without its end tag. -/
theorem owing_cons (fault : List Char → Fault) (optional : name ∈ optionalEndTag)
    (names : List (List Char)) : owing fault (name :: names) = owing fault names := by
  rw [owing, List.filter_cons_of_neg (by simp [optional]), owing]

theorem owing_of_optional (fault : List Char → Fault) {names : List (List Char)}
    (optional : ∀ name ∈ names, name ∈ optionalEndTag) : owing fault names = [] := by
  rw [owing, List.filter_eq_nil_iff.mpr (by simpa using optional), List.map_nil]

theorem faults_missingEnds_eq (fault : List Char → Fault) (ended : List OpenElement) :
    faults (missingEnds fault ended) = owing fault (ended.map (·.tag.name)) := by
  rw [missingEnds, faults, owing, List.map_map, List.filter_map, List.map_map]
  rfl

theorem names_takeWhile (b : Builder) (p : List Char → Bool) :
    (b.stack.takeWhile fun e => p e.tag.name).map (·.tag.name) = b.names.takeWhile p := by
  rw [names_eq, List.takeWhile_map]
  rfl

theorem length_names_takeWhile (b : Builder) (p : List Char → Bool) :
    (b.stack.takeWhile fun e => p e.tag.name).length = (b.names.takeWhile p).length := by
  rw [← names_takeWhile, List.length_map]

@[simp] theorem names_closeMany (n : Nat) (b : Builder) : (closeMany n b).names = b.names.drop n := by
  rw [names, tags_closeMany, List.map_drop, names]

@[simp] theorem names_closeTop (b : Builder) (endTag : Option Span) :
    (b.closeTop endTag).names = b.names.drop 1 := by
  rw [names, tags_closeTop, List.map_drop, names]

theorem closeMany_add (m n : Nat) (b : Builder) :
    closeMany (m + n) b = closeMany n (closeMany m b) := by
  induction m generalizing b with
  | zero => rw [Nat.zero_add, closeMany]
  | succ m ih => rw [Nat.succ_add, closeMany, ih, closeMany]

/-- What is left of the tree does not tell how an element ended. -/
theorem bare_closeMany_closeTop (n : Nat) (b : Builder) (endTag : Option Span) :
    ((closeMany n b).closeTop endTag).bare = (closeMany (n + 1) b).bare := by
  rw [closeMany_add, closeMany, closeMany, bare_closeTop, bare_closeTop]

theorem closeImplied_of_flattened (none_ : b.flattened = []) (incoming : List Char) :
    b.closeImplied incoming = closeMany (b.names.takeWhile (closedBy · incoming)).length b := by
  rw [← length_names_takeWhile]
  obtain ⟨stack, top, flattened⟩ := b
  obtain rfl : flattened = [] := none_
  rfl

/-- An end tag of an open element ends it and all that is open inside. -/
theorem close_known (solid : endTagName t.text ∉ voidElements) (none_ : b.flattened = [])
    (known : endTagName t.text ∈ b.names) : ∃ issues, b.close t =
      ((closeMany (b.names.takeWhile (· != endTagName t.text)).length b).closeTop (some t.span),
        issues) ∧ faults issues = faults (broken t) ++
          owing .notClosed (b.names.takeWhile (· != endTagName t.text)) := by
  have inner := names_takeWhile b (· != endTagName t.text)
  have length := length_names_takeWhile b (· != endTagName t.text)
  obtain ⟨stack, top, flattened⟩ := b
  obtain rfl : flattened = [] := none_
  have cases_ := closing ⟨stack, top, []⟩ t
  generalize close ⟨stack, top, []⟩ t = closed at cases_ ⊢
  cases cases_ with
  | void void => exact absurd void solid
  | flattened _ known => cases known
  | element _ _ _ =>
      refine ⟨_, by rw [← length], ?_⟩
      rw [faults_append, faults_missingEnds_eq, inner]
  | stray _ unknown => exact absurd (List.mem_append_right _ known) unknown

theorem finish_eq (b : Builder) : b.finish.1 = closeMany b.names.length b ∧
    faults b.finish.2 = owing .unclosed b.names := by
  constructor
  · rw [finish, names_eq, List.length_map]
  · rw [finish, faults_missingEnds_eq, names_eq]

/-! ## Quiet tokens -/

/-- A token adds white space at most, and finds the same faults, whatever the builder, as long as no
elements of other names are open. -/
structure Idle (names : List (List Char)) (t : Token TokenKind) (added : Option Node)
    (issues : List Issue) : Prop where
  blank : ∀ node ∈ added, node.isBlank
  takeIn : ∀ b : Builder, b.flattened = [] → b.names ⊆ names →
    b.takeIn t = (added.elim b b.append, issues)

/-- **What is quiet is idle.** -/
theorem idle_of_isQuiet {names : List (List Char)} (quiet : isQuiet names t) :
    ∃ added issues, Idle names t added issues := by
  have text : ∀ raw, t.text.all isBlank → ∀ node ∈ some (Node.text ⟨t.text, raw, t.span⟩),
      node.isBlank := by
    rintro raw blank node ⟨⟩
    exact blank
  simp only [isQuiet] at quiet
  cases kind : t.kind <;> simp only [kind] at quiet
  case byteOrderMark => exact ⟨none, [], by simp, fun b _ _ => by simp only [Builder.takeIn, kind]; rfl⟩
  case tagClose =>
    by_cases void : endTagName t.text ∈ voidElements
    · refine ⟨none, broken t ++ [⟨.voidEndTag (endTagName t.text), t.span⟩], by simp,
        fun b _ _ => ?_⟩
      simp only [Builder.takeIn, kind]
      exact close_void void
    · have unknown : endTagName t.text ∉ names := by simpa [void] using quiet
      refine ⟨none, broken t ++ [⟨.unexpectedEndTag (endTagName t.text), t.span⟩], by simp,
        fun b none_ inside => ?_⟩
      simp only [Builder.takeIn, kind]
      refine close_stray void ?_
      rw [openNames, none_, List.nil_append]
      exact fun known => unknown (inside known)
  case text | blank =>
    exact ⟨_, [], text false quiet, fun b _ _ => by simp only [Builder.takeIn, kind]; rfl⟩
  case rawText =>
    exact ⟨_, [], text true quiet, fun b _ _ => by simp only [Builder.takeIn, kind]; rfl⟩
  case cdata =>
    exact ⟨_, _, text true quiet, fun b _ _ => by simp only [Builder.takeIn, kind]; rfl⟩
  case attr | tagEnd | selfClosingTagEnd | unknown =>
    exact ⟨none, _, by simp, fun b _ _ => by simp only [Builder.takeIn, kind]; rfl⟩
  all_goals cases quiet

/-- What is idle leaves the elements that are open, and leaves no trace. -/
theorem bare_idle {names : List (List Char)} {added : Option Node} {issues : List Issue}
    (idle : Idle names t added issues) (b : Builder) :
    (added.elim b b.append).bare = b.bare ∧ (added.elim b b.append).tags = b.tags := by
  cases added with
  | none => exact ⟨rfl, rfl⟩
  | some node => exact ⟨bare_append_blank b (idle.blank node rfl), tags_append b node⟩

/-! ## The rest of the page -/

/-- What a builder makes of pieces and the end of the page. -/
def build (cap : Option Nat) (b : Builder) (pieces : List Markup) : Builder × List Issue :=
  ((b.run cap pieces).1.finish.1, (b.run cap pieces).2 ++ (b.run cap pieces).1.finish.2)

theorem build_cons (b : Builder) (piece : Markup) (pieces : List Markup) :
    b.build cap (piece :: pieces) = (((b.step cap piece).1.build cap pieces).1,
      (b.step cap piece).2 ++ ((b.step cap piece).1.build cap pieces).2) := by
  simp only [build, run, List.append_assoc]

theorem Agree.trans {r r' r'' : Builder × List Issue} (first : Agree r r') (second : Agree r' r'') :
    Agree r r'' := ⟨second.1.trans first.1, second.2.trans first.2⟩

theorem build_nil (b : Builder) : b.build cap [] = b.finish := rfl

theorem build_alike (cap : Option Nat) (same : b'.bare = b.bare) {pieces pieces' : List Markup}
    (alike : List.Forall₂ Markup.Alike pieces pieces') :
    Agree (b.build cap pieces) (b'.build cap pieces') := by
  obtain ⟨held, told⟩ := run_alike cap same alike
  obtain ⟨held', told'⟩ := finish_alike held
  exact ⟨held', by simp only [build, faults_append, told, told']⟩

/-- The same pieces in particular. -/
theorem build_same (cap : Option Nat) (same : b'.bare = b.bare) (pieces : List Markup) :
    Agree (b.build cap pieces) (b'.build cap pieces) :=
  build_alike cap same (List.forall₂_same.mpr fun piece _ => .refl piece)

/-- The second of two results has the same tree, and no fault more often than it is among these and in
the first. -/
structure Mends (told : List Fault) (r r' : Builder × List Issue) : Prop where
  tree : r'.1.bare = r.1.bare
  faults (fault : Fault) : (faults r'.2).count fault ≤ told.count fault + (faults r.2).count fault

theorem Agree.mends {r r' : Builder × List Issue} (agree : Agree r r') (told : List Fault) :
    Mends told r r' :=
  ⟨agree.1, fun fault => by rw [agree.2]; exact Nat.le_add_left _ _⟩

theorem Mends.trans {told : List Fault} {r r' r'' : Builder × List Issue} (mends : Mends told r' r'')
    (first : Agree r r') : Mends told r r'' :=
  ⟨mends.tree.trans first.1, fun fault => first.2 ▸ mends.faults fault⟩

/-- The same faults come first in both. -/
theorem Mends.after {told : List Fault} {r r' : Builder × List Issue} (mends : Mends told r r')
    {issues issues' : List Issue} (same : Html.faults issues' = Html.faults issues) :
    Mends told (r.1, issues ++ r.2) (r'.1, issues' ++ r'.2) where
  tree := mends.tree
  faults fault := by
    have rest := mends.faults fault
    simp only [faults_append, List.count_append, same]
    omega

/-! ## An element that is left open -/

/-- An element of this name is open, with elements of the names inside, innermost first, in those of the
names around. -/
structure LeftOpen (name : List Char) (around inside : List (List Char)) (b : Builder) : Prop where
  names : b.names = inside ++ name :: around
  flattened : b.flattened = []

/-- The builder in which the element, and all that is open inside it, has ended. -/
def ended (inside : List (List Char)) (b : Builder) : Builder := closeMany (inside.length + 1) b

theorem ended_alike (same : b'.bare = b.bare) (inside : List (List Char)) :
    (b'.ended inside).bare = (b.ended inside).bare := closeMany_alike same _

section LeftOpen

variable (open_ : LeftOpen name around inside b)
include open_

theorem names_ended : (b.ended inside).names = around := by
  rw [ended, names_closeMany, open_.names, List.drop_append]
  simp

theorem flattened_ended : (b.ended inside).flattened = [] := by
  rw [ended, flattened_closeMany, open_.flattened]

/-- What ends them all and more ends them first. -/
theorem closeMany_ended (p : List Char → Bool) (inner : ∀ n ∈ inside, p n) (ends : p name) :
    closeMany (b.names.takeWhile p).length b =
      closeMany (around.takeWhile p).length (b.ended inside) := by
  rw [ended, ← closeMany_add, open_.names, List.takeWhile_append_of_pos inner,
    List.takeWhile_cons_of_pos ends, List.length_append, List.length_cons]
  congr 1
  omega

/-- The end of the page ends them, and finds no fault with elements that may go without end tags. -/
theorem mends_finish (optional : name ∈ optionalEndTag) (inner : ∀ n ∈ inside, n ∈ optionalEndTag)
    (told : List Fault) : Mends told (b.ended inside).finish b.finish := by
  obtain ⟨tree, faults⟩ := finish_eq b
  obtain ⟨tree', faults'⟩ := finish_eq (b.ended inside)
  constructor
  · have length : b.names.length = inside.length + 1 + around.length := by
      rw [open_.names, List.length_append, List.length_cons]
      omega
    rw [tree, tree', names_ended open_, length, closeMany_add, ended]
  · intro fault
    rw [faults, faults', names_ended open_, open_.names, owing_append,
      owing_of_optional .unclosed inner, owing_cons .unclosed optional]
    exact Nat.le_add_left _ _

/-- What is quiet keeps them open, and tells nothing of them. -/
theorem takeIn_quiet_ended (quiet : isQuiet (inside ++ name :: around) t) : ∃ b₁ b₂ issues,
    b.takeIn t = (b₁, issues) ∧ (b.ended inside).takeIn t = (b₂, issues) ∧
      LeftOpen name around inside b₁ ∧ (b₁.ended inside).bare = b₂.bare := by
  obtain ⟨added, issues, idle⟩ := idle_of_isQuiet quiet
  have known : (b.ended inside).names ⊆ inside ++ name :: around := by
    rw [names_ended open_]
    exact fun n member => List.mem_append_right _ (List.mem_cons_of_mem _ member)
  obtain ⟨same, tags⟩ := bare_idle idle b
  obtain ⟨same', -⟩ := bare_idle idle (b.ended inside)
  refine ⟨_, _, issues, idle.takeIn b open_.flattened (open_.names ▸ List.Subset.refl _),
    idle.takeIn _ (flattened_ended open_) known, ⟨?_, ?_⟩, (ended_alike same inside).trans same'.symm⟩
  · rw [names, tags]
    exact open_.names
  · exact (flattened_alike same).trans open_.flattened

/-- A start tag that ends them all does the same where they have ended. -/
theorem step_tag_ended (cap : Option Nat) {head : Token TokenKind}
    (inner : ∀ n ∈ inside, closedBy n (lowerAscii (head.text.drop 1)))
    (ends : closedBy name (lowerAscii (head.text.drop 1))) (parts : List (Token TokenKind))
    (close : Option (Token TokenKind)) :
    b.step cap (.tag head parts close) = (b.ended inside).step cap (.tag head parts close) := by
  have implied : b.closeImplied (lowerAscii (head.text.drop 1)) =
      (b.ended inside).closeImplied (lowerAscii (head.text.drop 1)) := by
    rw [closeImplied_of_flattened open_.flattened, closeImplied_of_flattened (flattened_ended open_),
      names_ended open_]
    exact closeMany_ended open_ _ inner ends
  have own : (StartTag.ofTokens head parts close).1.name = lowerAscii (head.text.drop 1) := rfl
  simp only [step, openTag, own, implied]

/-- The end tag of one inside ends it and what is open in it, and is stray where they all have ended. -/
theorem close_inner (solid : endTagName t.text ∉ voidElements) (known : endTagName t.text ∈ inside)
    (unknown : endTagName t.text ∉ around) : ∃ b₁ issues issues', b.close t = (b₁, issues) ∧
      (b.ended inside).close t = (b.ended inside, issues') ∧
      LeftOpen name around (namesAfter (endTagName t.text) inside) b₁ ∧
      (b₁.ended (namesAfter (endTagName t.text) inside)).bare = (b.ended inside).bare ∧
      ∀ fault, (faults issues).count fault +
        (owing .notClosed (namesAfter (endTagName t.text) inside)).count fault ≤
          (owing .notClosed inside).count fault + (faults issues').count fault := by
  obtain ⟨front, rest, rfl, new⟩ := List.eq_append_cons_of_mem known
  have inner : b.names.takeWhile (· != endTagName t.text) = front := by
    rw [open_.names, List.append_assoc, List.cons_append, takeWhile_other new]
  obtain ⟨issues, closed, told⟩ := close_known solid open_.flattened
    (open_.names ▸ List.mem_append_left _ known)
  rw [inner] at closed told
  rw [namesAfter_append new]
  refine ⟨_, issues, _, closed, close_stray solid ?_, ⟨?_, ?_⟩, ?_, fun fault => ?_⟩
  · rw [openNames, flattened_ended open_, names_ended open_]
    exact unknown
  · rw [names_closeTop, names_closeMany, open_.names, List.append_assoc, List.drop_left]
    rfl
  · rw [flattened_closeTop, flattened_closeMany, open_.flattened]
  · have length : (front ++ endTagName t.text :: rest).length + 1 =
        (front.length + 1) + (rest.length + 1) := by
      rw [List.length_append, List.length_cons, Nat.add_right_comm front.length 1, Nat.add_assoc]
    rw [ended, ended, length, closeMany_add (front.length + 1)]
    exact closeMany_alike (bare_closeMany_closeTop _ _ _) _
  · rw [List.append_cons, owing_append, owing_append]
    simp only [faults_append, told, List.count_append]
    omega

/-- The end tag of one around ends them first. -/
theorem close_outer (optional : name ∈ optionalEndTag) (solid : endTagName t.text ∉ voidElements)
    (unknown : endTagName t.text ∉ inside) (other : endTagName t.text ≠ name)
    (known : endTagName t.text ∈ around) : ∃ b₁ issues issues', b.close t = (b₁, issues) ∧
      (b.ended inside).close t = (b₁, issues') ∧
      ∀ fault, (faults issues).count fault =
        (owing .notClosed inside).count fault + (faults issues').count fault := by
  have ends : (name != endTagName t.text) = true := by simpa using other.symm
  have known' : endTagName t.text ∈ b.names := by
    rw [open_.names]
    exact List.mem_append_right _ (List.mem_cons_of_mem _ known)
  obtain ⟨issues, closed, told⟩ := close_known solid open_.flattened known'
  obtain ⟨issues', closed', told'⟩ := close_known solid (flattened_ended open_)
    (names_ended open_ ▸ known)
  rw [names_ended open_] at closed' told'
  rw [closeMany_ended open_ _ (forall_other unknown) ends] at closed
  refine ⟨_, issues, issues', closed, closed', fun fault => ?_⟩
  have passed : (name :: around).takeWhile (· != endTagName t.text) = name :: _ :=
    List.takeWhile_cons_of_pos ends
  rw [told, told', open_.names, List.takeWhile_append_of_pos (forall_other unknown), passed,
    owing_append, owing_cons .notClosed optional]
  simp only [List.count_append]
  omega

/-- Its own end tag ends it, and is stray where it has ended, unless one around has its name. -/
theorem close_own (optional : name ∈ optionalEndTag) (apart : name ∉ inside)
    (named : endTagName t.text = name) (unknown : name ∉ around) : ∃ issues,
      b.close t = ((closeMany inside.length b).closeTop (some t.span), issues) ∧
      faults issues = faults (broken t) ++ owing .notClosed inside ∧
      (b.ended inside).close t =
        (b.ended inside, broken t ++ [⟨.unexpectedEndTag name, t.span⟩]) := by
  have solid : endTagName t.text ∉ voidElements := named ▸ solid_of_optional optional
  have inner : b.names.takeWhile (· != endTagName t.text) = inside := by
    rw [open_.names, ← named, takeWhile_other (named ▸ apart)]
  obtain ⟨issues, closed, told⟩ := close_known (b := b) solid open_.flattened
    (by simp [open_.names, named])
  rw [inner] at closed told
  have stray : endTagName t.text ∉ (b.ended inside).openNames := by
    rw [openNames, flattened_ended open_, names_ended open_, named]
    exact unknown
  exact ⟨issues, closed, told, named ▸ close_stray solid stray⟩

end LeftOpen

/-- **An element that ends by implication may end before**: to leave out its end tag does not change the
tree, and adds no fault but those of the elements that are open inside it. -/
theorem mends_implied (cap : Option Nat) (implied : Implied name around inside ts)
    (optional : name ∈ optionalEndTag) (apart : name ∉ inside)
    (open_ : LeftOpen name around inside b) :
    Mends (owing .notClosed inside) ((b.ended inside).build cap (Markup.ofTokens ts))
      (b.build cap (Markup.ofTokens ts)) := by
  induction implied generalizing b with
  | finish inner =>
      rw [Markup.ofTokens, build_nil, build_nil]
      exact mends_finish open_ optional inner _
  | @quiet inside t ts quiet _ ih =>
      obtain ⟨b₁, b₂, issues, taken, taken', open₁, same⟩ := takeIn_quiet_ended open_ quiet
      have opens : t.kind ≠ .tagOpen := by
        intro opens
        simp [isQuiet, opens] at quiet
      rw [ofTokens_single opens, build_cons, build_cons]
      simp only [step, taken, taken']
      exact ((ih apart open₁).trans (build_same cap same _)).after rfl
  | @start inside t ts opens inner ends =>
      obtain ⟨parts, close, rest, whole⟩ := Markup.ofTokens_tagOpen opens ts
      rw [whole, build_cons, build_cons, step_tag_ended open_ cap inner ends]
      exact Agree.mends ⟨rfl, rfl⟩ _
  | @inner inside t ts kind solid known unknown _ ih =>
      obtain ⟨b₁, issues, issues', closed, stray, open₁, same, told⟩ :=
        close_inner open_ solid known unknown
      have apart₁ : name ∉ namesAfter (endTagName t.text) inside := fun member => apart
        (((List.drop_sublist _ _).trans (List.dropWhile_sublist _)).subset member)
      have later := (ih apart₁ open₁).trans (build_same cap same _)
      rw [ofTokens_single (by simp [kind]), build_cons, build_cons]
      simp only [step, takeIn, kind, closed, stray]
      refine ⟨later.tree, fun fault => ?_⟩
      have few := later.faults fault
      have now := told fault
      simp only [faults_append, List.count_append]
      omega
  | @outer inside t ts kind solid unknown other known =>
      obtain ⟨b₁, issues, issues', closed, closed', told⟩ :=
        close_outer open_ optional solid unknown other known
      rw [ofTokens_single (by simp [kind]), build_cons, build_cons]
      simp only [step, takeIn, kind, closed, closed']
      refine ⟨rfl, fun fault => ?_⟩
      simp only [faults_append, List.count_append, told fault]
      omega
  | @own inside t ts kind named unknown =>
      obtain ⟨issues, closed, told, stray⟩ := close_own open_ optional apart named unknown
      obtain ⟨tree, faults⟩ := build_same cap
        (bare_closeMany_closeTop inside.length b (some t.span)) (Markup.ofTokens ts)
      rw [ofTokens_single (by simp [kind]), build_cons, build_cons]
      simp only [step, takeIn, kind, closed, stray]
      refine ⟨tree, fun fault => ?_⟩
      simp only [ended, faults_append, told, faults, List.count_append]
      omega

end Builder

end PageLint.Html
