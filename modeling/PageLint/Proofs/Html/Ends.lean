/-
# PageLint.Proofs.Html.Ends — every end tag too many or missing is told once

Of an element that has ended its start tag is left, and its end tag if it has one: its `Shell`.
A piece of markup that is an end tag adds one shell with that end tag, or one fault of an end tag
that ends nothing. It and any other piece add one fault of a missing end for each shell that owes
one (`Balance`), and nothing else adds any. Elements that a start tag ends owe none, since all
their names may go without an end tag (`optional_of_closedBy`).

Neither holds past the cap on nesting: the end tag of a flattened element ends no element of the
tree and is no fault. So the balance is kept as long as no element is flattened, and the first one
that is gives a fault of its own (`Balance.openTag`). For a page that has no such fault, each end
tag and each element is told apart by its place (`mismatches_told_once`).
-/
import PageLint.Proofs.Html.Depth
import PageLint.Proofs.Html.Faults
import PageLint.Proofs.Html.Nesting

namespace PageLint.Html

set_option autoImplicit false

open Text

/-! ## Shells -/

/-- What is left of an element without its content: its start tag, and its end tag if it has
one. -/
structure Shell where
  tag : StartTag
  endTag : Option Span

namespace Shell

/-- The start tag asks for an end tag, and there is none. -/
def isLeftOpen (s : Shell) : Bool :=
  !s.tag.isVoid && !s.tag.selfClosing && s.tag.finish.isSome && s.endTag.isNone

/-- The element is left open, though its name does not allow that. -/
def owesEnd (s : Shell) : Bool := s.isLeftOpen && !optionalEndTag.contains s.tag.name

/-- What a start tag opens without an end tag is left open. -/
theorem isLeftOpen_none (tag : StartTag) : (⟨tag, none⟩ : Shell).isLeftOpen =
    !(tag.isVoid || tag.selfClosing || tag.finish.isNone) := by
  cases finish : tag.finish <;> simp [isLeftOpen, finish]

end Shell

/-- The shell of an element. -/
def Element.shell (e : Element) : Shell := ⟨e.tag, e.endTag⟩

/-- The shells of all elements at or below some nodes. -/
def shellsIn (nodes : List Node) : List Shell := (elementsOf (preorderIn nodes)).map Element.shell

/-- The names and the start tags of the elements that owe an end tag. -/
def owed (shells : List Shell) : List (List Char × Span) :=
  (shells.filter Shell.owesEnd).map fun s => (s.tag.name, s.tag.span)

/-- The end tags that there are. -/
def endTags (shells : List Shell) : List Span := shells.filterMap Shell.endTag

/-- The name of the element whose end tag a fault misses. -/
def Fault.lacking? : Fault → Option (List Char)
  | notClosed name => some name
  | unclosed name => some name
  | _ => none

/-- What the faults of missing ends name, and where they lie. -/
def lacking (issues : List Issue) : List (List Char × Span) :=
  issues.filterMap fun issue => issue.fault.lacking?.map (·, issue.span)

/-- Where the faults of end tags that end nothing lie. -/
def straySpans (issues : List Issue) : List Span := (strayEnds issues).map Issue.span

/-- The stretch of a piece that is an end tag. -/
def Markup.endTags : Markup → List Span
  | .tag .. => []
  | .single t => if t.kind = .tagClose then [t.span] else []

@[simp] theorem owed_append (shells more : List Shell) :
    owed (shells ++ more) = owed shells ++ owed more := by
  simp [owed]

@[simp] theorem endTags_append (shells more : List Shell) :
    endTags (shells ++ more) = endTags shells ++ endTags more :=
  List.filterMap_append

theorem endTags_cons (s : Shell) (shells : List Shell) :
    endTags (s :: shells) = s.endTag.toList ++ endTags shells := by
  obtain ⟨tag, _ | span⟩ := s <;> rfl

@[simp] theorem lacking_append (issues more : List Issue) :
    lacking (issues ++ more) = lacking issues ++ lacking more :=
  List.filterMap_append

@[simp] theorem straySpans_append (issues more : List Issue) :
    straySpans (issues ++ more) = straySpans issues ++ straySpans more := by
  simp [straySpans]

theorem owed_perm {shells more : List Shell} (perm : shells.Perm more) :
    (owed shells).Perm (owed more) :=
  (perm.filter _).map _

theorem endTags_perm {shells more : List Shell} (perm : shells.Perm more) :
    (endTags shells).Perm (endTags more) :=
  perm.filterMap _

theorem shellsIn_append (nodes more : List Node) :
    shellsIn (nodes ++ more) = shellsIn nodes ++ shellsIn more := by
  simp [shellsIn, preorderIn_append, elementsOf]

/-- **Elements that a start tag ends may go without an end tag.** -/
theorem optional_of_closedBy {name incoming : List Char} (closed : closedBy name incoming) :
    name ∈ optionalEndTag := by
  unfold closedBy at closed
  split at closed
  next same =>
    rw [same]
    decide
  next =>
    cases found : closers.lookup name with
    | none => simp [found] at closed
    | some names =>
        obtain ⟨before, after, table, -⟩ := List.lookup_eq_some_iff.mp found
        have all : ∀ entry ∈ closers, entry.1 ∈ optionalEndTag := by decide
        exact all (name, names) (by simp [table])

/-! ## What the builder has ended -/

namespace Builder

variable {b b' b'' : Builder} {issues more : List Issue} {closings closings' : List Span} {n : Nat}

/-- The shells of the elements that have ended so far. -/
def shells (b : Builder) : List Shell :=
  shellsIn b.top.reverse ++ b.stack.reverse.flatMap fun e => shellsIn e.children.reverse

theorem shells_append (b : Builder) (node : Node) :
    (b.append node).shells = b.shells ++ shellsIn [node] := by
  obtain ⟨stack, top, flattened⟩ := b
  cases stack with
  | nil => simp [append, shells, shellsIn_append]
  | cons e outer => simp [append, shells, shellsIn_append]

/-- Closing an element adds its own shell; those inside it stay. -/
theorem shells_closeTop {e : OpenElement} {outer : List OpenElement} (held : b.stack = e :: outer)
    (endTag : Option Span) : (b.closeTop endTag).shells.Perm (⟨e.tag, endTag⟩ :: b.shells) := by
  obtain ⟨stack, top, flattened⟩ := b
  obtain rfl : stack = e :: outer := held
  rw [closeTop, shells_append]
  have own : shellsIn [e.close endTag] = ⟨e.tag, endTag⟩ :: shellsIn e.children.reverse := by
    simp [shellsIn, preorderIn, OpenElement.close, Node.preorder, elementsOf, Node.element?,
      Element.shell]
  have whole : shells ⟨e :: outer, top, flattened⟩ =
      shells ⟨outer, top, flattened⟩ ++ shellsIn e.children.reverse := by
    simp [shells]
  rw [own, whole]
  exact List.perm_middle

theorem shells_closeMany (n : Nat) (b : Builder) :
    (closeMany n b).shells.Perm ((b.tags.take n).map (⟨·, none⟩) ++ b.shells) := by
  induction n generalizing b with
  | zero => exact .refl _
  | succ n ih =>
      rw [closeMany]
      refine (ih (b.closeTop none)).trans ?_
      rw [tags_closeTop]
      cases held : b.stack with
      | nil =>
          have none_ : b.closeTop none = b := by rw [closeTop, held]
          simp [none_, tags, held]
      | cons e outer =>
          have front : b.tags = e.tag :: outer.map OpenElement.tag := by rw [tags, held]; rfl
          rw [front]
          exact ((shells_closeTop held none).append_left _).trans List.perm_middle

/-- No element is flattened, and all that are open wait for their end tags. -/
structure Waits (b : Builder) : Prop where
  flattened : b.flattened = []
  tags : ∀ tag ∈ b.tags, (⟨tag, none⟩ : Shell).isLeftOpen

/-- **What a part of a page adds**: a missing end is told for each element that owes one, and each
end tag either ends an element or is told to end nothing. -/
structure Balance (b b' : Builder) (issues : List Issue) (closings : List Span) : Prop where
  waits : b'.Waits
  missing : (owed b'.shells).Perm (lacking issues ++ owed b.shells)
  needless : (endTags b'.shells ++ straySpans issues).Perm (closings ++ endTags b.shells)

theorem Balance.trans (first : Balance b b' issues closings)
    (second : Balance b' b'' more closings') :
    Balance b b'' (issues ++ more) (closings ++ closings') where
  waits := second.waits
  missing := by
    refine List.perm_iff_count.mpr fun entry => ?_
    have one := List.perm_iff_count.mp first.missing entry
    have other := List.perm_iff_count.mp second.missing entry
    simp only [lacking_append, List.count_append] at one other ⊢
    omega
  needless := by
    refine List.perm_iff_count.mpr fun span => ?_
    have one := List.perm_iff_count.mp first.needless span
    have other := List.perm_iff_count.mp second.needless span
    simp only [straySpans_append, List.count_append] at one other ⊢
    omega

/-- A part of a page that adds some shells, as many as it owes and tells. -/
theorem Balance.of_perm (extra : List Shell) (waits : b'.Waits)
    (perm : b'.shells.Perm (extra ++ b.shells)) (missing : owed extra = lacking issues)
    (needless : endTags extra ++ straySpans issues = closings) : Balance b b' issues closings where
  waits := waits
  missing := by
    rw [← missing, ← owed_append]
    exact owed_perm perm
  needless := by
    have ends := endTags_perm perm
    rw [endTags_append] at ends
    rw [← needless, List.append_assoc]
    refine (ends.append_right _).trans ?_
    rw [List.append_assoc]
    exact List.perm_append_comm.append_left _

theorem Waits.of_tags (waits : b.Waits) (fewer : ∀ tag ∈ b'.tags, tag ∈ b.tags)
    (none_ : b'.flattened = []) : b'.Waits :=
  ⟨none_, fun tag member => waits.tags tag (fewer tag member)⟩

/-- What changes nothing and tells nothing keeps the balance. -/
theorem Waits.balance (waits : b.Waits) : Balance b b [] [] :=
  .of_perm [] waits (.refl _) rfl rfl

/-! ## Elements that are ended together -/

/-- The elements in front that are in `p`, closed. -/
theorem shells_closeWhile (b : Builder) (p : OpenElement → Bool) :
    (closeMany (b.stack.takeWhile p).length b).shells.Perm
      (((b.stack.takeWhile p).map OpenElement.tag).map (⟨·, none⟩) ++ b.shells) := by
  have front : b.tags.take (b.stack.takeWhile p).length =
      (b.stack.takeWhile p).map OpenElement.tag := by
    rw [tags, ← List.map_take, ← List.prefix_iff_eq_take.mp (List.takeWhile_prefix p)]
  rw [← front]
  exact shells_closeMany _ b

/-- An end tag, where an element of its name is open: that one has the end tag, and those inside
it have none. -/
theorem shells_closeNamed {name : List Char} (known : name ∈ b.names) (s : Span) :
    ∃ tag, ((closeMany (b.stack.takeWhile (·.tag.name != name)).length b).closeTop
        (some s)).shells.Perm
          ((⟨tag, some s⟩ ::
            ((b.stack.takeWhile (·.tag.name != name)).map OpenElement.tag).map (⟨·, none⟩)) ++
              b.shells) := by
  have inside := shells_closeWhile b (·.tag.name != name)
  have left := tags_closeMany (b.stack.takeWhile (·.tag.name != name)).length b
  cases held : (closeMany (b.stack.takeWhile (·.tag.name != name)).length b).stack with
  | nil =>
      rw [tags, held] at left
      have all : b.tags.length ≤ (b.stack.takeWhile (·.tag.name != name)).length :=
        List.drop_eq_nil_iff.mp left.symm
      rw [length_tags] at all
      have others := length_takeWhile_eq_iff.mp
        (Nat.le_antisymm (List.takeWhile_sublist _).length_le all)
      obtain ⟨tag, member, named⟩ := List.mem_map.mp known
      obtain ⟨e, open_, rfl⟩ := List.mem_map.mp member
      simpa [named] using others e open_
  | cons e outer => exact ⟨e.tag, (shells_closeTop held (some s)).trans (inside.cons _)⟩

theorem endTags_implied (tags : List StartTag) : endTags (tags.map (⟨·, none⟩)) = [] := by
  simp [endTags]

/-- The faults of missing ends are those of the elements that owe one. -/
theorem lacking_missingEnds (fault : List Char → Fault)
    (tells : ∀ name, (fault name).lacking? = some name) (ended : List OpenElement)
    (left : ∀ e ∈ ended, (⟨e.tag, none⟩ : Shell).isLeftOpen) :
    lacking (missingEnds fault ended) = owed ((ended.map OpenElement.tag).map (⟨·, none⟩)) := by
  induction ended with
  | nil => rfl
  | cons e ended ih =>
      rw [List.forall_mem_cons] at left
      have others := ih left.2
      have own : (⟨e.tag, none⟩ : Shell).owesEnd = !optionalEndTag.contains e.tag.name := by
        rw [Shell.owesEnd, left.1, Bool.true_and]
      simp only [missingEnds, lacking, owed, List.map_cons, List.filter_cons, own] at others ⊢
      split
      next =>
        rw [List.map_cons, List.map_cons, ← others]
        exact List.filterMap_cons_some (by simp [tells])
      next => exact others

/-- The ends that a start tag implies are never missing. -/
theorem Waits.closeImplied (waits : b.Waits) (incoming : List Char) :
    Balance b (b.closeImplied incoming) [] [] := by
  obtain ⟨stack, top, flattened⟩ := b
  obtain rfl : flattened = [] := waits.flattened
  have perm := shells_closeWhile ⟨stack, top, []⟩ fun e => closedBy e.tag.name incoming
  refine .of_perm _ (waits.of_tags ?_ ?_) perm ?_ ?_
  · exact (tags_closeImplied_sublist ⟨stack, top, []⟩ incoming).subset
  · exact flattened_closeMany _ _
  · refine congrArg (List.map _) (List.filter_eq_nil_iff.mpr ?_)
    intro s member
    simp only [List.map_map, List.mem_map] at member
    obtain ⟨e, inner, rfl⟩ := member
    have closed : closedBy e.tag.name incoming :=
      List.mem_takeWhile_imp (p := fun e : OpenElement => closedBy e.tag.name incoming) inner
    simp [Shell.owesEnd, optional_of_closedBy closed]
  · rw [endTags_implied]
    rfl

/-! ## Pieces of markup -/

variable {t : Token TokenKind}

/-- **A start tag tells nothing of ends**, unless its element is the first to be flattened. -/
theorem Waits.openTag (waits : b.Waits) (tag : StartTag)
    (uncapped : ∀ issue ∈ (b.openTag (some n) tag).2, issue.fault ≠ .tooDeep n) :
    Balance b (b.openTag (some n) tag).1 (b.openTag (some n) tag).2 [] := by
  have implied := waits.closeImplied tag.name
  simp only [Builder.openTag] at uncapped ⊢
  generalize b.closeImplied tag.name = b₁ at implied uncapped ⊢
  have none_ := implied.waits.flattened
  split at uncapped
  next whole =>
    rw [if_pos whole]
    refine implied.trans (.of_perm [⟨tag, none⟩] ?_ ?_ ?_ rfl)
    · exact implied.waits.of_tags (by simp) (by simpa using none_)
    · rw [shells_append]
      exact List.perm_append_comm
    · have closed : (⟨tag, none⟩ : Shell).owesEnd = false := by
        rw [Shell.owesEnd, Shell.isLeftOpen_none, whole]
        rfl
      simp [owed, lacking, closed]
  next opens =>
    rw [if_neg opens]
    split at uncapped
    next full =>
      refine absurd rfl (uncapped ⟨.tooDeep n, tag.span⟩ ?_)
      simp [none_]
    next room =>
      rw [if_neg room]
      refine implied.trans (.of_perm [] ⟨none_, ?_⟩ ?_ rfl rfl)
      · refine List.forall_mem_cons.mpr ⟨?_, implied.waits.tags⟩
        rw [Shell.isLeftOpen_none, Bool.eq_false_iff.mpr opens]
        rfl
      · simp [shells, shellsIn, preorderIn, elementsOf]

/-- **An end tag ends an element or is told to end nothing**, where no element is flattened. -/
theorem Waits.close (waits : b.Waits) (t : Token TokenKind) :
    Balance b (b.close t).1 (b.close t).2 [t.span] := by
  have idle : lacking (broken t) = [] ∧ straySpans (broken t) = [] := by
    unfold broken
    split <;> exact ⟨rfl, rfl⟩
  have cases_ := closing b t
  generalize endTagName t.text = name at cases_
  generalize b.close t = closed at cases_ ⊢
  cases cases_ with
  | void isVoid =>
      refine .of_perm [] waits (.refl _) ?_ ?_
      · rw [lacking_append, idle.1]
        rfl
      · rw [straySpans_append, idle.2]
        rfl
  | flattened solid known =>
      rw [waits.flattened] at known
      cases known
  | element solid unknown known =>
      obtain ⟨stack, top, flattened⟩ := b
      obtain rfl : flattened = [] := waits.flattened
      obtain ⟨tag, perm⟩ := shells_closeNamed known t.span
      have told := lacking_missingEnds .notClosed (fun _ => rfl)
        (stack.takeWhile (·.tag.name != name)) fun e inner =>
          waits.tags e.tag (List.mem_map_of_mem ((List.takeWhile_sublist _).subset inner))
      have quiet := strayEnds_missingEnds .notClosed (fun _ => rfl)
        (stack.takeWhile (·.tag.name != name))
      refine .of_perm _ (waits.of_tags ?_ ?_) perm ?_ ?_
      · rw [tags_closeTop, tags_closeMany, List.drop_drop]
        exact (List.drop_sublist _ _).subset
      · rw [flattened_closeTop, flattened_closeMany]
      · have ended : (⟨tag, some t.span⟩ : Shell).owesEnd = false := by
          simp [Shell.owesEnd, Shell.isLeftOpen]
        rw [lacking_append, idle.1, told, owed, List.filter_cons_of_neg (by simp [ended])]
        rfl
      · rw [straySpans_append, idle.2, straySpans, quiet, endTags_cons, endTags_implied]
        rfl
  | stray solid unknown =>
      refine .of_perm [] waits (.refl _) ?_ ?_
      · rw [lacking_append, idle.1]
        rfl
      · rw [straySpans_append, idle.2]
        rfl

/-- A node without elements adds no end. -/
theorem Waits.leaf (waits : b.Waits) {node : Node} (leaf : shellsIn [node] = [])
    (idle : lacking issues = [] ∧ straySpans issues = []) : Balance b (b.append node) issues [] := by
  refine .of_perm [] (waits.of_tags (by simp) ?_) ?_ idle.1.symm idle.2
  · simpa using waits.flattened
  · rw [shells_append, leaf, List.append_nil]
    exact .refl _

/-- **What one piece of markup adds.** -/
theorem Waits.step (waits : b.Waits) (piece : Markup)
    (uncapped : ∀ issue ∈ (b.step (some n) piece).2, issue.fault ≠ .tooDeep n) :
    Balance b (b.step (some n) piece).1 (b.step (some n) piece).2 piece.endTags := by
  cases piece with
  | tag head parts close =>
      have own : Balance b b (StartTag.ofTokens head parts close).2 [] := by
        refine .of_perm [] waits (.refl _) ?_ ?_
        · refine (List.filterMap_eq_nil_iff.mpr fun issue member => ?_).symm
          have own := isOfTag_startTag head parts close issue member
          cases fault : issue.fault <;> simp [fault, Fault.isOfTag, Fault.lacking?] at own ⊢
        · rw [straySpans, strayEnds_startTag]
          rfl
      exact own.trans (waits.openTag _ fun issue member => uncapped issue (List.mem_append_right _ member))
  | single t =>
      simp only [Builder.step, Builder.takeIn, Markup.endTags]
      cases kind : t.kind
      all_goals dsimp only
      case tagClose => exact waits.close t
      case comment => exact waits.leaf rfl (by split <;> exact ⟨rfl, rfl⟩)
      case cdata => exact waits.leaf rfl (by split <;> exact ⟨rfl, rfl⟩)
      case byteOrderMark => exact waits.balance
      case doctype => exact waits.leaf rfl ⟨rfl, rfl⟩
      case rawText => exact waits.leaf rfl ⟨rfl, rfl⟩
      case text => exact waits.leaf rfl ⟨rfl, rfl⟩
      case blank => exact waits.leaf rfl ⟨rfl, rfl⟩
      all_goals exact .of_perm [] waits (.refl _) rfl rfl

/-- **What pieces of markup add**, as long as none of them is flattened. -/
theorem Waits.run (waits : b.Waits) (pieces : List Markup)
    (uncapped : ∀ issue ∈ (b.run (some n) pieces).2, issue.fault ≠ .tooDeep n) :
    Balance b (b.run (some n) pieces).1 (b.run (some n) pieces).2
      (pieces.flatMap Markup.endTags) := by
  induction pieces generalizing b with
  | nil => exact waits.balance
  | cons piece pieces ih =>
      simp only [Builder.run, List.forall_mem_append] at uncapped
      have first := waits.step piece uncapped.1
      exact first.trans (ih first.waits uncapped.2)

/-- What is open when the page ends is closed, and told if it owes an end tag. -/
theorem Waits.finish (waits : b.Waits) : Balance b b.finish.1 b.finish.2 [] := by
  have all : b.stack.takeWhile (fun _ => true) = b.stack := List.takeWhile_eq_self_iff.mpr (by simp)
  have perm := shells_closeWhile b fun _ => true
  rw [all] at perm
  have told := lacking_missingEnds .unclosed (fun _ => rfl) b.stack
    fun e member => waits.tags e.tag (List.mem_map_of_mem member)
  refine .of_perm _ (waits.of_tags ?_ ?_) perm told.symm ?_
  · exact ((tags_closeMany _ _).symm ▸ List.drop_sublist _ _ : _).subset
  · exact (flattened_closeMany _ _).trans waits.flattened
  · rw [endTags_implied, straySpans]
    exact congrArg (List.map _) (strayEnds_missingEnds .unclosed (fun _ => rfl) b.stack)

end Builder

/-! ## Pages -/

theorem waits_empty : Builder.empty.Waits := ⟨rfl, by simp [Builder.tags, Builder.empty]⟩

/-- The faults of a page that does not reach the cap on nesting balance its elements. -/
theorem balance_buildTree {n : Nat} {ts : List (Token TokenKind)}
    (uncapped : ∀ issue ∈ (buildTree (some n) ts).2, issue.fault ≠ .tooDeep n) :
    (owed (shellsIn (buildTree (some n) ts).1)).Perm (lacking (buildTree (some n) ts).2) ∧
      (endTags (shellsIn (buildTree (some n) ts).1) ++
        straySpans (buildTree (some n) ts).2).Perm
          ((Markup.ofTokens ts).flatMap Markup.endTags) := by
  simp only [buildTree, List.forall_mem_append] at uncapped
  have run := waits_empty.run (Markup.ofTokens ts) uncapped.1
  have whole := run.trans run.waits.finish
  have shells : (Builder.empty.run (some n) (Markup.ofTokens ts)).1.finish.1.shells =
      shellsIn (buildTree (some n) ts).1 := by
    rw [Builder.shells, Builder.stack_finish]
    simp [buildTree]
  have none_ : Builder.empty.shells = [] := rfl
  obtain ⟨-, missing, needless⟩ := whole
  rw [shells, none_] at missing needless
  have noneOwed : owed [] = [] := rfl
  have noEnds : endTags [] = [] := rfl
  rw [noneOwed, List.append_nil] at missing
  rw [noEnds, List.append_nil, List.append_nil] at needless
  exact ⟨missing, needless⟩

/-! ## Places -/

variable {cs : List Char}

/-- The elements of a page, in document order. -/
def Page.elements (page : Page) : List Element := elementsOf (preorderIn page.root.children)

/-- Of tokens that stand one after the other, no two lie at one place. -/
theorem nodup_spans (cs : List Char) : ((tokenize cs).map Token.span).Nodup :=
  (Page.reads_tokens cs).nodup_spans (offset_lt_of_mem_tokenize cs)

/-- The end tags among the tokens of a piece. -/
theorem Markup.Formed.endTags {piece : Markup} (formed : piece.Formed) :
    piece.endTags = (piece.tokens.filter (·.kind = .tagClose)).map Token.span := by
  cases piece with
  | tag head parts close =>
      obtain ⟨opens, -, inside, ends⟩ := formed
      refine (congrArg (List.map _) (List.filter_eq_nil_iff.mpr ?_)).symm
      intro t member
      simp only [Markup.tokens, List.mem_append, List.mem_cons, Option.mem_toList] at member
      rcases member with (rfl | part) | close_
      · simp [opens]
      · have kind := isTagPart_iff.mp (inside t part)
        simp only [List.mem_cons, List.not_mem_nil, or_false] at kind
        rcases kind with kind | kind | kind <;> simp [kind]
      · have kind := ends t close_
        simp only [isTagEnd, Bool.or_eq_true, beq_iff_eq] at kind
        rcases kind with kind | kind <;> simp [kind]
  | single t =>
      by_cases kind : t.kind = .tagClose <;> simp [Markup.endTags, Markup.tokens, kind]

theorem flatMap_endTags {pieces : List Markup} (formed : ∀ piece ∈ pieces, piece.Formed) :
    pieces.flatMap Markup.endTags =
      ((pieces.flatMap Markup.tokens).filter (·.kind = .tagClose)).map Token.span := by
  induction pieces with
  | nil => rfl
  | cons piece pieces ih =>
      rw [List.forall_mem_cons] at formed
      rw [List.flatMap_cons, List.flatMap_cons, List.filter_append, List.map_append,
        ih formed.2, formed.1.endTags]

/-- The start tag that a piece of markup is. -/
def Markup.startTag? : Markup → Option StartTag
  | .tag head parts close => some (StartTag.ofTokens head parts close).1
  | .single _ => none

/-- The start tag that an entry shows. -/
def Entry.tag? : Entry → Option StartTag
  | element tag _ => some tag
  | _ => none

theorem map_tag_elementsOf (nodes : List Node) :
    (elementsOf nodes).map Element.tag = (nodes.map Node.entry).filterMap Entry.tag? := by
  induction nodes with
  | nil => rfl
  | cons node nodes ih =>
      rw [List.map_cons, List.filterMap_cons, ← ih, elementsOf, List.filterMap_cons]
      cases node <;> rfl

theorem filterMap_tag?_entries (piece : Markup) :
    piece.entries.filterMap Entry.tag? = piece.startTag?.toList := by
  cases piece with
  | tag head parts close => rfl
  | single t =>
      simp only [Markup.entries]
      cases t.kind <;> rfl

/-- The start tags of a page's elements are those of its markup. -/
theorem tags_elements (cs : List Char) :
    (Page.ofText cs).elements.map Element.tag =
      (Markup.ofTokens (tokenize cs)).filterMap Markup.startTag? := by
  rw [Page.elements, map_tag_elementsOf, Page.children_root, entries_buildTree,
    List.filterMap_flatMap]
  simp only [filterMap_tag?_entries]
  exact (List.filterMap_eq_flatMap_toList ..).symm

/-- **No two elements have their start tags at one place.** -/
theorem nodup_tagSpans (cs : List Char) :
    ((Page.ofText cs).elements.map (·.tag.span)).Nodup := by
  have reads := Page.reads_tokens cs
  have within : ∀ t ∈ tokenize cs, 0 ≤ t.span.start.offset ∧
      t.span.finish.offset ≤ (Passage.whole cs).origin.offset + bytes cs :=
    fun t member => ⟨Nat.zero_le _, (reads.covers member).finish.offset_le⟩
  have ordered := (successive_ofTokens reads within).ordered
  have spans : (Page.ofText cs).elements.map (·.tag.span) =
      ((Markup.ofTokens (tokenize cs)).filterMap Markup.startTag?).map StartTag.span := by
    rw [← tags_elements, List.map_map]
    rfl
  rw [spans]
  refine List.pairwise_map.mpr (List.pairwise_filterMap.mpr (ordered.imp_of_mem ?_))
  intro before after member _ apart tag here tag' there same
  cases before with
  | single t => cases here
  | tag head parts close =>
      cases after with
      | single t => cases there
      | tag head' parts' close' =>
          obtain rfl := Option.some.inj here
          obtain rfl := Option.some.inj there
          have nonempty := (sites_inMarkup reads (offset_lt_of_mem_tokenize cs) member).1.1
          simp only [Markup.span] at apart
          rw [same] at apart nonempty
          omega

/-! ## Each told once -/

/-- A key that no two entries share picks out its one entry. -/
theorem filter_key_eq {α β : Type} [DecidableEq β] {key : α → β} {entries : List α}
    (nodup : (entries.map key).Nodup) {entry : α} (member : entry ∈ entries) :
    entries.filter (fun other => key other = key entry) = [entry] := by
  induction entries with
  | nil => cases member
  | cons first entries ih =>
      obtain ⟨fresh, nodup⟩ := List.nodup_cons.mp nodup
      rw [List.filter_cons]
      rcases List.mem_cons.mp member with rfl | later
      · have others : ∀ other ∈ entries, ¬key other = key entry := fun other inside same =>
          fresh (same ▸ List.mem_map_of_mem inside)
        rw [if_pos (decide_eq_true rfl), List.filter_eq_nil_iff.mpr (by simpa using others)]
      · have apart : ¬key first = key entry := fun same => fresh (same ▸ List.mem_map_of_mem later)
        rw [if_neg (by simpa using apart), ih nodup later]

/-- How many elements have an end tag at a place. -/
theorem count_endTags (elements : List Element) (s : Span) :
    (endTags (elements.map Element.shell)).count s = elements.countP (·.endTag = some s) := by
  rw [endTags, List.filterMap_map, List.count, List.countP_filterMap]
  refine List.countP_congr fun e _ => ?_
  cases ends : e.endTag <;> simp [Element.shell, ends]

/-- How many faults tell of an end tag at a place that ends nothing. -/
theorem count_straySpans (issues : List Issue) (s : Span) :
    (straySpans issues).count s =
      issues.countP fun issue => issue.fault.isStrayEnd ∧ issue.span = s := by
  rw [straySpans, strayEnds, List.count, List.countP_map, List.countP_filter]
  refine List.countP_congr fun issue _ => ?_
  simp [and_comm]

/-- An end tag of the text is told once among the pieces of markup. -/
theorem count_endTags_ofTokens {t : Token TokenKind} (member : t ∈ tokenize cs)
    (kind : t.kind = .tagClose) :
    ((Markup.ofTokens (tokenize cs)).flatMap Markup.endTags).count t.span = 1 := by
  have nodup := nodup_spans cs
  rw [flatMap_endTags (formed_tokenize cs), Markup.flatMap_tokens_ofTokens]
  refine List.count_eq_one_of_mem (nodup.sublist (List.filter_sublist.map _)) ?_
  exact List.mem_map_of_mem (List.mem_filter.mpr ⟨member, decide_eq_true kind⟩)

/-- Which faults tell that the end of an element is missing: one, if it owes an end tag. -/
theorem owed_at {elements : List Element} (nodup : (elements.map (·.tag.span)).Nodup) {e : Element}
    (member : e ∈ elements) :
    (owed (elements.map Element.shell)).filter (·.2 = e.tag.span) =
      if e.shell.owesEnd then [(e.tag.name, e.tag.span)] else [] := by
  have own : (elements.map Element.shell).filter (fun s => decide (s.tag.span = e.tag.span)) =
      [e.shell] := by
    rw [List.filter_map]
    exact congrArg (List.map Element.shell) (filter_key_eq nodup member)
  have keys : ((fun entry : List Char × Span => decide (entry.2 = e.tag.span)) ∘
      fun s : Shell => (s.tag.name, s.tag.span)) = fun s => decide (s.tag.span = e.tag.span) := rfl
  rw [owed, List.filter_map, keys, List.filter_comm, own, List.filter_singleton]
  cases owes : e.shell.owesEnd <;> simp [Element.shell]

/-- **Every end tag too many or missing is told once.** Where no element is too deep: an end tag
is that of one element, or has one fault that it ends nothing, and never both; an element that
asks for an end tag and has none may go without it, or has one fault that it is missing; and
every fault that an end tag is missing is that of such an element. -/
theorem mismatches_told_once (cs : List Char)
    (uncapped : ∀ issue ∈ (Page.ofText cs).issues, issue.fault ≠ .tooDeep depthCap) :
    (∀ t ∈ tokenize cs, t.kind = .tagClose →
      let ended := (Page.ofText cs).elements.countP (·.endTag = some t.span)
      let told := (Page.ofText cs).issues.countP fun issue =>
        issue.fault.isStrayEnd ∧ issue.span = t.span
      (ended = 1 ∧ told = 0) ∨ (ended = 0 ∧ told = 1)) ∧
    (∀ e ∈ (Page.ofText cs).elements, e.shell.isLeftOpen →
      (lacking (Page.ofText cs).issues).filter (·.2 = e.tag.span) =
        if e.tag.name ∈ optionalEndTag then [] else [(e.tag.name, e.tag.span)]) ∧
    ∀ entry ∈ lacking (Page.ofText cs).issues, ∃ e ∈ (Page.ofText cs).elements,
      e.shell.isLeftOpen ∧ e.tag.name ∉ optionalEndTag ∧ entry = (e.tag.name, e.tag.span) := by
  obtain ⟨missing, needless⟩ := balance_buildTree uncapped
  have shells : shellsIn (buildTree (some depthCap) (tokenize cs)).1 =
      ((Page.ofText cs).elements).map Element.shell := by
    rw [shellsIn, Page.elements, Page.children_root]
  rw [shells] at missing needless
  refine ⟨?_, ?_, ?_⟩
  · intro t member kind
    have once := List.perm_iff_count.mp needless t.span
    rw [List.count_append, count_endTags, count_endTags_ofTokens member kind] at once
    have told := count_straySpans (Page.ofText cs).issues t.span
    dsimp only
    rw [← told]
    rw [show (buildTree (some depthCap) (tokenize cs)).2 = (Page.ofText cs).issues from rfl] at once
    omega
  · intro e member open_
    have at_ := (missing.filter (fun entry => decide (entry.2 = e.tag.span))).symm
    rw [owed_at (nodup_tagSpans cs) member, Shell.owesEnd, open_] at at_
    by_cases optional : e.tag.name ∈ optionalEndTag
    · have may : optionalEndTag.contains e.shell.tag.name := List.contains_iff_mem.mpr optional
      rw [may] at at_
      rw [if_pos optional]
      exact at_.eq_nil
    · have must : optionalEndTag.contains e.shell.tag.name = false :=
        Bool.eq_false_iff.mpr fun may => optional (List.contains_iff_mem.mp may)
      rw [must] at at_
      rw [if_neg optional]
      exact List.perm_singleton.mp at_
  · intro entry told
    obtain ⟨s, owes, rfl⟩ := List.mem_map.mp (missing.mem_iff.mpr told)
    obtain ⟨inside, owes⟩ := List.mem_filter.mp owes
    obtain ⟨e, member, rfl⟩ := List.mem_map.mp inside
    obtain ⟨open_, must⟩ := (Bool.and_eq_true _ _).mp owes
    exact ⟨e, member, open_, by simpa [Element.shell] using must, rfl⟩

/-- Five start tags and four end tags: the `li` may stay open, the `i` and the `div` may not, and two of the
end tags end nothing. -/
theorem mismatches_told_once_fragment :
    (∀ issue ∈ (Page.ofText "<ul><li>a</b></ul><div><p>x<i>y</p></br>".toList).issues,
      issue.fault ≠ .tooDeep depthCap) ∧
    (∀ t ∈ tokenize "<ul><li>a</b></ul><div><p>x<i>y</p></br>".toList, t.kind = .tagClose →
      let ended := (Page.ofText "<ul><li>a</b></ul><div><p>x<i>y</p></br>".toList).elements.countP
        (·.endTag = some t.span)
      let told := (Page.ofText "<ul><li>a</b></ul><div><p>x<i>y</p></br>".toList).issues.countP
        fun issue => issue.fault.isStrayEnd ∧ issue.span = t.span
      (ended = 1 ∧ told = 0) ∨ (ended = 0 ∧ told = 1)) ∧
    (lacking (Page.ofText "<ul><li>a</b></ul><div><p>x<i>y</p></br>".toList).issues).map Prod.fst =
      ["i".toList, "div".toList] := by
  have uncapped : ∀ issue ∈
      (Page.ofText "<ul><li>a</b></ul><div><p>x<i>y</p></br>".toList).issues,
      issue.fault ≠ .tooDeep depthCap := by decide +kernel
  exact ⟨uncapped, (mismatches_told_once _ uncapped).1, by decide +kernel⟩

end PageLint.Html
