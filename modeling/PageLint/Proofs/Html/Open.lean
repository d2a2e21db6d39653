/-
# PageLint.Proofs.Html.Open — which elements are open

What is built inside the open elements does not matter to what a piece of markup does to
them. `Builder.tags` leaves it out: the start tags of the open elements, innermost first.
Putting a node in keeps the tags, closing drops them from the front (`tags_closeTop`,
`tags_closeMany`), and a start tag puts at most its own in front of those that it does not
end (`tags_closeImplied`).

Faults lie at start tags and at single tokens. So whatever holds of the stretches of these
holds of every fault of a page (`forall_issues_run`).
-/
import Mathlib
import PageLint.Html.Tree

namespace PageLint.Html

set_option autoImplicit false

open Text

namespace Builder

variable {b : Builder} {node : Node} {t : Token TokenKind}

/-! ## Start tags of the open elements -/

/-- The start tags of the open elements, innermost first. -/
def tags (b : Builder) : List StartTag := b.stack.map OpenElement.tag

theorem length_tags (b : Builder) : b.tags.length = b.stack.length := List.length_map _

@[simp] theorem tags_append (b : Builder) (node : Node) : (b.append node).tags = b.tags := by
  obtain ⟨stack, top, flattened⟩ := b
  cases stack <;> rfl

@[simp] theorem flattened_append (b : Builder) (node : Node) :
    (b.append node).flattened = b.flattened := by
  obtain ⟨stack, top, flattened⟩ := b
  cases stack <;> rfl

@[simp] theorem tags_closeTop (b : Builder) (endTag : Option Span) :
    (b.closeTop endTag).tags = b.tags.drop 1 := by
  obtain ⟨stack, top, flattened⟩ := b
  cases stack with
  | nil => rfl
  | cons e outer => exact tags_append ⟨outer, top, flattened⟩ (e.close endTag)

@[simp] theorem flattened_closeTop (b : Builder) (endTag : Option Span) :
    (b.closeTop endTag).flattened = b.flattened := by
  obtain ⟨stack, top, flattened⟩ := b
  cases stack with
  | nil => rfl
  | cons e outer => exact flattened_append ⟨outer, top, flattened⟩ (e.close endTag)

@[simp] theorem tags_closeMany (n : Nat) (b : Builder) : (closeMany n b).tags = b.tags.drop n := by
  induction n generalizing b with
  | zero => rfl
  | succ n ih => rw [closeMany, ih, tags_closeTop, List.drop_drop, Nat.add_comm]

@[simp] theorem flattened_closeMany (n : Nat) (b : Builder) :
    (closeMany n b).flattened = b.flattened := by
  induction n generalizing b with
  | zero => rfl
  | succ n ih => rw [closeMany, ih, flattened_closeTop]

/-- A start tag ends the flattened elements that it may, and open ones only when it has ended
all of the flattened ones. -/
theorem tags_closeImplied (b : Builder) (incoming : List Char) :
    (∃ n, (b.closeImplied incoming).tags = b.tags.drop n ∧
        (b.closeImplied incoming).flattened = []) ∨
      (b.closeImplied incoming).tags = b.tags ∧ b.flattened ≠ [] := by
  rw [closeImplied]
  split
  · refine .inl ⟨_, tags_closeMany _ _, ?_⟩
    rw [flattened_closeMany]
  next some_ =>
    refine .inr ⟨rfl, ?_⟩
    intro none_
    rw [none_] at some_
    exact some_ rfl

/-- When the page ends, no element is open. -/
@[simp] theorem stack_finish (b : Builder) : b.finish.1.stack = [] := by
  apply List.map_eq_nil_iff.mp
  exact (tags_closeMany _ _).trans (List.drop_eq_nil_of_le (length_tags _).le)

theorem tags_closeImplied_sublist (b : Builder) (incoming : List Char) :
    (b.closeImplied incoming).tags.Sublist b.tags := by
  rcases tags_closeImplied b incoming with ⟨n, dropped, -⟩ | ⟨same, -⟩
  · rw [dropped]
    exact List.drop_sublist n _
  · rw [same]

theorem tags_openTag (b : Builder) (cap : Option Nat) (tag : StartTag) :
    (b.openTag cap tag).1.tags.Sublist (tag :: b.tags) := by
  have implied := tags_closeImplied_sublist b tag.name
  simp only [openTag]
  split
  · rw [tags_append]
    exact implied.cons tag
  split
  · have same : Builder.tags { (b.closeImplied tag.name).append (.element tag [] none tag.span) with
        flattened := tag.name :: (b.closeImplied tag.name).flattened } =
        (b.closeImplied tag.name).tags := tags_append _ _
    rw [same]
    exact implied.cons tag
  · exact implied.cons_cons tag

theorem tags_close (b : Builder) (t : Token TokenKind) : ∃ n, (b.close t).1.tags = b.tags.drop n := by
  simp only [close]
  split
  · exact ⟨0, rfl⟩
  split
  · exact ⟨0, rfl⟩
  split
  · exact ⟨0, rfl⟩
  · exact ⟨_, by rw [tags_closeTop, tags_closeMany, List.drop_drop]; rfl⟩

theorem tags_takeIn (b : Builder) (t : Token TokenKind) :
    (b.takeIn t).1.tags.Sublist b.tags := by
  rw [takeIn]
  split
  case h_8 =>
    obtain ⟨n, dropped⟩ := tags_close b t
    rw [dropped]
    exact List.drop_sublist n _
  all_goals simp

/-! ## What implied ends keep -/

section Keeps

variable {P : Builder → Prop} (closes : ∀ b, P b → P (b.closeTop none))
include closes

/-- What the implied end of one element keeps, that of several keeps. -/
theorem closeMany_keeps (holds : P b) (n : Nat) : P (closeMany n b) := by
  induction n generalizing b with
  | zero => exact holds
  | succ n ih => exact ih (closes b holds)

/-- And so does all that a start tag ends, if nothing hangs on which elements are flattened. -/
theorem closeImplied_keeps
    (flattens : ∀ (b : Builder) (names : List (List Char)), P b → P { b with flattened := names })
    (holds : P b) (incoming : List Char) : P (b.closeImplied incoming) := by
  rw [closeImplied]
  split
  · exact closeMany_keeps closes (flattens b [] holds) _
  · exact flattens b _ holds

end Keeps

/-! ## Where faults lie -/

variable {Q : Span → Prop}

theorem forall_missingEnds {ended : List OpenElement} (held : ∀ e ∈ ended, Q e.tag.span)
    (fault : List Char → Fault) : ∀ issue ∈ missingEnds fault ended, Q issue.span := by
  intro issue member
  obtain ⟨e, found, rfl⟩ := List.mem_map.mp member
  exact held e (List.mem_of_mem_filter found)

theorem forall_issues_openTag (cap : Option Nat) {tag : StartTag} (own : Q tag.span) :
    ∀ issue ∈ (b.openTag cap tag).2, Q issue.span := by
  simp only [openTag]
  split
  · simp
  split
  · split
    · exact List.forall_mem_singleton.mpr own
    · simp
  · simp

theorem forall_issues_close (held : ∀ tag ∈ b.tags, Q tag.span) (own : Q t.span) :
    ∀ issue ∈ (b.close t).2, Q issue.span := by
  have broken : ∀ issue ∈ (if t.text.getLast? = some '>' then []
      else [(⟨.unterminatedEndTag (endTagName t.text), t.span⟩ : Issue)]), Q issue.span := by
    split
    · simp
    · exact List.forall_mem_singleton.mpr own
  simp only [close]
  split
  · exact List.forall_mem_append.mpr ⟨broken, List.forall_mem_singleton.mpr own⟩
  split
  · exact broken
  split
  · exact List.forall_mem_append.mpr ⟨broken, List.forall_mem_singleton.mpr own⟩
  · refine List.forall_mem_append.mpr ⟨broken, forall_missingEnds ?_ _⟩
    intro e member
    exact held e.tag (List.mem_map_of_mem ((List.takeWhile_sublist _).subset member))

/-- Text that is no markup is never at fault. -/
theorem forall_issues_takeIn (held : ∀ tag ∈ b.tags, Q tag.span)
    (own : t.kind ≠ .rawText → Q t.span) : ∀ issue ∈ (b.takeIn t).2, Q issue.span := by
  rw [takeIn]
  split
  case h_1 => simp
  case h_2 => simp
  case h_3 kind =>
    have here := own (by rw [kind]; decide)
    split
    · exact List.forall_mem_singleton.mpr here
    · simp
  case h_4 kind =>
    have here := own (by rw [kind]; decide)
    split
    · simp
    · exact List.forall_mem_singleton.mpr here
  case h_5 => simp
  case h_6 => simp
  case h_7 => simp
  case h_8 kind => exact forall_issues_close held (own (by rw [kind]; decide))
  all_goals
    next kind =>
      exact List.forall_mem_singleton.mpr (own (by rw [kind]; decide))

end Builder

/-- The stretch of a start tag, and those of the faults that are found in the piece by itself. -/
def Markup.Sites (Q : Span → Prop) : Markup → Prop
  | .tag head parts close =>
    Q (StartTag.ofTokens head parts close).1.span ∧
      ∀ issue ∈ (StartTag.ofTokens head parts close).2, Q issue.span
  | .single t => t.kind ≠ .rawText → Q t.span

namespace Builder

variable {b : Builder} {Q : Span → Prop}

theorem forall_issues_step (cap : Option Nat) {piece : Markup} (held : ∀ tag ∈ b.tags, Q tag.span)
    (own : piece.Sites Q) :
    (∀ tag ∈ (b.step cap piece).1.tags, Q tag.span) ∧
      ∀ issue ∈ (b.step cap piece).2, Q issue.span := by
  cases piece with
  | tag head parts close =>
      obtain ⟨whole, issues⟩ := own
      constructor
      · intro tag member
        rcases List.mem_cons.mp ((tags_openTag b cap _).subset member) with rfl | outer
        · exact whole
        · exact held tag outer
      · exact List.forall_mem_append.mpr ⟨issues, forall_issues_openTag cap whole⟩
  | single t =>
      constructor
      · intro tag member
        exact held tag ((tags_takeIn b t).subset member)
      · exact forall_issues_takeIn held own

/-- **Faults lie at start tags and at single tokens.** -/
theorem forall_issues_run (cap : Option Nat) {pieces : List Markup}
    (held : ∀ tag ∈ b.tags, Q tag.span) (each : ∀ piece ∈ pieces, piece.Sites Q) :
    (∀ tag ∈ (b.run cap pieces).1.tags, Q tag.span) ∧
      ∀ issue ∈ (b.run cap pieces).2, Q issue.span := by
  induction pieces generalizing b with
  | nil => exact ⟨held, by simp [run]⟩
  | cons piece pieces ih =>
      rw [List.forall_mem_cons] at each
      obtain ⟨step, issues⟩ := forall_issues_step cap held each.1
      obtain ⟨done, more⟩ := ih step each.2
      exact ⟨done, List.forall_mem_append.mpr ⟨issues, more⟩⟩

end Builder

theorem forall_issues_buildTree {Q : Span → Prop} (cap : Option Nat) {ts : List (Token TokenKind)}
    (each : ∀ piece ∈ Markup.ofTokens ts, piece.Sites Q) :
    ∀ issue ∈ (buildTree cap ts).2, Q issue.span := by
  have none_ : ∀ tag ∈ Builder.empty.tags, Q tag.span := by simp [Builder.tags, Builder.empty]
  obtain ⟨held, issues⟩ := Builder.forall_issues_run cap none_ each
  refine List.forall_mem_append.mpr ⟨issues, Builder.forall_missingEnds ?_ _⟩
  intro e member
  exact held e.tag (List.mem_map_of_mem member)

end PageLint.Html
