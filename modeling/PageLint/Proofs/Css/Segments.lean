/-
# PageLint.Proofs.Css.Segments — what trimming leaves, and what is open where

Two readings of a list of tokens that say what they find and not how. `Trims` relates tokens to what
is left of them without the trivia at both ends; `trimTrivia` finds just that (`trims_iff`).
`depthAfter` counts the brackets that are open after some tokens, whichever signs count as brackets:
a scan that stops at a sign outside all of them stops where nothing is open.
-/
import PageLint.Proofs.Css.RoundTrip

namespace PageLint.Css

set_option autoImplicit false

open Text

variable {t : Token TokenKind} {ts kept front back : Tokens}

/-! ## Trimmed tokens -/

/-- **What is left of tokens without trivia at either end.** -/
structure Trims (ts kept : Tokens) : Prop where
  around : ∃ front back, ts = front ++ (kept ++ back) ∧ (∀ t ∈ front, isTrivia t) ∧
    ∀ t ∈ back, isTrivia t
  first : ∀ t ∈ kept.head?, isTrivia t = false
  last : ∀ t ∈ kept.getLast?, isTrivia t = false

theorem trimTriviaEnd_spec (ts : Tokens) :
    (∃ back, ts = trimTriviaEnd ts ++ back ∧ ∀ t ∈ back, isTrivia t) ∧
      ∀ t ∈ (trimTriviaEnd ts).getLast?, isTrivia t = false := by
  induction ts with
  | nil => exact ⟨⟨[], rfl, by simp⟩, by simp [trimTriviaEnd]⟩
  | cons t ts ih =>
      obtain ⟨⟨back, whole, trivia⟩, last⟩ := ih
      cases kept : trimTriviaEnd ts with
      | nil =>
          rw [kept, List.nil_append] at whole
          by_cases own : isTrivia t
          · have nothing : trimTriviaEnd (t :: ts) = [] := by simp [trimTriviaEnd, kept, own]
            rw [nothing]
            exact ⟨⟨t :: ts, rfl, List.forall_mem_cons.mpr ⟨own, whole ▸ trivia⟩⟩, by simp⟩
          · have alone : trimTriviaEnd (t :: ts) = [t] := by simp [trimTriviaEnd, kept, own]
            rw [alone]
            exact ⟨⟨ts, rfl, whole ▸ trivia⟩, by simpa using own⟩
      | cons u more =>
          have longer : trimTriviaEnd (t :: ts) = t :: u :: more := by simp [trimTriviaEnd, kept]
          rw [longer]
          rw [kept] at whole last
          exact ⟨⟨back, by rw [List.cons_append, ← whole], trivia⟩, last⟩

theorem trims_trimTrivia (ts : Tokens) : Trims ts (trimTrivia ts) := by
  obtain ⟨⟨back, whole, trivia⟩, last⟩ := trimTriviaEnd_spec (ts.dropWhile isTrivia)
  refine ⟨⟨ts.takeWhile isTrivia, back, ?_, fun t member => List.mem_takeWhile_imp member, trivia⟩,
    ?_, last⟩
  · rw [trimTrivia, ← whole, List.takeWhile_append_dropWhile]
  · intro t head
    obtain ⟨rest, leads⟩ := trimTriviaEnd_leads (ts.dropWhile isTrivia)
    have first := List.head?_dropWhile_not isTrivia ts
    have kept : (trimTriviaEnd (ts.dropWhile isTrivia)).head? = some t := head
    rw [← leads, List.head?_append, kept, Option.some_or] at first
    exact first

/-- Without trivia at both ends tokens are what `trimTrivia` makes of them. -/
theorem trims_iff : Trims ts kept ↔ trimTrivia ts = kept := by
  constructor
  · rintro ⟨⟨front, back, rfl, before, after⟩, first, last⟩
    by_cases some_ : kept = []
    · subst some_
      have none_ : (front ++ ([] ++ back)).dropWhile isTrivia = [] := by
        rw [List.nil_append, List.dropWhile_append_of_pos before]
        exact List.dropWhile_eq_nil_iff.mpr after
      rw [trimTrivia, none_, trimTriviaEnd]
    · exact trimTrivia_between first last some_ before after
  · rintro rfl
    exact trims_trimTrivia ts

/-- Tokens whose last one that is no trivia is `t` are trimmed at the front and behind it. -/
theorem trimTrivia_concat {middle : Tokens} {first : Token TokenKind} (solid : isTrivia first = false)
    (own : isTrivia t = false) (after : ∀ u ∈ back, isTrivia u) :
    trimTrivia (front ++ first :: (middle ++ t :: back)) =
      front.dropWhile isTrivia ++ first :: (middle ++ [t]) := by
  apply trims_iff.mp
  refine ⟨⟨front.takeWhile isTrivia, back, ?_,
    fun u member => List.mem_takeWhile_imp member, after⟩, ?_, ?_⟩
  · rw [← List.append_assoc, ← List.append_assoc, List.takeWhile_append_dropWhile]
    simp
  · intro u head
    cases left : front.dropWhile isTrivia with
    | nil =>
        rw [left] at head
        exact Option.some.inj head ▸ solid
    | cons v more =>
        have stops := List.head?_dropWhile_not isTrivia front
        rw [left] at head stops
        exact Option.some.inj head ▸ stops
  · intro u final
    rw [List.getLast?_append, List.getLast?_cons, List.getLast?_concat] at final
    exact Option.some.inj final ▸ own

/-! ## Open brackets -/

/-- Number of brackets that are open after some tokens, `depth` of which are open before: those that
`opens` holds of count up, those that `closes` holds of count down, and never below zero. -/
def depthAfter (opens closes : Token TokenKind → Bool) (depth : Nat) (ts : Tokens) : Nat :=
  ts.foldl (fun depth t => if opens t then depth + 1 else if closes t then depth - 1 else depth) depth

variable {opens closes : Token TokenKind → Bool}

@[simp] theorem depthAfter_nil (depth : Nat) : depthAfter opens closes depth [] = depth := rfl

@[simp] theorem depthAfter_cons (depth : Nat) (t : Token TokenKind) (ts : Tokens) :
    depthAfter opens closes depth (t :: ts) = depthAfter opens closes
      (if opens t then depth + 1 else if closes t then depth - 1 else depth) ts := rfl

theorem depthAfter_append (depth : Nat) (ts more : Tokens) :
    depthAfter opens closes depth (ts ++ more) =
      depthAfter opens closes (depthAfter opens closes depth ts) more :=
  List.foldl_append ..

/-- **No more than `k` brackets are open** if in whatever comes last no more than that many open than
close. By induction on the tokens from their end. -/
theorem depthAfter_le_iff (apart : ∀ t, opens t → closes t = false) (ts : Tokens) (k : Nat) :
    depthAfter opens closes 0 ts ≤ k ↔
      ∀ part, part <:+ ts → part.countP opens ≤ part.countP closes + k := by
  induction ts using List.reverseRecOn generalizing k with
  | nil => simp
  | append_singleton ts t ih =>
      have last (P : Tokens → Prop) :
          (∀ part, part <:+ ts ++ [t] → P part) ↔ P [] ∧ ∀ part, part <:+ ts → P (part ++ [t]) := by
        simp only [List.suffix_concat_iff, or_imp, forall_and, forall_eq]
        exact and_congr_right fun _ => ⟨fun each part within => each _ ⟨part, rfl, within⟩,
          fun each _ ⟨part, same, within⟩ => same ▸ each part within⟩
      have none_ : ([] : Tokens).countP opens ≤ ([] : Tokens).countP closes + k := Nat.zero_le _
      rw [depthAfter_append, last, and_iff_right none_]
      simp only [depthAfter_cons, depthAfter_nil, List.countP_append, List.countP_singleton]
      by_cases opening : opens t
      · simp only [opening, apart t opening, if_true, Bool.false_eq_true, if_false, Nat.add_zero]
        cases k with
        | zero =>
            refine iff_of_false (Nat.not_succ_le_zero _) fun each => ?_
            exact absurd (each [] List.nil_suffix) (by simp)
        | succ k =>
            rw [Nat.succ_le_succ_iff, ih]
            exact forall₂_congr fun part _ => by omega
      by_cases closing : closes t
      · simp only [opening, closing, if_true, Bool.false_eq_true, if_false, Nat.add_zero]
        rw [Nat.sub_le_iff_le_add, ih]
        exact forall₂_congr fun part _ => by omega
      · simp only [opening, closing, Bool.false_eq_true, if_false, Nat.add_zero]
        exact ih k

end PageLint.Css
