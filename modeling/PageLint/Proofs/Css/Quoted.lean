/-
# PageLint.Proofs.Css.Quoted — strings, and the quotes around them

A string begins with a quote and ends with the next such quote that no backslash escapes, on the same
line. `Quotable q` says what may stand between two quotes `q`: the measure of strings ends with the
second one if, and only if, such characters stand before it (`stringExtent_iff`). So a token that is a
string is a quote, what may stand there, and the quote again (`exists_quotable`).

The same characters stand between the other quotes if they may. Then a stylesheet in which these take
the place of the quotes of one string has the same tokens but for this one; else it has not
(`requoted_iff`). The tokens in front do not change, for one quote looks to them like the other.
-/
import PageLint.Proofs.Css.Kinds
import PageLint.Proofs.Css.Splice

namespace PageLint.Css

set_option autoImplicit false

open Text

variable {q q' : Char} {inner rest cs : List Char}

/-! ## What stands between quotes -/

/-- **The characters of a string between its quotes `q`**: none is a line feed or the quote, unless a
backslash stands in front of it. -/
inductive Quotable (q : Char) : List Char → Prop
  | nil : Quotable q []
  | plain {c : Char} {cs : List Char} : c ≠ '\n' → c ≠ '\\' → c ≠ q → Quotable q cs → Quotable q (c :: cs)
  | escape (c : Char) {cs : List Char} : Quotable q cs → Quotable q ('\\' :: c :: cs)

theorem stringExtent_quotable (quote : isQuote q) (body : Quotable q inner) (rest : List Char) :
    stringExtent q (inner ++ q :: rest) = (inner.length + 1, true) := by
  induction body with
  | nil => exact stringExtent_close quote rest
  | plain feed escape other _ ih =>
      rw [List.cons_append, stringExtent_plain feed escape other, ih, List.length_cons]
  | escape c _ ih =>
      rw [List.cons_append, List.cons_append, stringExtent_escape, ih, List.length_cons,
        List.length_cons]

/-- What stands before the quote that closes a string may stand there. -/
theorem exists_quotable_of_closed (closed : (stringExtent q cs).2) : ∃ inner rest,
    cs = inner ++ q :: rest ∧ Quotable q inner ∧ (stringExtent q cs).1 = inner.length + 1 := by
  fun_induction stringExtent q cs with
  | case1 => cases closed
  | case2 c => cases closed
  | case3 c =>
      have last : c ≠ '\\' ∧ c = q := by simpa using closed
      obtain rfl := last.2
      exact ⟨[], [], rfl, .nil, rfl⟩
  | case4 c d cs => cases closed
  | case5 c d cs feed escape n closed' extent ih =>
      obtain rfl : c = '\\' := by simpa using escape
      rw [extent] at ih
      obtain ⟨inner, rest, rfl, body, length⟩ := ih closed
      exact ⟨'\\' :: d :: inner, rest, rfl, .escape d body, by
        rw [show n = inner.length + 1 from length, List.length_cons, List.length_cons]⟩
  | case6 c d cs feed escape close =>
      obtain rfl : c = q := by simpa using close
      exact ⟨[], d :: cs, rfl, .nil, rfl⟩
  | case7 c d cs feed escape close n closed' extent ih =>
      rw [extent] at ih
      obtain ⟨inner, rest, whole, body, length⟩ := ih closed
      refine ⟨c :: inner, rest, by rw [whole, List.cons_append], ?_, by
        rw [show n = inner.length + 1 from length, List.length_cons]⟩
      exact .plain (by simpa using feed) (by simpa using escape) (by simpa using close) body

/-- **A string ends with a quote if, and only if, what stands before it may stand in a string.** -/
theorem stringExtent_iff (quote : isQuote q) :
    stringExtent q (inner ++ q :: rest) = (inner.length + 1, true) ↔ Quotable q inner := by
  refine ⟨fun extent => ?_, fun body => stringExtent_quotable quote body rest⟩
  have closed : (stringExtent q (inner ++ q :: rest)).2 := by rw [extent]
  obtain ⟨inner', rest', whole, body, length⟩ := exists_quotable_of_closed closed
  rw [extent] at length
  obtain ⟨rfl, -⟩ := List.append_inj whole (by simpa using length)
  exact body

/-- What does not hold the other quote may stand between two of it. -/
theorem Quotable.other (body : Quotable q inner) (plain : q' ∉ inner) : Quotable q' inner := by
  induction body with
  | nil => exact .nil
  | plain feed escape _ _ ih =>
      rw [List.mem_cons, not_or] at plain
      exact .plain feed escape (Ne.symm plain.1) (ih plain.2)
  | escape c _ ih =>
      simp only [List.mem_cons, not_or] at plain
      exact .escape c (ih plain.2.2)

/-! ## Strings as lexemes -/

theorem lexemeAt_quote (quote : isQuote q) (cs : List Char) : lexemeAt q cs =
    (if (stringExtent q cs).2 then .string else .badString, (stringExtent q cs).1 + 1) := by
  rcases isQuote_iff.mp quote with rfl | rfl <;> rfl

/-- **What may stand between quotes is cut as a string with them.** -/
theorem cut_string (quote : isQuote q) (body : Quotable q inner) (rest : List Char) :
    cut scan false (q :: (inner ++ q :: rest)) =
      ⟨.string, q :: (inner ++ [q])⟩ :: cut scan false rest := by
  have measured : lexemeAt q (inner ++ [q] ++ rest) = (.string, (q :: (inner ++ [q])).length) := by
    rw [List.append_assoc, List.singleton_append, lexemeAt_quote quote,
      stringExtent_quotable quote body]
    simp
  have cuts := cut_of_lexemeAt measured
  rwa [List.cons_append, List.append_assoc, List.singleton_append] at cuts

/-- A string in a text is a quote, what may stand there, and the quote again. -/
theorem exists_quotable {atHead : Bool} {piece : Lexeme TokenKind}
    (member : piece ∈ cut scan atHead cs) (kind : piece.kind = .string) :
    ∃ q inner, isQuote q ∧ Quotable q inner ∧ piece.text = q :: (inner ++ [q]) := by
  rcases exists_lexemeAt atHead cs piece member with rfl | ⟨q, rest, n, measured, text, -⟩
  · cases kind
  · rw [kind] at measured
    obtain ⟨quote, extent⟩ := quote_of_string measured
    obtain ⟨inner, more, rfl, quotable, length⟩ := exists_quotable_of_closed (by rw [extent])
    rw [lexemeAt_quote quote, length, Prod.mk.injEq] at measured
    refine ⟨q, inner, quote, quotable, ?_⟩
    rw [text, ← measured.2]
    simp [List.take_append]

/-! ## Other quotes -/

variable {front back : Tokens} {t : Token TokenKind} {origin : Position}

/-- The token with other quotes. -/
def requote (q : Char) (inner : List Char) (t : Token TokenKind) : Token TokenKind :=
  { t with text := q :: (inner ++ [q]) }

/-- **A stylesheet with other quotes around a string.** It has the same tokens, in the same places, but
for this string, if and only if what stands between its quotes may stand between the other ones. -/
theorem requoted_iff (quote : isQuote q) (quote' : isQuote q')
    (split : tokenize cs origin = front ++ t :: back) (kind : t.kind = .string)
    (text : t.text = q :: (inner ++ [q])) :
    tokenize (textOf front ++ (q' :: (inner ++ [q']) ++ textOf back)) origin =
      front ++ requote q' inner t :: back ↔ Quotable q' inner := by
  constructor
  · intro tokens
    have member : requote q' inner t ∈
        tokenize (textOf front ++ (q' :: (inner ++ [q']) ++ textOf back)) origin := by
      rw [tokens]
      simp
    obtain ⟨p, v, -, quotable, own⟩ := exists_quotable (mem_of_mem_locate member) kind
    obtain ⟨rfl, same⟩ := List.cons.inj own
    rwa [List.append_cancel_right same]
  · intro quotable
    have sign : isInert q' ∧ isBlank q' = false ∧ q' ≠ '\uFEFF' ∧ q ≠ '\n' := by
      rcases isQuote_iff.mp quote with rfl | rfl <;>
        rcases isQuote_iff.mp quote' with rfl | rfl <;> decide
    obtain ⟨inert, blank, mark, feed⟩ := sign
    have parted : tokenize cs origin = (front ++ [t]) ++ back := by
      rw [split, List.append_assoc]
      rfl
    have behind := cut_behind parted (by simp)
    have old : textOf ([] ++ t :: back) = q :: (inner ++ q :: textOf back) := by
      rw [List.nil_append, textOf_cons, text]
      simp
    have new : textOf ([] : Tokens) ++ (q' :: (inner ++ [q']) ++ textOf back) =
        q' :: (inner ++ q' :: textOf back) := by
      simp [textOf]
    have alike : Alike (textOf ([] ++ t :: back))
        (textOf ([] : Tokens) ++ (q' :: (inner ++ [q']) ++ textOf back)) := by
      rw [old, new]
      refine alike_of_inert inert (List.cons_ne_nil _ _) fun _ => ?_
      simp [trimStart, trimStartBy, blank, quote']
    have ends : ∀ u ∈ front.getLast?, EndsBefore (textOf ([] ++ t :: back))
        (textOf ([] : Tokens) ++ (q' :: (inner ++ [q']) ++ textOf back)) u.lexeme := by
      rw [old, new]
      exact fun u _ => ⟨by simp [blank], by simp [feed]⟩
    have own : cut scan false (textOf ([] : Tokens) ++ (q' :: (inner ++ [q']) ++ textOf back)) =
        [] ++ ⟨t.kind, q' :: (inner ++ [q'])⟩ :: back.map Token.lexeme := by
      rw [new, cut_string quote' quotable, behind, kind]
      rfl
    -- Both quotes take the same space.
    have wide : ∀ p : Position, p.after (q' :: (inner ++ [q'])) = p.after t.text := by
      intro p
      rw [text, Position.after_quoted quote' quote]
    exact tokenize_reworded split wide alike (by rw [new]; simpa using mark) ends own

end PageLint.Css
