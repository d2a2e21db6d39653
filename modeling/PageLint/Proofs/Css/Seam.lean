/-
# PageLint.Proofs.Css.Seam — a `;` parts a stylesheet

A lexeme that ends before a `;` does not look past it: a `;` holds nothing that a lexeme in front of
it would take in, whatever comes after it. A name may take it in through a backslash, and a string, a
comment or a `url(...)` that is still open there does; those do not end before it.

So where a text ends with a `;` that is a lexeme of its own, what is written after it is cut by
itself (`cut_append_semicolon`).
-/
import PageLint.Proofs.Css.Kinds
import PageLint.Proofs.Css.Lookahead

namespace PageLint.Css

set_option autoImplicit false

open Text

/-- **What is written after a `;` is cut by itself**, if the `;` is a lexeme of its own. -/
theorem cut_append_semicolon (cs more : List Char) {pieces : List (Lexeme TokenKind)}
    (cuts : cut scan false (cs ++ [';']) = pieces ++ [⟨.semicolon, [';']⟩]) :
    cut scan false (cs ++ ';' :: more) = pieces ++ ⟨.semicolon, [';']⟩ :: cut scan false more := by
  have alike : Alike [';'] (';' :: more) :=
    alike_of_inert (by decide) (List.cons_ne_nil _ _) fun quote => by cases quote
  have ends : ∀ piece ∈ pieces.getLast?, EndsBefore [';'] (';' :: more) piece := by
    refine fun piece _ => ⟨fun _ blank => ?_, fun feed => ?_⟩
    · cases blank
    · cases feed
  have texts : (pieces.map Lexeme.text).flatten = cs := by
    have whole := texts_cut scan false (cs ++ [';'])
    rw [cuts] at whole
    simpa using whole
  rw [cut_alike alike (by simp) ends cuts texts, cut_sign (by decide)]
  rfl

/-- **A stylesheet that ends with a `;` is cut as if nothing came after it**, and what comes after it
as if nothing stood before. -/
theorem cut_append {cs : List Char} {piece : Lexeme TokenKind}
    (last : (cut scan false cs).getLast? = some piece) (kind : piece.kind = .semicolon)
    (more : List Char) : cut scan false (cs ++ more) = cut scan false cs ++ cut scan false more := by
  obtain ⟨pieces, cuts⟩ := List.getLast?_eq_some_iff.mp last
  have text : piece.text = [';'] :=
    text_of_sign (by decide) (List.mem_of_getLast? last) kind
  obtain rfl : piece = ⟨.semicolon, [';']⟩ := by rw [← kind, ← text]
  have whole := texts_cut scan false cs
  rw [cuts, List.map_append, List.flatten_append] at whole
  obtain rfl : (pieces.map Lexeme.text).flatten ++ [';'] = cs := by simpa using whole
  rw [List.append_assoc, List.singleton_append, cut_append_semicolon _ more cuts, cuts,
    List.append_assoc, List.singleton_append]

end PageLint.Css
