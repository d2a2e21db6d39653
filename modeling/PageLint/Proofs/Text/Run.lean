/-
# PageLint.Proofs.Text.Run — a lexer taken turn by turn

`cut` always takes the first character, whatever a scan answers. A lexer that counts
every character it takes has to earn that: a `Turn` may take none, and may ask for more
than is left. `Run` is such a lexer at work, one derivation for one finite sequence of
turns: an idle turn changes the state only, any other one takes exactly as many
characters as it says, and these are there.

`Scans turn scan rank` is what makes the two agree: a turn asks for what there is, an
idle turn lowers the rank of the state, and a scan is what the turns come to. Then the
lexer ends on every text with the tokens that `cut` makes (`run_cut`).
-/
import PageLint.Proofs.Text.Tiling

namespace PageLint

set_option autoImplicit false

/-- One turn of a lexer: how many characters it takes, the kind of the piece they make,
and the state it leaves. -/
structure Turn (σ κ : Type) where
  kind : κ
  extent : Nat
  state : σ

variable {σ κ : Type}

/-- The lexer reads a text that begins at a place, turn by turn to the end, and these are
its tokens. -/
inductive Run (turn : σ → Char → List Char → Turn σ κ) :
    σ → Position → List Char → List (Token κ) → Prop
  | done {s : σ} {p : Position} : Run turn s p [] []
  | idle {s : σ} {p : Position} {c : Char} {rest : List Char} {ts : List (Token κ)} :
      (turn s c rest).extent = 0 → Run turn (turn s c rest).state p (c :: rest) ts →
      Run turn s p (c :: rest) ts
  | take {s : σ} {p : Position} {c : Char} {rest part left : List Char} {ts : List (Token κ)} :
      part ≠ [] → part.length = (turn s c rest).extent → part ++ left = c :: rest →
      Run turn (turn s c rest).state (p.after part) left ts →
      Run turn s p (c :: rest) (⟨(turn s c rest).kind, part, .covering p part⟩ :: ts)

/-- The scans are what the turns come to. -/
structure Scans (turn : σ → Char → List Char → Turn σ κ)
    (scan : σ → Char → List Char → Scan σ κ) (rank : σ → Nat) : Prop where
  fits : ∀ s c rest, (turn s c rest).extent ≤ (c :: rest).length
  idle : ∀ s c rest, (turn s c rest).extent = 0 →
    rank (turn s c rest).state < rank s ∧ scan (turn s c rest).state c rest = scan s c rest
  takes : ∀ s c rest, (turn s c rest).extent ≠ 0 →
    scan s c rest = ⟨(turn s c rest).kind, (turn s c rest).extent - 1, (turn s c rest).state⟩

/-- **The lexer ends, with the pieces of the cut.** The induction is on the text that is
left, and on the rank of the state where a turn takes none of it. -/
theorem run_cut {turn : σ → Char → List Char → Turn σ κ}
    {scan : σ → Char → List Char → Scan σ κ} {rank : σ → Nat} (scans : Scans turn scan rank)
    (s : σ) (p : Position) (cs : List Char) : Run turn s p cs (locate p (cut scan s cs)) := by
  match cs with
  | [] =>
      rw [cut_nil]
      exact .done
  | c :: rest =>
      by_cases idle : (turn s c rest).extent = 0
      · obtain ⟨lower, same⟩ := scans.idle s c rest idle
        have further := run_cut scans (turn s c rest).state p (c :: rest)
        rw [cut_cons, same, ← cut_cons] at further
        exact .idle idle further
      · have takes := scans.takes s c rest idle
        have fits := scans.fits s c rest
        rw [cut_cons, locate, takes]
        simp only [List.length_cons] at fits
        refine .take (List.cons_ne_nil _ _) ?_ ?_ (run_cut scans _ _ _)
        · simp only [List.length_cons, List.length_take]
          omega
        · rw [List.cons_append, List.take_append_drop]
termination_by (cs.length, rank s)
decreasing_by
  · exact Prod.Lex.right _ lower
  · apply Prod.Lex.left
    simp only [List.length_drop, List.length_cons]
    omega

/-- The tokens of a run tile the text it reads. -/
theorem Run.tiles {turn : σ → Char → List Char → Turn σ κ} {s : σ} {p : Position}
    {cs : List Char} {ts : List (Token κ)} (run : Run turn s p cs ts) : Tiles p cs ts := by
  induction run with
  | done => exact tiles_nil _
  | idle _ _ ih => exact ih
  | take some_ _ whole _ ih =>
      rw [← whole]
      exact ih.cons _ some_

end PageLint
