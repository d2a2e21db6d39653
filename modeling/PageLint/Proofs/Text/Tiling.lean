/-
# PageLint.Proofs.Text.Tiling — tokens that lie end to end

`Tiles p cs ts` says that the tokens `ts` are the text `cs`, cut up and laid out from
`p` on: no token is empty, each ends where its text ends and the next one begins, and
nothing is left over.

A passage `Reads` tokens that stand in it one after the other, with or without gaps.
Every sublist of what it reads it reads as well, so the pieces that are picked out of
the tokens keep their places and their order.
-/
import PageLint.Proofs.Text.Passage
import PageLint.Text.Token

namespace PageLint

set_option autoImplicit false

open Text

variable {κ : Type}

/-- Of two entries of a list in order, the one or the other comes first. -/
theorem rel_or_rel_of_mem {α : Type} {R : α → α → Prop} {xs : List α} (ordered : xs.Pairwise R)
    {x y : α} (one : x ∈ xs) (other : y ∈ xs) (different : x ≠ y) : R x y ∨ R y x := by
  induction ordered with
  | nil => cases one
  | cons first _ ih =>
      rcases List.mem_cons.mp one with rfl | oneLater
      · rcases List.mem_cons.mp other with rfl | otherLater
        · exact absurd rfl different
        · exact .inl (first y otherLater)
      · rcases List.mem_cons.mp other with rfl | otherLater
        · exact .inr (first x oneLater)
        · exact ih oneLater otherLater

/-- The tokens are the text, end to end from a place on. -/
structure Tiles (p : Position) (cs : List Char) (ts : List (Token κ)) : Prop where
  nonempty : ∀ t ∈ ts, t.text ≠ []
  text : textOf ts = cs
  first : ∀ t, ts.head? = some t → t.span.start = p
  ends : ∀ t ∈ ts, t.span.finish = t.span.start.after t.text
  contiguous : ts.IsChain fun t u => t.span.finish = u.span.start
  last : ∀ t, ts.getLast? = some t → t.span.finish = p.after cs

theorem mem_of_mem_locate {p : Position} {pieces : List (Lexeme κ)} {t : Token κ}
    (member : t ∈ locate p pieces) : ⟨t.kind, t.text⟩ ∈ pieces := by
  induction pieces generalizing p with
  | nil => simp [locate] at member
  | cons piece pieces ih =>
      rcases List.mem_cons.mp member with rfl | later
      · exact List.mem_cons_self
      · exact List.mem_cons_of_mem _ (ih later)

theorem locate_append (p : Position) (pieces more : List (Lexeme κ)) :
    locate p (pieces ++ more) =
      locate p pieces ++ locate (p.after (pieces.flatMap Lexeme.text)) more := by
  induction pieces generalizing p with
  | nil => rfl
  | cons piece pieces ih => simp [locate, ih, Position.after_append]

theorem tiles_nil (p : Position) : Tiles p [] ([] : List (Token κ)) :=
  ⟨by simp, rfl, by simp, by simp, .nil, by simp⟩

/-- The tokens of a tiling are not empty. -/
theorem Tiles.offset_lt {p : Position} {cs : List Char} {ts : List (Token κ)} {t : Token κ}
    (tiles : Tiles p cs ts) (member : t ∈ ts) : t.span.start.offset < t.span.finish.offset := by
  have positive := bytes_pos (tiles.nonempty t member)
  rw [tiles.ends t member, Position.offset_after]
  omega

/-- One more token in front of a tiling. -/
theorem Tiles.cons {p : Position} {part left : List Char} {ts : List (Token κ)} (kind : κ)
    (some_ : part ≠ []) (tiles : Tiles (p.after part) left ts) :
    Tiles p (part ++ left) (⟨kind, part, .covering p part⟩ :: ts) where
  nonempty := by
    intro t member
    rcases List.mem_cons.mp member with rfl | member
    · exact some_
    · exact tiles.nonempty t member
  text := by rw [← tiles.text]; rfl
  first := by
    intro t head
    rw [← Option.some.inj head]
    rfl
  ends := by
    intro t member
    rcases List.mem_cons.mp member with rfl | member
    · rfl
    · exact tiles.ends t member
  contiguous := List.isChain_cons.mpr
    ⟨fun t head => (tiles.first t head).symm, tiles.contiguous⟩
  last := by
    intro t last
    rw [Position.after_append]
    cases ts with
    | nil =>
        have nothing : left = [] := tiles.text.symm
        rw [← Option.some.inj last, nothing]
        rfl
    | cons u us => exact tiles.last t last

/-- The stretch of tokens begins with one of them and ends with one of them. -/
theorem spanOf?_eq_some {ts : List (Token κ)} {s : Span} (span : spanOf? ts = some s) :
    ∃ first ∈ ts, ∃ last ∈ ts, s = ⟨first.span.start, last.span.finish⟩ := by
  rw [spanOf?] at span
  split at span
  next first last head tail =>
    exact ⟨first, List.mem_of_mem_head? head, last, List.mem_of_getLast? tail,
      (Option.some.inj span).symm⟩
  next => simp at span

/-- **A token in its text**: what stands before it is the text of the tokens before it, it is what one
scan cuts off there, and the tokens behind it are cut off the rest, in the state that this scan leaves. -/
theorem locate_cut_split {σ : Type} {scan : σ → Char → List Char → Scan σ κ} {I : σ → Prop}
    (keeps : ∀ s c rest, I s → I (scan s c rest).state) {s : σ} {p : Position} {cs : List Char}
    {before later : List (Token κ)} {t : Token κ} (begins : I s)
    (split : locate p (cut scan s cs) = before ++ t :: later) :
    ∃ s' c rest, I s' ∧ cs = textOf before ++ c :: rest ∧ t.kind = (scan s' c rest).kind ∧
      t.text = c :: rest.take (scan s' c rest).more ∧
      t.span = .covering (p.after (textOf before)) t.text ∧
      later = locate t.span.finish
        (cut scan (scan s' c rest).state (rest.drop (scan s' c rest).more)) := by
  induction before generalizing s p cs with
  | nil =>
      cases cs with
      | nil => simp [locate] at split
      | cons c rest =>
          rw [cut_cons, locate] at split
          obtain ⟨rfl, rfl⟩ := List.cons.inj split
          exact ⟨s, c, rest, begins, rfl, rfl, rfl, rfl, rfl⟩
  | cons u before ih =>
      cases cs with
      | nil => simp [locate] at split
      | cons c rest =>
          rw [cut_cons, locate] at split
          obtain ⟨rfl, left⟩ := List.cons.inj split
          obtain ⟨s', d, tail, inside, whole, kind, text, span, after⟩ :=
            ih (keeps s c rest begins) left
          have texts : textOf (⟨(scan s c rest).kind, c :: rest.take (scan s c rest).more,
              .covering p (c :: rest.take (scan s c rest).more)⟩ :: before) =
              c :: rest.take (scan s c rest).more ++ textOf before := rfl
          refine ⟨s', d, tail, inside, ?_, kind, text, ?_, after⟩
          · rw [texts, List.append_assoc, ← whole, List.cons_append, List.take_append_drop]
          · rw [texts, Position.after_append]
            exact span

namespace Passage

variable {g : Passage} {ts us : List (Token κ)} {t u : Token κ}

/-- Tokens stand in the passage, one after the other. -/
structure Reads (g : Passage) (ts : List (Token κ)) : Prop where
  shows : ∀ t ∈ ts, g.Shows t.span t.text
  ordered : ts.Pairwise fun t u => t.span.finish.offset ≤ u.span.start.offset

theorem Reads.sublist (reads : g.Reads ts) (fewer : us.Sublist ts) : g.Reads us :=
  ⟨fun t member => reads.shows t (fewer.subset member), reads.ordered.sublist fewer⟩

theorem Reads.covers (reads : g.Reads ts) (member : t ∈ ts) : g.Covers t.span :=
  (reads.shows t member).covers

theorem reads_nil : g.Reads ([] : List (Token κ)) := ⟨by simp, .nil⟩

/-- No later token of a reading ends before its first one. -/
theorem Reads.finish_le (reads : g.Reads (t :: ts)) (member : u ∈ t :: ts) :
    t.span.finish.offset ≤ u.span.finish.offset := by
  rcases List.mem_cons.mp member with rfl | later
  · exact le_rfl
  · calc t.span.finish.offset ≤ u.span.start.offset := List.rel_of_pairwise_cons reads.ordered later
      _ ≤ u.span.finish.offset := (reads.covers member).offset_le

/-- From a token of a reading to a later one. -/
theorem Reads.covers_between (reads : g.Reads (t :: ts)) (member : u ∈ t :: ts) :
    g.Covers ⟨t.span.start, u.span.finish⟩ := by
  have first := reads.covers List.mem_cons_self
  exact first.start.covers (reads.covers member).finish
    (first.offset_le.trans (reads.finish_le member))

/-- Of two tokens of a reading one ends before the other begins. -/
theorem Reads.apart (reads : g.Reads ts) (one : t ∈ ts) (other : u ∈ ts) (different : t ≠ u) :
    t.span.finish.offset ≤ u.span.start.offset ∨ u.span.finish.offset ≤ t.span.start.offset :=
  rel_or_rel_of_mem reads.ordered one other different

/-- No two tokens of a reading end at one place. -/
theorem Reads.eq_of_finish (reads : g.Reads ts)
    (nonempty : ∀ t ∈ ts, t.span.start.offset < t.span.finish.offset) (one : t ∈ ts) (other : u ∈ ts)
    (same : t.span.finish = u.span.finish) : t = u := by
  by_contra different
  have place := congrArg Position.offset same
  have own := nonempty t one
  have own' := nonempty u other
  rcases reads.apart one other different with before | after <;> omega

/-- Of tokens that stand one after the other, no two lie at one place. -/
theorem Reads.nodup_spans (reads : g.Reads ts)
    (nonempty : ∀ t ∈ ts, t.span.start.offset < t.span.finish.offset) :
    (ts.map Token.span).Nodup := by
  refine List.pairwise_map.mpr (reads.ordered.imp_of_mem ?_)
  intro t u member _ before same
  have some_ := nonempty t member
  rw [← same] at before
  omega

theorem Reads.covers_spanOf? (reads : g.Reads ts) {s : Span} (span : spanOf? ts = some s) :
    g.Covers s := by
  cases ts with
  | nil => simp [spanOf?] at span
  | cons first rest =>
      simp only [spanOf?, List.head?_cons, List.getLast?_cons] at span
      rw [← Option.some.inj span]
      apply reads.covers_between
      cases final : rest.getLast? with
      | none => simp
      | some last => simpa using .inr (List.mem_of_getLast? final)

/-- Located pieces stand in the passage that they are cut from. -/
theorem reads_locate (pieces : List (Lexeme κ)) (passed : List Char)
    (standing : passed ++ (pieces.map Lexeme.text).flatten <+: g.text) :
    g.Reads (locate (g.origin.after passed) pieces) := by
  induction pieces generalizing passed with
  | nil => exact reads_nil
  | cons piece pieces ih =>
      rw [List.map_cons, List.flatten_cons, ← List.append_assoc] at standing
      have later := ih (passed ++ piece.text) standing
      rw [Position.after_append] at later
      constructor
      · intro t member
        rcases List.mem_cons.mp member with rfl | member
        · exact ⟨⟨passed, (List.prefix_append _ _).trans standing, rfl⟩, rfl⟩
        · exact later.shows t member
      · refine List.pairwise_cons.mpr ⟨?_, later.ordered⟩
        intro t member
        clear later ih standing
        simp only [Span.covering_finish]
        generalize (g.origin.after passed).after piece.text = p at member
        induction pieces generalizing p with
        | nil => simp [locate] at member
        | cons next pieces ih =>
            rcases List.mem_cons.mp member with rfl | member
            · exact le_rfl
            · have := ih _ member
              rw [Position.offset_after] at this
              omega

theorem reads_cut {σ : Type} (scan : σ → Char → List Char → Scan σ κ) (state : σ)
    (g : Passage) : g.Reads (locate g.origin (cut scan state g.text)) :=
  reads_locate (cut scan state g.text) [] (by simp [texts_cut])

end Passage

end PageLint
