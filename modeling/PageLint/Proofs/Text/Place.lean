/-
# PageLint.Proofs.Text.Place — how places of a text compare

Moving over a text adds its bytes to the offset and moves on in reading order,
line by line and column by column (`precedes_after`). So of two places of one text
offset, line and column tell the same story.

`shift` moves the places of a text to where they lie in a larger one. It commutes
with every way in which a place is made or chosen: with moving on (`shift_after`),
and with taking the earlier or the later of two places (`shift_earlier`,
`shift_later`). Lines and columns count from one, which `Counted` says.
-/
import Mathlib
import PageLint.Text.Source

namespace PageLint

set_option autoImplicit false

namespace Text

/-- Number of bytes of a text. -/
def bytes (cs : List Char) : Nat := (cs.map Char.utf8Size).sum

@[simp] theorem bytes_nil : bytes [] = 0 := rfl

@[simp] theorem bytes_cons (c : Char) (cs : List Char) :
    bytes (c :: cs) = c.utf8Size + bytes cs := by
  simp [bytes]

@[simp] theorem bytes_append (cs ds : List Char) : bytes (cs ++ ds) = bytes cs + bytes ds := by
  simp [bytes]

theorem bytes_pos {cs : List Char} (some_ : cs ≠ []) : 0 < bytes cs := by
  cases cs with
  | nil => exact absurd rfl some_
  | cons c cs =>
      have := c.utf8Size_pos
      rw [bytes_cons]
      omega

end Text

open Text

theorem Source.byteLength_eq (src : Source) : src.byteLength = bytes src.text := by
  have fold : ∀ n, src.text.foldl (fun n c => n + c.utf8Size) n = n + bytes src.text := by
    induction src.text with
    | nil => intro n; rfl
    | cons c cs ih => intro n; rw [List.foldl_cons, ih, bytes_cons, Nat.add_assoc]
  rw [byteLength, fold, Nat.zero_add]

namespace Position

/-! ## Moving on -/

@[simp] theorem offset_next (p : Position) (c : Char) :
    (p.next c).offset = p.offset + c.utf8Size := by
  unfold next; split <;> rfl

@[simp] theorem offset_after (p : Position) (cs : List Char) :
    (p.after cs).offset = p.offset + bytes cs := by
  induction cs generalizing p with
  | nil => rfl
  | cons c cs ih => rw [after_cons, ih, offset_next, bytes_cons]; omega

/-- Lines and columns count from one. -/
def Counted (p : Position) : Prop := 1 ≤ p.line ∧ 1 ≤ p.column

theorem counted_start : start.Counted := ⟨le_rfl, le_rfl⟩

theorem Counted.next {p : Position} (counted : p.Counted) (c : Char) : (p.next c).Counted := by
  obtain ⟨line, column⟩ := counted
  unfold Position.next
  split
  · exact ⟨by simp, le_rfl⟩
  · exact ⟨line, by simp⟩

theorem Counted.after {p : Position} (counted : p.Counted) (cs : List Char) :
    (p.after cs).Counted := by
  induction cs generalizing p with
  | nil => exact counted
  | cons c cs ih => exact ih (counted.next c)

/-- Reading order: by line, then by column. -/
def Precedes (p q : Position) : Prop := p.line < q.line ∨ p.line = q.line ∧ p.column < q.column

theorem Precedes.trans {p q r : Position} (pq : p.Precedes q) (qr : q.Precedes r) :
    p.Precedes r := by
  unfold Precedes at *; omega

theorem Precedes.asymm {p q : Position} (pq : p.Precedes q) : ¬ q.Precedes p := by
  unfold Precedes at *; omega

theorem precedes_next (p : Position) (c : Char) : p.Precedes (p.next c) := by
  unfold Precedes next
  split
  · left; simp
  · right; simp

theorem precedes_after (p : Position) {cs : List Char} (some_ : cs ≠ []) :
    p.Precedes (p.after cs) := by
  induction cs generalizing p with
  | nil => exact absurd rfl some_
  | cons c cs ih =>
      rw [after_cons]
      by_cases done : cs = []
      · subst done
        exact p.precedes_next c
      · exact (p.precedes_next c).trans (ih (p.next c) done)

/-! ## The earlier and the later of two places -/

theorem before_iff {p q : Position} :
    p.before q = true ↔ p.offset < q.offset ∨
      p.offset = q.offset ∧ (p.line < q.line ∨ p.line = q.line ∧ p.column < q.column) := by
  simp only [before, Bool.or_eq_true, Bool.and_eq_true, decide_eq_true_eq, beq_iff_eq]

theorem offset_le_of_before {p q : Position} (earlier : p.before q = true) :
    p.offset ≤ q.offset := by
  rw [before_iff] at earlier
  omega

theorem offset_le_of_not_before {p q : Position} (notEarlier : ¬ p.before q = true) :
    q.offset ≤ p.offset := by
  rw [before_iff] at notEarlier
  omega

theorem offset_earlier_le (p q : Position) :
    (p.earlier q).offset ≤ p.offset ∧ (p.earlier q).offset ≤ q.offset := by
  unfold earlier
  split
  · rename_i h
    exact ⟨offset_le_of_before h, le_rfl⟩
  · rename_i h
    exact ⟨le_rfl, offset_le_of_not_before h⟩

theorem le_offset_later (p q : Position) :
    p.offset ≤ (p.later q).offset ∧ q.offset ≤ (p.later q).offset := by
  unfold later
  split
  · rename_i h
    exact ⟨offset_le_of_before h, le_rfl⟩
  · rename_i h
    exact ⟨le_rfl, offset_le_of_not_before h⟩

theorem earlier_eq_or (p q : Position) : p.earlier q = p ∨ p.earlier q = q := by
  unfold earlier; split <;> simp

theorem later_eq_or (p q : Position) : p.later q = p ∨ p.later q = q := by
  unfold later; split <;> simp

/-- Of two places the one that is reached from the other is the later one. -/
theorem before_after_iff {p : Position} {cs : List Char} : p.before (p.after cs) ↔ cs ≠ [] := by
  refine ⟨?_, fun some_ => ?_⟩
  · rintro before rfl
    simp [before_iff] at before
  · have further := bytes_pos some_
    rw [before_iff, offset_after]
    omega

theorem earlier_after (p : Position) (cs : List Char) : p.earlier (p.after cs) = p := by
  refine if_neg fun before => ?_
  rw [before_iff, offset_after] at before
  have none_ : cs = [] := by
    by_contra some_
    have further := bytes_pos some_
    omega
  subst none_
  simp at before

theorem later_after (p : Position) (cs : List Char) : p.later (p.after cs) = p.after cs := by
  by_cases none_ : cs = []
  · subst none_
    exact if_neg (mt before_after_iff.mp (by simp))
  · exact if_pos (before_after_iff.mpr none_)

theorem offset_earlier (p q : Position) : (p.earlier q).offset = min p.offset q.offset := by
  have le := offset_earlier_le p q
  rcases earlier_eq_or p q with eq | eq <;> rw [eq] at le ⊢ <;> omega

theorem offset_later (p q : Position) : (p.later q).offset = max p.offset q.offset := by
  have le := le_offset_later p q
  rcases later_eq_or p q with eq | eq <;> rw [eq] at le ⊢ <;> omega

/-! ## Shifting -/

variable {o : Position}

@[simp] theorem shift_start (o : Position) : o.shift start = o := by
  cases o; simp [shift, start]

@[simp] theorem offset_shift (o p : Position) : (o.shift p).offset = p.offset + o.offset := rfl

theorem Counted.shift {p : Position} (origin : o.Counted) (counted : p.Counted) :
    (o.shift p).Counted := by
  obtain ⟨line, column⟩ := origin
  obtain ⟨line', column'⟩ := counted
  simp only [Counted, Position.shift]
  refine ⟨by omega, ?_⟩
  split <;> omega

theorem shift_next {p : Position} (origin : o.Counted) (counted : p.Counted) (c : Char) :
    o.shift (p.next c) = (o.shift p).next c := by
  obtain ⟨line, column⟩ := origin
  obtain ⟨line', column'⟩ := counted
  by_cases feed : c = '\n'
  · simp only [next, feed, if_true, shift, mk.injEq]
    refine ⟨by omega, by omega, ?_⟩
    rw [if_neg (by omega)]
  · simp only [next, feed, if_false, shift, mk.injEq]
    refine ⟨by omega, trivial, ?_⟩
    split <;> omega

theorem shift_after {p : Position} (origin : o.Counted) (counted : p.Counted) (cs : List Char) :
    o.shift (p.after cs) = (o.shift p).after cs := by
  induction cs generalizing p with
  | nil => rfl
  | cons c cs ih => rw [after_cons, after_cons, ih (counted.next c), shift_next origin counted]

/-- A place of a text that begins at `o`, by way of its place when the text begins
a file. -/
theorem shift_start_after (origin : o.Counted) (cs : List Char) :
    o.shift (start.after cs) = o.after cs := by
  rw [shift_after origin counted_start, shift_start]

theorem before_shift (origin : o.Counted) (p q : Position) :
    (o.shift p).before (o.shift q) = p.before q := by
  obtain ⟨line, column⟩ := origin
  have lines : ∀ m n, m + o.line - 1 < n + o.line - 1 ↔ m < n := by omega
  have sameLine : ∀ m n, m + o.line - 1 = n + o.line - 1 ↔ m = n := by omega
  have columns : ∀ m n, m + o.column - 1 < n + o.column - 1 ↔ m < n := by omega
  rw [Bool.eq_iff_iff, before_iff, before_iff]
  simp only [shift, Nat.add_lt_add_iff_right, Nat.add_right_cancel_iff, lines, sameLine]
  by_cases same : p.line = q.line
  · rw [same]
    split <;> simp [columns]
  · simp [same]

theorem shift_earlier (origin : o.Counted) (p q : Position) :
    o.shift (p.earlier q) = (o.shift p).earlier (o.shift q) := by
  simp only [earlier, before_shift origin]; split <;> rfl

theorem shift_later (origin : o.Counted) (p q : Position) :
    o.shift (p.later q) = (o.shift p).later (o.shift q) := by
  simp only [later, before_shift origin]; split <;> rfl

end Position

namespace Span

variable {o : Position}

@[simp] theorem shift_mk (o p q : Position) : shift o ⟨p, q⟩ = ⟨o.shift p, o.shift q⟩ := rfl

@[simp] theorem start_shift (o : Position) (s : Span) : (s.shift o).start = o.shift s.start := rfl

@[simp] theorem finish_shift (o : Position) (s : Span) :
    (s.shift o).finish = o.shift s.finish := rfl

theorem shift_emptyAt (o p : Position) : shift o (emptyAt p) = emptyAt (o.shift p) := rfl

theorem shift_covering {p : Position} (origin : o.Counted) (counted : p.Counted)
    (cs : List Char) : shift o (covering p cs) = covering (o.shift p) cs := by
  simp [covering, Position.shift_after origin counted]

theorem shift_join (origin : o.Counted) (s t : Span) :
    shift o (s.join t) = (s.shift o).join (t.shift o) := by
  simp [join, Position.shift_earlier origin, Position.shift_later origin]

/-- Two stretches, one right after the other. -/
theorem join_covering (p : Position) (cs ds : List Char) :
    (covering p cs).join (covering (p.after cs) ds) = covering p (cs ++ ds) := by
  simp only [join, covering, Position.earlier_after, Position.later_after, Position.after_append]

end Span

end PageLint
