/-
# PageLint.Proofs.Text.Passage — what a text holds where

A `Passage` is a text together with the place where it begins in a file: a whole
file, or a stylesheet inside a page. A place that the passage `Marks` falls between
two of its characters, and is where its offset, its line and its column all say it
is; a stretch that it `Covers` runs from one such place to a later one.

Marked places are told apart by their offsets, and just as well by line and column
(`Marks.precedes_iff`). The text of a covered stretch is what `Source.slice` cuts out
(`slice_of_holds`), and a stretch cut out of a part of a file is the shifted stretch
cut out of the file (`slice_shift`).
-/
import PageLint.Proofs.Text.Place

namespace PageLint

set_option autoImplicit false

open Text

/-- A text together with the place where it begins in a file. -/
structure Passage where
  text : List Char
  origin : Position

namespace Passage

/-- The passage that is a whole file. -/
def whole (cs : List Char) : Passage := ⟨cs, .start⟩

/-- `part` stands in the passage and begins at `p`. -/
def Holds (g : Passage) (p : Position) (part : List Char) : Prop :=
  ∃ passed, passed ++ part <+: g.text ∧ p = g.origin.after passed

/-- `p` is the place of a character of the passage, or that of its end. -/
def Marks (g : Passage) (p : Position) : Prop := g.Holds p []

/-- `s` is the stretch of a part of the passage. -/
def Covers (g : Passage) (s : Span) : Prop :=
  ∃ part, g.Holds s.start part ∧ s.finish = s.start.after part

/-- `s` is the stretch of `text`, which stands in the passage. -/
def Shows (g : Passage) (s : Span) (text : List Char) : Prop :=
  g.Holds s.start text ∧ s.finish = s.start.after text

variable {g : Passage} {p q : Position} {part more : List Char} {s t : Span}

/-! ## Parts of a passage -/

theorem holds_origin (g : Passage) : g.Holds g.origin g.text := ⟨[], by simp, rfl⟩

theorem Holds.left (holds : g.Holds p (part ++ more)) : g.Holds p part := by
  obtain ⟨passed, standing, place⟩ := holds
  refine ⟨passed, ?_, place⟩
  rw [← List.append_assoc] at standing
  exact (List.prefix_append _ _).trans standing

theorem Holds.right (holds : g.Holds p (part ++ more)) : g.Holds (p.after part) more := by
  obtain ⟨passed, standing, rfl⟩ := holds
  refine ⟨passed ++ part, ?_, ?_⟩
  · rwa [List.append_assoc]
  · rw [Position.after_append]

theorem Holds.tail {c : Char} (holds : g.Holds p (c :: part)) : g.Holds (p.next c) part := by
  have parted : g.Holds p ([c] ++ part) := holds
  exact parted.right

theorem Holds.leading (holds : g.Holds p part) (begins : more <+: part) : g.Holds p more := by
  obtain ⟨rest, rfl⟩ := begins
  exact holds.left

/-- What a text ends with stands where the text before it ends. -/
theorem Holds.ending (holds : g.Holds p part) (ends : more <:+ part) :
    g.Holds (p.after (part.take (part.length - more.length))) more := by
  obtain ⟨front, rfl⟩ := ends
  have cut : (front ++ more).take ((front ++ more).length - more.length) = front := by simp
  rw [cut]
  exact holds.right

theorem Holds.marks (holds : g.Holds p part) : g.Marks p := by
  have parted : g.Holds p ([] ++ part) := holds
  exact parted.left

theorem Holds.marks_after (holds : g.Holds p part) : g.Marks (p.after part) := by
  rw [← List.append_nil part] at holds
  exact holds.right

theorem Holds.covers (holds : g.Holds p part) : g.Covers (.covering p part) :=
  ⟨part, holds, rfl⟩

/-- What a part of a passage holds, the passage holds. -/
theorem Holds.within {h : Passage} (holds : h.Holds p part)
    (inside : g.Holds h.origin h.text) : g.Holds p part := by
  obtain ⟨passed, ⟨rest, whole⟩, rfl⟩ := holds
  rw [← whole, List.append_assoc] at inside
  exact inside.right.left

/-! ## Marked places -/

theorem Marks.counted (origin : g.origin.Counted) (marked : g.Marks p) : p.Counted := by
  obtain ⟨passed, -, rfl⟩ := marked
  exact origin.after passed

/-- Of two places of a passage, the later one is reached from the other. -/
theorem Marks.reach (here : g.Marks p) (there : g.Marks q) :
    (∃ part, g.Holds p part ∧ q = p.after part) ∨ ∃ part, g.Holds q part ∧ p = q.after part := by
  obtain ⟨passed, standing, rfl⟩ := here
  obtain ⟨passed', standing', rfl⟩ := there
  rw [List.append_nil] at standing standing'
  rcases List.prefix_or_prefix_of_prefix standing standing' with ⟨part, rfl⟩ | ⟨part, rfl⟩
  · exact .inl ⟨part, ⟨passed, standing', rfl⟩, Position.after_append _ _ _⟩
  · exact .inr ⟨part, ⟨passed', standing, rfl⟩, Position.after_append _ _ _⟩

/-- **One order of places**: by offset, or by line and column. -/
theorem Marks.precedes_iff (here : g.Marks p) (there : g.Marks q) :
    p.Precedes q ↔ p.offset < q.offset := by
  rcases here.reach there with ⟨part, -, rfl⟩ | ⟨part, -, rfl⟩
  · by_cases empty : part = []
    · subst empty; simp [Position.Precedes]
    · have := bytes_pos empty
      simp [Position.precedes_after p empty, this]
  · by_cases empty : part = []
    · subst empty; simp [Position.Precedes]
    · simp [(Position.precedes_after q empty).asymm]

theorem Marks.eq_of_offset (here : g.Marks p) (there : g.Marks q) (same : p.offset = q.offset) :
    p = q := by
  rcases here.reach there with ⟨part, -, rfl⟩ | ⟨part, -, rfl⟩ <;>
    by_cases empty : part = []
  · simp [empty]
  · have := bytes_pos empty
    simp at same
    omega
  · simp [empty]
  · have := bytes_pos empty
    simp at same
    omega

theorem Marks.eq_of_line_column (here : g.Marks p) (there : g.Marks q) (line : p.line = q.line)
    (column : p.column = q.column) : p = q := by
  apply here.eq_of_offset there
  have forth := here.precedes_iff there
  have back := there.precedes_iff here
  simp only [Position.Precedes, line, column, lt_irrefl, and_false, or_false, false_iff,
    not_lt] at forth back
  omega

theorem Marks.offset_le (marked : g.Marks p) : p.offset ≤ g.origin.offset + bytes g.text := by
  obtain ⟨passed, ⟨rest, whole⟩, rfl⟩ := marked
  rw [← whole]
  simp

/-! ## Covered stretches -/

theorem Holds.shows (holds : g.Holds p part) : g.Shows (.covering p part) part := ⟨holds, rfl⟩

theorem Shows.holds {text : List Char} (shown : g.Shows s text) : g.Holds s.start text := shown.1

theorem Shows.covers {text : List Char} (shown : g.Shows s text) : g.Covers s := ⟨text, shown⟩

theorem Shows.within {h : Passage} {text : List Char} (shown : h.Shows s text)
    (inside : g.Holds h.origin h.text) : g.Shows s text :=
  ⟨Holds.within shown.1 inside, shown.2⟩

theorem Covers.start (covered : g.Covers s) : g.Marks s.start := by
  obtain ⟨part, holds, -⟩ := covered
  exact holds.marks

theorem Covers.finish (covered : g.Covers s) : g.Marks s.finish := by
  obtain ⟨part, holds, finish⟩ := covered
  rw [finish]
  exact holds.marks_after

theorem Covers.offset_le (covered : g.Covers s) : s.start.offset ≤ s.finish.offset := by
  obtain ⟨part, -, finish⟩ := covered
  simp [finish]

/-- Two places in order make a stretch. -/
theorem Marks.covers (here : g.Marks p) (there : g.Marks q) (ordered : p.offset ≤ q.offset) :
    g.Covers ⟨p, q⟩ := by
  rcases here.reach there with ⟨part, holds, rfl⟩ | ⟨part, holds, rfl⟩
  · exact holds.covers
  · have empty : part = [] := by
      by_contra some_
      have := bytes_pos some_
      simp at ordered
      omega
    subst empty
    exact holds.covers

theorem covers_iff : g.Covers s ↔
    g.Marks s.start ∧ g.Marks s.finish ∧ s.start.offset ≤ s.finish.offset :=
  ⟨fun covered => ⟨covered.start, covered.finish, covered.offset_le⟩,
    fun ⟨here, there, ordered⟩ => here.covers there ordered⟩

/-- A stretch is told by where it begins and by its last offset. -/
theorem Covers.eq_of_places (left : g.Covers s) (right : g.Covers t)
    (line : s.start.line = t.start.line) (column : s.start.column = t.start.column)
    (last : s.finish.offset = t.finish.offset) : s = t := by
  have start := left.start.eq_of_line_column right.start line column
  have finish := left.finish.eq_of_offset right.finish last
  obtain ⟨p, q⟩ := s
  obtain ⟨p', q'⟩ := t
  exact congrArg₂ Span.mk start finish

theorem Marks.covers_emptyAt (marked : g.Marks p) : g.Covers (.emptyAt p) :=
  marked.covers marked le_rfl

theorem Covers.join (left : g.Covers s) (right : g.Covers t) : g.Covers (s.join t) := by
  refine covers_iff.mpr ⟨?_, ?_, ?_⟩
  · rcases Position.earlier_eq_or s.start t.start with eq | eq <;> rw [Span.join, eq]
    · exact left.start
    · exact right.start
  · rcases Position.later_eq_or s.finish t.finish with eq | eq <;> rw [Span.join, eq]
    · exact left.finish
    · exact right.finish
  · calc (s.start.earlier t.start).offset ≤ s.start.offset := (Position.offset_earlier_le _ _).1
      _ ≤ s.finish.offset := left.offset_le
      _ ≤ (s.finish.later t.finish).offset := (Position.le_offset_later _ _).1

end Passage

/-! ## Slices -/

namespace Source

open Passage

theorem dropBytes?_bytes (cs ds : List Char) : dropBytes? (bytes cs) (cs ++ ds) = some ds := by
  induction cs with
  | nil => simp [dropBytes?]
  | cons c cs ih =>
      obtain ⟨n, size⟩ := Nat.exists_eq_succ_of_ne_zero c.utf8Size_pos.ne'
      have shape : bytes (c :: cs) = (n + bytes cs) + 1 := by rw [bytes_cons, size]; omega
      rw [shape, List.cons_append, dropBytes?, if_pos (by omega),
        show n + bytes cs + 1 - c.utf8Size = bytes cs by omega, ih]

theorem takeBytes?_bytes (cs ds : List Char) : takeBytes? (bytes cs) (cs ++ ds) = some cs := by
  induction cs with
  | nil => simp [takeBytes?]
  | cons c cs ih =>
      obtain ⟨n, size⟩ := Nat.exists_eq_succ_of_ne_zero c.utf8Size_pos.ne'
      have shape : bytes (c :: cs) = (n + bytes cs) + 1 := by rw [bytes_cons, size]; omega
      rw [shape, List.cons_append, takeBytes?, if_pos (by omega),
        show n + bytes cs + 1 - c.utf8Size = bytes cs by omega, ih, Option.map_some]

/-- What stands at a place is what is cut out there. -/
theorem slice_of_holds {cs part : List Char} {p : Position} (holds : (whole cs).Holds p part) :
    slice ⟨cs⟩ (.covering p part) = part := by
  obtain ⟨passed, ⟨rest, text⟩, rfl⟩ := holds
  change passed ++ part ++ rest = cs at text
  subst text
  have start : (Position.start.after passed).offset = bytes passed := by simp [Position.start]
  simp only [whole, slice, Span.covering, Position.offset_after _ part, start,
    Nat.le_add_right, if_true, Nat.add_sub_cancel_left, List.append_assoc, dropBytes?_bytes,
    Option.bind_some, takeBytes?_bytes, Option.getD_some]

/-- A stretch of a file shows what is cut out there. -/
theorem shows_slice {cs : List Char} {s : Span} (covered : (whole cs).Covers s) :
    (whole cs).Shows s (slice ⟨cs⟩ s) := by
  obtain ⟨part, holds, finish⟩ := covered
  have same : s = .covering s.start part := by rw [Span.covering, ← finish]
  have cut := slice_of_holds holds
  rw [← same] at cut
  rw [cut]
  exact ⟨holds, finish⟩

theorem slice_of_lt {cs : List Char} {s : Span} (backward : s.finish.offset < s.start.offset) :
    slice ⟨cs⟩ s = [] := by
  rw [slice, if_neg (by omega)]

end Source

namespace Passage

variable {o p q : Position} {part : List Char} {s : Span}

theorem Holds.shift {cs : List Char} (origin : o.Counted) (holds : (whole cs).Holds p part) :
    (⟨cs, o⟩ : Passage).Holds (o.shift p) part := by
  obtain ⟨passed, standing, rfl⟩ := holds
  exact ⟨passed, standing, Position.shift_start_after origin passed⟩

/-- A stretch of a part of a file, cut out of the part or shifted out of the file. -/
theorem slice_shift {cs : List Char} {h : Passage} (origin : h.origin.Counted)
    (inside : (whole cs).Holds h.origin h.text) (here : (whole h.text).Marks s.start)
    (there : (whole h.text).Marks s.finish) :
    Source.slice ⟨cs⟩ (s.shift h.origin) = Source.slice ⟨h.text⟩ s := by
  obtain ⟨p, q⟩ := s
  by_cases ordered : p.offset ≤ q.offset
  · obtain ⟨part, holds, finish⟩ := here.covers there ordered
    change (whole h.text).Holds p part at holds
    change q = p.after part at finish
    subst finish
    have counted := holds.marks.counted Position.counted_start
    show Source.slice ⟨cs⟩ (Span.shift h.origin (.covering p part)) =
      Source.slice ⟨h.text⟩ (.covering p part)
    rw [Span.shift_covering origin counted, Source.slice_of_holds holds,
      Source.slice_of_holds (Holds.within (holds.shift origin) inside)]
  · rw [Source.slice_of_lt (by simp; omega), Source.slice_of_lt (by simp; omega)]

end Passage

end PageLint
