/-
# PageLint.Proofs.Css.Balance — braces that do not match

A stylesheet with a `}` too many or a `}` too few does not go through without a fault, where braces
are those of blocks. Braces between brackets are not: a prelude ends at a brace outside brackets
only, and those inside belong to it, matched or not. Values count brackets and braces together. So
what is said here is said of texts whose brackets nest (`Nested`): each one that ends is open, and
what stands between brackets is matched there.

The tokens that one step takes then open as many braces as the step opens blocks, unless they are all
that is left (`Keeps`); a block that is open at the end is told. So if there is no fault at all, all
braces are closed, by induction on the steps.
-/
import PageLint.Proofs.Css.Depth

namespace PageLint.Css

set_option autoImplicit false

open Text

/-! ## Braces and brackets of some tokens -/

/-- Number of `{` among some tokens. -/
def opened (ts : Tokens) : Nat := ts.countP (·.kind == .braceOpen)

/-- Number of `}` among some tokens. -/
def closed (ts : Tokens) : Nat := ts.countP (·.kind == .braceClose)

/-- **Braces match**: nowhere do more end than have begun, and in all as many end as begin. -/
structure Balanced (ts : Tokens) : Prop where
  leading : ∀ front, front <+: ts → closed front ≤ opened front
  whole : opened ts = closed ts

/-- How many braces are open after some tokens, none if one ends that is not open. -/
def bracesAfter (level : Nat) : Tokens → Option Nat
  | [] => some level
  | t :: ts =>
    if t.kind = .braceOpen then bracesAfter (level + 1) ts
    else if t.kind = .braceClose then if level = 0 then none else bracesAfter (level - 1) ts
    else bracesAfter level ts

/-- What a token makes of the brackets that are open. They are given innermost first, each by how
many braces are open in it. None if a bracket ends that is not open or that a brace is open in, or if
a brace ends between brackets that none is open in. -/
def nestStep (nest : List Nat) (t : Token TokenKind) : Option (List Nat) :=
  if opensBracket t then some (0 :: nest)
  else if closesBracket t then
    match nest with
    | 0 :: outer => some outer
    | _ => none
  else if t.kind = .braceOpen then
    match nest with
    | [] => some []
    | n :: outer => some ((n + 1) :: outer)
  else if t.kind = .braceClose then
    match nest with
    | [] => some []
    | 0 :: _ => none
    | (n + 1) :: outer => some (n :: outer)
  else some nest

/-- The brackets that are open after some tokens, none if these do not go together. -/
def nestAfter (nest : List Nat) : Tokens → Option (List Nat)
  | [] => some nest
  | t :: ts => (nestStep nest t).bind (nestAfter · ts)

/-- **Brackets nest**, some of them being open to begin with: each one that ends is open, and of the
braces between brackets each one that ends began there, and each one that begins ends there. Braces
outside brackets may stand as they like. -/
def Nested (nest : List Nat) (ts : Tokens) : Prop := (nestAfter nest ts).any (·.sum == 0)

instance (nest : List Nat) (ts : Tokens) : Decidable (Nested nest ts) :=
  inferInstanceAs (Decidable (_ = true))

variable {t e : Token TokenKind} {ts rest more : Tokens} {nest outer : List Nat}
  {level depth n : Nat}

theorem bracesAfter_append (level : Nat) (ts more : Tokens) :
    bracesAfter level (ts ++ more) = (bracesAfter level ts).bind (bracesAfter · more) := by
  induction ts generalizing level with
  | nil => rfl
  | cons t ts ih =>
      simp only [List.cons_append, bracesAfter, ih]
      split_ifs <;> rfl

theorem nestAfter_append (nest : List Nat) (ts more : Tokens) :
    nestAfter nest (ts ++ more) = (nestAfter nest ts).bind (nestAfter · more) := by
  induction ts generalizing nest with
  | nil => rfl
  | cons t ts ih => simp only [List.cons_append, nestAfter, ih, Option.bind_assoc]

/-- What is open is what has begun and not ended. -/
theorem bracesAfter_counts {m : Nat} (counted : bracesAfter level ts = some m) :
    level + opened ts = m + closed ts := by
  induction ts generalizing level with
  | nil =>
      obtain rfl := Option.some.inj counted
      rfl
  | cons t ts ih =>
      rw [bracesAfter] at counted
      rw [opened, closed, List.countP_cons, List.countP_cons, ← opened, ← closed]
      split_ifs at counted with opens closes none_
      · have inside := ih counted
        simp [opens]
        omega
      · have inside := ih counted
        simp [closes]
        omega
      · have inside := ih counted
        simpa [opens, closes] using inside

theorem balanced_of_bracesAfter (counted : bracesAfter 0 ts = some 0) : Balanced ts := by
  constructor
  · rintro front ⟨back, rfl⟩
    rw [bracesAfter_append] at counted
    obtain ⟨m, reached, -⟩ := Option.bind_eq_some_iff.mp counted
    have counts := bracesAfter_counts reached
    omega
  · have counts := bracesAfter_counts counted
    omega

/-! ## Tokens that are passed -/

/-- Tokens lead from one level of braces to another, and end all brackets that were open. -/
structure Passes (ts : Tokens) (nest : List Nat) (level next : Nat) : Prop where
  braces : bracesAfter level ts = some next
  brackets : nestAfter nest ts = some []

/-- Neither a brace nor a bracket. -/
structure Plain (t : Token TokenKind) : Prop where
  opens : opensBracket t = false
  closes : closesBracket t = false
  begins : t.kind ≠ .braceOpen
  ends : t.kind ≠ .braceClose

theorem plain_of_kind (other : t.kind ∉ [.parenOpen, .function, .bracketOpen, .parenClose,
    .bracketClose, .braceOpen, .braceClose]) : Plain t := by
  simp only [List.mem_cons, List.not_mem_nil, or_false, not_or] at other
  obtain ⟨paren, function, bracket, parenEnd, bracketEnd, brace, braceEnd⟩ := other
  refine ⟨?_, ?_, brace, braceEnd⟩
  · simp [opensBracket, paren, function, bracket]
  · simp [closesBracket, parenEnd, bracketEnd]

theorem opensBracket_other (opens : opensBracket t) :
    closesBracket t = false ∧ t.kind ≠ .braceOpen ∧ t.kind ≠ .braceClose := by
  simp only [opensBracket, Bool.or_eq_true, beq_iff_eq, or_assoc] at opens
  rcases opens with kind | kind | kind <;> simp [closesBracket, kind]

theorem closesBracket_other (closes : closesBracket t) :
    opensBracket t = false ∧ t.kind ≠ .braceOpen ∧ t.kind ≠ .braceClose := by
  simp only [closesBracket, Bool.or_eq_true, beq_iff_eq] at closes
  rcases closes with kind | kind <;> simp [opensBracket, kind]

theorem nestStep_opens (opens : opensBracket t) : nestStep nest t = some (0 :: nest) := by
  simp [nestStep, opens]

theorem nestStep_closes (closes : closesBracket t) : nestStep (0 :: nest) t = some nest := by
  simp [nestStep, (closesBracket_other closes).1, closes]

theorem nestStep_braceOpen (kind : t.kind = .braceOpen) :
    nestStep (n :: nest) t = some ((n + 1) :: nest) := by
  simp [nestStep, opensBracket, closesBracket, kind]

theorem nestStep_braceClose (kind : t.kind = .braceClose) :
    nestStep ((n + 1) :: nest) t = some (n :: nest) := by
  simp [nestStep, opensBracket, closesBracket, kind]

theorem nestStep_outside (kind : t.kind = .braceOpen ∨ t.kind = .braceClose) :
    nestStep [] t = some [] := by
  rcases kind with kind | kind <;> simp [nestStep, opensBracket, closesBracket, kind]

theorem nestStep_plain (plain : Plain t) : nestStep nest t = some nest := by
  simp [nestStep, plain.opens, plain.closes, plain.begins, plain.ends]

/-- **What a token does** where brackets nest. It opens a bracket, or ends the innermost one, in which
no brace is open then; it is a brace between brackets, or one outside them; it is a `;` outside them,
at which scans stop; or it is passed by. -/
inductive Turns (t : Token TokenKind) (rest : Tokens) : List Nat → Prop
  | opens {nest : List Nat} : opensBracket t → Nested (0 :: nest) rest → Turns t rest nest
  | closes {nest : List Nat} : closesBracket t → Nested nest rest → Turns t rest (0 :: nest)
  | begins {n : Nat} {outer : List Nat} : t.kind = .braceOpen → Nested ((n + 1) :: outer) rest →
    Turns t rest (n :: outer)
  | ends {n : Nat} {outer : List Nat} : t.kind = .braceClose → Nested (n :: outer) rest →
    Turns t rest ((n + 1) :: outer)
  | outside : t.kind = .braceOpen ∨ t.kind = .braceClose → Nested [] rest → Turns t rest []
  | semicolon : t.kind = .semicolon → Nested [] rest → Turns t rest []
  | plain {nest : List Nat} : Plain t → ¬(t.kind = .semicolon ∧ nest = []) → Nested nest rest →
    Turns t rest nest

theorem Nested.tail {next : List Nat} (nested : Nested nest (t :: rest))
    (step : nestStep nest t = some next) : Nested next rest := by
  rwa [Nested, nestAfter, step, Option.bind_some] at nested

theorem turns_of_nested (nested : Nested nest (t :: rest)) : Turns t rest nest := by
  by_cases opens : opensBracket t
  · exact .opens opens (nested.tail (nestStep_opens opens))
  by_cases closes : closesBracket t
  · rcases nest with - | ⟨- | n, outer⟩
    · simp [Nested, nestAfter, nestStep, opens, closes] at nested
    · exact .closes closes (nested.tail (nestStep_closes closes))
    · simp [Nested, nestAfter, nestStep, opens, closes] at nested
  by_cases begins : t.kind = .braceOpen
  · cases nest with
    | nil => exact .outside (.inl begins) (nested.tail (nestStep_outside (.inl begins)))
    | cons n outer => exact .begins begins (nested.tail (nestStep_braceOpen begins))
  by_cases ends : t.kind = .braceClose
  · rcases nest with - | ⟨- | n, outer⟩
    · exact .outside (.inr ends) (nested.tail (nestStep_outside (.inr ends)))
    · simp [Nested, nestAfter, nestStep, opens, closes, ends] at nested
    · exact .ends ends (nested.tail (nestStep_braceClose ends))
  have plain : Plain t := ⟨by simpa using opens, by simpa using closes, begins, ends⟩
  have left := nested.tail (nestStep_plain plain)
  by_cases stops : t.kind = .semicolon ∧ nest = []
  · obtain ⟨kind, rfl⟩ := stops
    exact .semicolon kind left
  · exact .plain plain stops left

theorem bracesAfter_cons_other (begins : t.kind ≠ .braceOpen) (ends : t.kind ≠ .braceClose) :
    bracesAfter level (t :: ts) = bracesAfter level ts := by
  rw [bracesAfter, if_neg begins, if_neg ends]

theorem bracesAfter_cons_open (kind : t.kind = .braceOpen) :
    bracesAfter level (t :: ts) = bracesAfter (level + 1) ts := by
  rw [bracesAfter, if_pos kind]

theorem bracesAfter_cons_close (kind : t.kind = .braceClose) :
    bracesAfter (level + 1) (t :: ts) = bracesAfter level ts := by
  simp [bracesAfter, kind]

namespace Passes

variable {next last : Nat}

theorem nil : Passes [] [] level level := ⟨rfl, rfl⟩

/-- One more token in front. -/
theorem cons {inner : List Nat} {reached : Nat} (passes : Passes ts inner reached next)
    (step : nestStep nest t = some inner)
    (count : bracesAfter level (t :: ts) = bracesAfter reached ts) :
    Passes (t :: ts) nest level next where
  braces := count.trans passes.braces
  brackets := by rw [nestAfter, step, Option.bind_some, passes.brackets]

theorem opens (passes : Passes ts (0 :: nest) level next) (opens : opensBracket t) :
    Passes (t :: ts) nest level next :=
  passes.cons (nestStep_opens opens)
    (bracesAfter_cons_other (opensBracket_other opens).2.1 (opensBracket_other opens).2.2)

theorem closes (passes : Passes ts nest level next) (closes : closesBracket t) :
    Passes (t :: ts) (0 :: nest) level next :=
  passes.cons (nestStep_closes closes)
    (bracesAfter_cons_other (closesBracket_other closes).2.1 (closesBracket_other closes).2.2)

theorem begins (passes : Passes ts ((n + 1) :: outer) (level + 1) next)
    (kind : t.kind = .braceOpen) : Passes (t :: ts) (n :: outer) level next :=
  passes.cons (nestStep_braceOpen kind) (bracesAfter_cons_open kind)

theorem ends (passes : Passes ts (n :: outer) level next) (kind : t.kind = .braceClose) :
    Passes (t :: ts) ((n + 1) :: outer) (level + 1) next :=
  passes.cons (nestStep_braceClose kind) (bracesAfter_cons_close kind)

theorem braceOpen (passes : Passes ts [] (level + 1) next) (kind : t.kind = .braceOpen) :
    Passes (t :: ts) [] level next :=
  passes.cons (nestStep_outside (.inl kind)) (bracesAfter_cons_open kind)

theorem braceClose (passes : Passes ts [] level next) (kind : t.kind = .braceClose) :
    Passes (t :: ts) [] (level + 1) next :=
  passes.cons (nestStep_outside (.inr kind)) (bracesAfter_cons_close kind)

theorem plain (passes : Passes ts nest level next) (plain : Plain t) :
    Passes (t :: ts) nest level next :=
  passes.cons (nestStep_plain plain) (bracesAfter_cons_other plain.begins plain.ends)

theorem single (plain : Plain t) : Passes [t] [] level level := .plain .nil plain

theorem of_plain (plain : ∀ u ∈ ts, Plain u) : Passes ts [] level level := by
  induction ts with
  | nil => exact .nil
  | cons u ts ih =>
      obtain ⟨first, others⟩ := List.forall_mem_cons.mp plain
      exact (ih others).plain first

theorem append (passes : Passes ts nest level next) (then_ : Passes more [] next last) :
    Passes (ts ++ more) nest level last where
  braces := by rw [bracesAfter_append, passes.braces, Option.bind_some, then_.braces]
  brackets := by rw [nestAfter_append, passes.brackets, Option.bind_some, then_.brackets]

/-- One more token, where a scan stopped. -/
theorem through (passes : Passes (ts.take n) nest level next) (found : ts[n]? = some e)
    (then_ : Passes [e] [] next last) : Passes (ts.take (n + 1)) nest level last := by
  rw [List.take_add_one, found]
  exact passes.append then_

/-- What comes after tokens that are passed. -/
theorem nested (passes : Passes ts nest level next) (nested : Nested nest (ts ++ more)) :
    Nested [] more := by
  rwa [Nested, nestAfter_append, passes.brackets, Option.bind_some] at nested

end Passes

theorem nested_of_plain (plain : ∀ u ∈ ts, Plain u) (nested : Nested [] (ts ++ more)) :
    Nested [] more :=
  have passes : Passes ts [] 0 0 := .of_plain plain
  passes.nested nested

/-! ## Scans -/

theorem preludeExtent_opens (opens : opensBracket t) :
    preludeExtent depth (t :: ts) = preludeExtent (depth + 1) ts + 1 := by
  rw [preludeExtent, if_pos opens]

theorem preludeExtent_closes (closes : closesBracket t) :
    preludeExtent (depth + 1) (t :: ts) = preludeExtent depth ts + 1 := by
  simp [preludeExtent, (closesBracket_other closes).1, closes]

theorem preludeExtent_brace (kind : t.kind = .braceOpen ∨ t.kind = .braceClose) :
    preludeExtent (depth + 1) (t :: ts) = preludeExtent (depth + 1) ts + 1 := by
  rcases kind with kind | kind <;> simp [preludeExtent, opensBracket, closesBracket, kind]

theorem preludeExtent_stop (stops : endsPrelude t) : preludeExtent 0 (t :: ts) = 0 := by
  simp only [endsPrelude, Bool.or_eq_true, beq_iff_eq, or_assoc] at stops
  rcases stops with kind | kind | kind <;>
    simp [preludeExtent, opensBracket, closesBracket, endsPrelude, kind]

theorem preludeExtent_plain (plain : Plain t) (goesOn : ¬(t.kind = .semicolon ∧ depth = 0)) :
    preludeExtent depth (t :: ts) = preludeExtent depth ts + 1 := by
  have passed : ¬(endsPrelude t ∧ depth = 0) := by
    simpa [endsPrelude, plain.begins, plain.ends] using goesOn
  simp [preludeExtent, plain.opens, plain.closes, if_neg passed]

theorem valueExtent_opens (opens : opensBracket t) :
    valueExtent depth (t :: ts) = valueExtent (depth + 1) ts + 1 := by
  simp [valueExtent, opens]

theorem valueExtent_closes (closes : closesBracket t) :
    valueExtent (depth + 1) (t :: ts) = valueExtent depth ts + 1 := by
  obtain ⟨opens, begins, -⟩ := closesBracket_other closes
  simp [valueExtent, opens, begins, closes]

theorem valueExtent_braceOpen (kind : t.kind = .braceOpen) :
    valueExtent depth (t :: ts) = valueExtent (depth + 1) ts + 1 := by
  simp [valueExtent, kind]

theorem valueExtent_braceClose (kind : t.kind = .braceClose) :
    valueExtent (depth + 1) (t :: ts) = valueExtent depth ts + 1 := by
  simp [valueExtent, opensBracket, closesBracket, kind]

theorem valueExtent_stop (kind : t.kind = .braceClose ∨ t.kind = .semicolon) :
    valueExtent 0 (t :: ts) = 0 := by
  rcases kind with kind | kind <;> simp [valueExtent, opensBracket, closesBracket, kind]

theorem valueExtent_plain (plain : Plain t) (goesOn : ¬(t.kind = .semicolon ∧ depth = 0)) :
    valueExtent depth (t :: ts) = valueExtent depth ts + 1 := by
  simp [valueExtent, plain.opens, plain.closes, plain.begins, plain.ends, if_neg goesOn]

/-- A prelude passes all braces and brackets that begin in it, unless the tokens end first. -/
theorem prelude_passes {reached : Nat} (nested : Nested nest ts)
    (count : reached = level + nest.sum) :
    Passes (ts.take (preludeExtent nest.length ts)) nest reached level ∨
      ts.length ≤ preludeExtent nest.length ts ∧ bracesAfter reached ts = some level := by
  induction ts generalizing nest reached with
  | nil =>
      have none_ : nest.sum = 0 := by simpa [Nested, nestAfter] using nested
      rw [none_, Nat.add_zero] at count
      exact .inr ⟨Nat.le_refl _, congrArg some count⟩
  | cons t ts ih =>
      cases turns_of_nested nested with
      | opens opens left =>
          obtain ⟨-, begins, ends⟩ := opensBracket_other opens
          rw [preludeExtent_opens opens, bracesAfter_cons_other begins ends]
          exact (ih left (by simpa using count)).imp (·.opens opens) (.imp_left Nat.succ_le_succ)
      | closes closes left =>
          obtain ⟨-, begins, ends⟩ := closesBracket_other closes
          rw [List.length_cons, preludeExtent_closes closes, bracesAfter_cons_other begins ends]
          exact (ih left (by simpa using count)).imp (·.closes closes) (.imp_left Nat.succ_le_succ)
      | @begins n outer kind left =>
          rw [List.sum_cons] at count
          rw [List.length_cons, preludeExtent_brace (.inl kind), bracesAfter_cons_open kind]
          exact (ih left (by rw [List.sum_cons]; omega)).imp (·.begins kind)
            (.imp_left Nat.succ_le_succ)
      | @ends n outer kind left =>
          rw [List.sum_cons] at count
          obtain ⟨reached, rfl⟩ : ∃ k, reached = k + 1 := ⟨reached - 1, by omega⟩
          rw [List.length_cons, preludeExtent_brace (.inr kind), bracesAfter_cons_close kind]
          exact (ih left (by rw [List.sum_cons]; omega)).imp (·.ends kind)
            (.imp_left Nat.succ_le_succ)
      | outside kind left =>
          rw [List.length_nil, preludeExtent_stop (by rcases kind with kind | kind <;>
            simp [endsPrelude, kind]), count]
          exact .inl .nil
      | semicolon kind left =>
          rw [List.length_nil, preludeExtent_stop (by simp [endsPrelude, kind]), count]
          exact .inl .nil
      | plain plain goesOn left =>
          rw [preludeExtent_plain plain (by simpa using goesOn),
            bracesAfter_cons_other plain.begins plain.ends]
          exact (ih left count).imp (·.plain plain) (.imp_left Nat.succ_le_succ)

/-- A value passes all braces and brackets that begin in it, unless the tokens end first. It counts
both together, but where brackets nest none of them ends the other. Of its braces outside brackets,
`k` are open. -/
theorem value_passes {reached k : Nat} (nested : Nested nest ts)
    (depths : depth = nest.length + nest.sum + k) (count : reached = level + k + nest.sum) :
    Passes (ts.take (valueExtent depth ts)) nest reached level ∨
      ts.length ≤ valueExtent depth ts := by
  induction ts generalizing nest depth reached k with
  | nil => exact .inr (Nat.le_refl _)
  | cons t ts ih =>
      cases turns_of_nested nested with
      | opens opens left =>
          rw [valueExtent_opens opens]
          exact (ih left (k := k) (by simp; omega) (by simpa using count)).imp
            (·.opens opens) Nat.succ_le_succ
      | closes closes left =>
          simp only [List.length_cons, List.sum_cons] at depths count
          obtain ⟨depth, rfl⟩ : ∃ d, depth = d + 1 := ⟨depth - 1, by omega⟩
          rw [valueExtent_closes closes]
          exact (ih left (k := k) (by omega) (by omega)).imp (·.closes closes)
            Nat.succ_le_succ
      | @begins n outer kind left =>
          simp only [List.length_cons, List.sum_cons] at depths count
          rw [valueExtent_braceOpen kind]
          exact (ih left (k := k) (by simp; omega) (by simp; omega)).imp (·.begins kind)
            Nat.succ_le_succ
      | @ends n outer kind left =>
          simp only [List.length_cons, List.sum_cons] at depths count
          obtain ⟨depth, rfl⟩ : ∃ d, depth = d + 1 := ⟨depth - 1, by omega⟩
          obtain ⟨reached, rfl⟩ : ∃ m, reached = m + 1 := ⟨reached - 1, by omega⟩
          rw [valueExtent_braceClose kind]
          exact (ih left (k := k) (by simp; omega) (by simp; omega)).imp (·.ends kind)
            Nat.succ_le_succ
      | outside kind left =>
          simp only [List.length_nil, List.sum_nil] at depths count
          rcases kind with begins | ends
          · rw [valueExtent_braceOpen begins]
            exact (ih left (k := k + 1) (by simp; omega) (by simp; omega)).imp
              (·.braceOpen begins) Nat.succ_le_succ
          · cases k with
            | zero =>
                obtain rfl : depth = 0 := by omega
                rw [valueExtent_stop (.inl ends), count]
                exact .inl .nil
            | succ k =>
                obtain ⟨depth, rfl⟩ : ∃ d, depth = d + 1 := ⟨depth - 1, by omega⟩
                obtain ⟨reached, rfl⟩ : ∃ m, reached = m + 1 := ⟨reached - 1, by omega⟩
                rw [valueExtent_braceClose ends]
                exact (ih left (k := k) (by simp; omega) (by simp; omega)).imp
                  (·.braceClose ends) Nat.succ_le_succ
      | semicolon kind left =>
          cases k with
          | zero =>
              obtain rfl : depth = 0 := depths
              rw [valueExtent_stop (.inr kind), count]
              exact .inl .nil
          | succ k =>
              have plain : Plain t := plain_of_kind (by simp [kind])
              rw [valueExtent_plain plain fun stops => by omega]
              exact (ih left depths count).imp (·.plain plain) Nat.succ_le_succ
      | plain plain goesOn left =>
          rw [valueExtent_plain plain fun stops =>
            goesOn ⟨stops.1, List.length_eq_zero_iff.mp (by omega)⟩]
          exact (ih left depths count).imp (·.plain plain) Nat.succ_le_succ

/-- A value ends where a prelude does, unless that ends at a `{`. -/
theorem valueExtent_eq (nested : Nested nest ts) (depths : depth = nest.length + nest.sum)
    (goesOn : ts[preludeExtent nest.length ts]?.any (·.kind == .braceOpen) = false) :
    valueExtent depth ts = preludeExtent nest.length ts := by
  induction ts generalizing nest depth with
  | nil => rfl
  | cons t ts ih =>
      cases turns_of_nested nested with
      | opens opens left =>
          rw [preludeExtent_opens opens] at goesOn ⊢
          rw [valueExtent_opens opens, ih left (by simp; omega) (by simpa using goesOn)]
          rfl
      | closes closes left =>
          simp only [List.length_cons, List.sum_cons] at depths
          obtain ⟨depth, rfl⟩ : ∃ k, depth = k + 1 := ⟨depth - 1, by omega⟩
          rw [List.length_cons, preludeExtent_closes closes] at goesOn ⊢
          rw [valueExtent_closes closes, ih left (by omega) (by simpa using goesOn)]
      | begins kind left =>
          simp only [List.length_cons, List.sum_cons] at depths
          rw [List.length_cons, preludeExtent_brace (.inl kind)] at goesOn ⊢
          rw [valueExtent_braceOpen kind, ih left (by simp; omega) (by simpa using goesOn)]
          rfl
      | ends kind left =>
          simp only [List.length_cons, List.sum_cons] at depths
          obtain ⟨depth, rfl⟩ : ∃ k, depth = k + 1 := ⟨depth - 1, by omega⟩
          rw [List.length_cons, preludeExtent_brace (.inr kind)] at goesOn ⊢
          rw [valueExtent_braceClose kind, ih left (by simp; omega) (by simpa using goesOn)]
          rfl
      | outside kind left =>
          obtain rfl : depth = 0 := depths
          have stops : preludeExtent 0 (t :: ts) = 0 :=
            preludeExtent_stop (by rcases kind with kind | kind <;> simp [endsPrelude, kind])
          rw [List.length_nil, stops] at goesOn ⊢
          have other : t.kind ≠ .braceOpen := by simpa using goesOn
          exact valueExtent_stop (.inl (kind.resolve_left other))
      | semicolon kind left =>
          obtain rfl : depth = 0 := depths
          rw [List.length_nil, preludeExtent_stop (by simp [endsPrelude, kind]),
            valueExtent_stop (.inr kind)]
      | plain plain stays left =>
          have apart : ¬(t.kind = .semicolon ∧ nest.length = 0) := by simpa using stays
          rw [preludeExtent_plain plain apart] at goesOn ⊢
          rw [valueExtent_plain plain fun stops => apart ⟨stops.1, by omega⟩,
            ih left depths (by simpa using goesOn)]

/-! ## Declarations -/

theorem preludeExtent_append_plains {front : Tokens}
    (goesOn : ∀ u ∈ front, Plain u ∧ u.kind ≠ .semicolon) (ts : Tokens) :
    preludeExtent 0 (front ++ ts) = front.length + preludeExtent 0 ts := by
  induction front with
  | nil => exact (Nat.zero_add _).symm
  | cons u front ih =>
      obtain ⟨⟨plain, stays⟩, others⟩ := List.forall_mem_cons.mp goesOn
      rw [List.cons_append, preludeExtent_plain plain fun ends => stays ends.1, ih others,
        List.length_cons]
      omega

/-- A declaration takes its property and its colon, with trivia between them, then a value and the
`;` that ends it. -/
theorem read?_takes {d : Declaration} (read : Declaration.read? t rest = some (d, n)) :
    ∃ front after, t :: rest = (t :: front) ++ after ∧
      (∀ u ∈ t :: front, Plain u ∧ u.kind ≠ .semicolon) ∧
      n = (t :: front).length + (valueExtent 0 after +
        (after[valueExtent 0 after]?.filter (·.kind == .semicolon)).toList.length) := by
  simp only [Declaration.read?] at read
  split at read
  · cases read
  next colon after left =>
    split at read
    next kinds =>
      obtain ⟨property, sign⟩ := kinds
      obtain ⟨-, rfl⟩ := Prod.mk.inj (Option.some.inj read)
      have trivia : ∀ u ∈ rest.takeWhile isTrivia, Plain u ∧ u.kind ≠ .semicolon := by
        intro u member
        have blank := List.mem_takeWhile_imp member
        simp only [isTrivia, Bool.or_eq_true, beq_iff_eq] at blank
        rcases blank with kind | kind <;> exact ⟨plain_of_kind (by simp [kind]), by simp [kind]⟩
      refine ⟨rest.takeWhile isTrivia ++ [colon], after, ?_, ?_, ?_⟩
      · rw [List.cons_append, List.append_assoc, List.singleton_append, ← left,
          drop_length_takeWhile, List.takeWhile_append_dropWhile]
      · refine List.forall_mem_cons.mpr ⟨⟨plain_of_kind (by simp [property]), by simp [property]⟩,
          List.forall_mem_append.mpr ⟨trivia, List.forall_mem_singleton.mpr
            ⟨plain_of_kind (by simp [sign]), by simp [sign]⟩⟩⟩
      · simp only [List.length_cons, List.length_append, List.length_nil]
        omega
    · cases read

/-! ## Steps -/

/-- **What a step leaves** where nothing is wrong: of the tokens that it takes, as many braces are
open as blocks are, or it takes all there are, inside a block if braces do not match. -/
inductive Keeps (b : Builder) (here : Tokens) (s : Outcome) : Prop
  | passes : Passes (here.take (s.more + 1)) [] b.stack.length s.builder.stack.length →
    Keeps b here s
  | ends : here.length ≤ s.more + 1 →
    (s.builder.stack = [] → bracesAfter b.stack.length here = some 0) → Keeps b here s

namespace Builder

variable {b : Builder} {cap : Nat} {last : Position} {here inside : Tokens} {frame : Frame}

/-- A single token that is neither bracket nor brace. -/
theorem keeps_plain {b' : Builder} {issues : List Issue} (plain : Plain t)
    (same : b'.stack.length = b.stack.length) : Keeps b (t :: rest) ⟨b', issues, 0⟩ := by
  refine .passes ?_
  rw [same]
  exact .single plain

/-- A block that is opened without a fault stands inside one block more. -/
theorem openBlock_quiet (quiet : (b.openBlock cap last frame inside).issues = []) :
    b.openBlock cap last frame inside = ⟨{ b with stack := frame :: b.stack }, [], 0⟩ := by
  simp only [Builder.openBlock] at quiet ⊢
  by_cases capped : cap ≤ b.stack.length
  · rw [if_pos capped] at quiet
    cases quiet
  · rw [if_neg capped]

/-- A prelude that a token ends. -/
theorem prelude_ended (level : Nat) (nested : Nested [] here)
    (found : here[preludeExtent 0 here]? = some e) :
    Passes (here.take (preludeExtent 0 here)) [] level level := by
  refine (prelude_passes nested rfl).resolve_right fun past => ?_
  have none_ : here[preludeExtent 0 here]? = none := List.getElem?_eq_none_iff.mpr past.1
  rw [none_] at found
  cases found

theorem keeps_openStyle (nested : Nested [] here)
    (found : here[preludeExtent 0 here]? = some e) (kind : e.kind = .braceOpen) {keyframe : Bool}
    (quiet : (b.openStyle cap last keyframe (preludeExtent 0 here) e.span here).issues = []) :
    Keeps b here (b.openStyle cap last keyframe (preludeExtent 0 here) e.span here) := by
  simp only [Builder.openStyle] at quiet ⊢
  rw [openBlock_quiet (List.append_eq_nil_iff.mp quiet).2]
  refine .passes ?_
  exact (prelude_ended b.stack.length nested found).through found (.braceOpen .nil kind)

theorem keeps_takeAtRule (nested : Nested [] (t :: rest))
    (kind : t.kind = .atKeyword) (quiet : (b.takeAtRule cap last t rest).issues = []) :
    Keeps b (t :: rest) (b.takeAtRule cap last t rest) := by
  have plain : Plain t := plain_of_kind (by simp [kind])
  have nested := nested.tail (nestStep_plain plain)
  simp only [Builder.takeAtRule] at quiet ⊢
  split at quiet
  · cases quiet
  next e found =>
    have passes := prelude_ended b.stack.length nested found
    by_cases semicolon : e.kind = .semicolon
    · rw [if_pos semicolon]
      refine .passes ?_
      rw [length_addItem]
      exact (passes.through found (.single (plain_of_kind (by simp [semicolon])))).plain plain
    rw [if_neg semicolon] at quiet ⊢
    by_cases brace : e.kind = .braceOpen
    · rw [if_pos brace] at quiet ⊢
      dsimp only at quiet
      rw [openBlock_quiet quiet]
      exact .passes ((passes.through found (.braceOpen .nil brace)).plain plain)
    · rw [if_neg brace] at quiet
      cases quiet

/-- A declaration, if its value passes all braces it opens, or else goes on to the end. -/
theorem keeps_declaration {d : Declaration} {front after : Tokens} {m : Nat}
    (parts : t :: rest = front ++ after) (plain : ∀ u ∈ front, Plain u)
    (value : Passes (after.take (valueExtent 0 after)) [] b.stack.length b.stack.length ∨
      after.length ≤ valueExtent 0 after ∧
        (b.stack = [] → bracesAfter b.stack.length after = some 0))
    (taken : m + 1 = front.length + (valueExtent 0 after +
      (after[valueExtent 0 after]?.filter (·.kind == .semicolon)).toList.length)) :
    Keeps b (t :: rest) ⟨b.addDeclaration d, [], m⟩ := by
  rcases value with passes | ⟨past, matched⟩
  · refine .passes ?_
    rw [length_addDeclaration, taken, parts, List.take_length_add_append, ← take_append_filter]
    refine .append (.of_plain plain) (passes.append ?_)
    cases ended : after[valueExtent 0 after]?.filter (·.kind == .semicolon) with
    | none => exact .nil
    | some e =>
        have kind : e.kind = .semicolon := eq_of_beq (Option.filter_eq_some_iff.mp ended).2
        exact .single (plain_of_kind (by simp [kind]))
  · refine .ends ?_ fun empty => ?_
    · rw [parts, List.length_append]
      dsimp only
      omega
    · have none_ : b.stack = [] := by
        rw [← List.length_eq_zero_iff, ← length_addDeclaration b d, empty]
        rfl
      rw [parts, bracesAfter_append, (Passes.of_plain plain).braces, Option.bind_some,
        matched none_]

/-- There is something to tell of tokens that do not begin with trivia. -/
theorem some_left (rest : Tokens) (solid : isTrivia t = false) (positive : 0 < n) :
    ∃ first span, (trimTrivia ((t :: rest).take n)).head? = some first ∧
      spanOf? (trimTrivia ((t :: rest).take n)) = some span := by
  obtain ⟨n, rfl⟩ := Nat.exists_eq_succ_of_ne_zero positive.ne'
  rw [List.take_succ_cons, trimTrivia, List.dropWhile_cons_of_neg (by simp [solid])]
  generalize left : trimTriviaEnd (t :: rest.take n) = kept
  cases kept with
  | nil =>
      rw [trimTriviaEnd] at left
      split at left
      · rw [if_neg (by simp [solid])] at left
        cases left
      · cases left
  | cons first others =>
      obtain ⟨span, there⟩ := Option.ne_none_iff_exists'.mp
        (mt spanOf?_eq_none.mp (List.cons_ne_nil first others))
      exact ⟨first, span, rfl, there⟩

theorem keeps_takeRule (nested : Nested [] (t :: rest))
    (solid : isTrivia t = false) (semicolon : t.kind ≠ .semicolon) (braceClose : t.kind ≠ .braceClose)
    (quiet : (b.takeRule cap last t rest).issues = []) :
    Keeps b (t :: rest) (b.takeRule cap last t rest) := by
  simp only [Builder.takeRule] at quiet ⊢
  by_cases brace : (t :: rest)[preludeExtent 0 (t :: rest)]?.any (·.kind == .braceOpen)
  · obtain ⟨e, found, kind⟩ := (Option.any_eq_true _ _).mp brace
    rw [if_pos brace, found] at quiet ⊢
    exact keeps_openStyle nested found (eq_of_beq kind) quiet
  rw [if_neg brace] at quiet ⊢
  cases read : Declaration.read? t rest with
  | some taken =>
      obtain ⟨d, n⟩ := taken
      obtain ⟨front, after, parts, goesOn, taken⟩ := read?_takes read
      have plain : ∀ u ∈ t :: front, Plain u := fun u member => (goesOn u member).1
      have past := preludeExtent_append_plains goesOn after
      -- The prelude of the whole is that of what follows the colon, and so does not end at a `{`.
      have other : after[preludeExtent 0 after]?.any (·.kind == .braceOpen) = false := by
        rw [parts, past, List.getElem?_append_right (Nat.le_add_right _ _),
          Nat.add_sub_cancel_left] at brace
        simpa using brace
      have left := nested_of_plain plain (parts ▸ nested)
      refine keeps_declaration parts plain ?_ (by simp only [taken, List.length_cons]; omega)
      have same : valueExtent 0 after = preludeExtent 0 after := valueExtent_eq left rfl other
      rw [same]
      refine (prelude_passes left rfl).imp_right (.imp_right fun matched empty => ?_)
      rw [empty] at matched ⊢
      exact matched
  | none =>
      have positive := Descent.preludeExtent_pos_of_any semicolon braceClose brace
      obtain ⟨first, span, -, there⟩ := some_left rest solid positive
      simp only [read, there] at quiet
      cases quiet

theorem keeps_takeEntry (nested : Nested [] (t :: rest))
    (solid : isTrivia t = false) (braceClose : t.kind ≠ .braceClose) (inBlock : b.inBlock)
    (quiet : (b.takeEntry cap last t rest).issues = []) :
    Keeps b (t :: rest) (b.takeEntry cap last t rest) := by
  simp only [Builder.takeEntry] at quiet ⊢
  by_cases rule : startsNestedRule (t :: rest)
  · have brace := rule
    rw [startsNestedRule, Bool.and_eq_true] at brace
    obtain ⟨e, found, kind⟩ := (Option.any_eq_true _ _).mp brace.2
    rw [if_pos rule, found] at quiet ⊢
    exact keeps_openStyle nested found (eq_of_beq kind) quiet
  rw [if_neg rule] at quiet ⊢
  cases read : Declaration.read? t rest with
  | some taken =>
      obtain ⟨d, n⟩ := taken
      obtain ⟨front, after, parts, goesOn, taken⟩ := read?_takes read
      have plain : ∀ u ∈ t :: front, Plain u := fun u member => (goesOn u member).1
      have left := nested_of_plain plain (parts ▸ nested)
      refine keeps_declaration parts plain ?_ (by simp only [taken, List.length_cons]; omega)
      refine (value_passes left (k := 0) rfl rfl).imp_right fun past => ⟨past, fun empty => ?_⟩
      rw [Builder.inBlock, empty] at inBlock
      cases inBlock
  | none =>
      have positive := Descent.entryExtent_pos braceClose rest
      obtain ⟨first, span, head, there⟩ := some_left rest solid positive
      simp only [read, head, there] at quiet
      cases quiet

/-- **One step**, where nothing is wrong. -/
theorem keeps_step (nested : Nested [] (t :: rest))
    (quiet : (b.step cap last t rest).issues = []) :
    Keeps b (t :: rest) (b.step cap last t rest) := by
  by_cases other : t.kind ∈ [.blank, .semicolon, .comment, .braceClose, .atKeyword]
  · simp only [List.mem_cons, List.not_mem_nil, or_false] at other
    rcases other with kind | kind | kind | kind | kind <;>
      simp only [Builder.step, kind] at quiet ⊢
    · exact keeps_plain (plain_of_kind (by simp [kind])) rfl
    · exact keeps_plain (plain_of_kind (by simp [kind])) rfl
    · exact keeps_plain (plain_of_kind (by simp [kind])) (length_addComment b _)
    · by_cases empty : b.stack.isEmpty
      · rw [if_pos empty] at quiet
        cases quiet
      · rw [if_neg empty]
        refine .passes ?_
        rw [length_close]
        cases stack : b.stack with
        | nil => simp [stack] at empty
        | cons frame outer => exact .braceClose .nil kind
    · exact keeps_takeAtRule nested kind quiet
  · rw [step_other other] at quiet ⊢
    simp only [List.mem_cons, List.not_mem_nil, or_false, not_or] at other
    obtain ⟨blank, semicolon, comment, braceClose, -⟩ := other
    have solid : isTrivia t = false := by simp [isTrivia, blank, comment]
    by_cases inBlock : b.inBlock
    · rw [if_pos inBlock] at quiet ⊢
      exact keeps_takeEntry nested solid braceClose inBlock quiet
    rw [if_neg inBlock] at quiet ⊢
    by_cases mark : t.kind = .cdo ∨ t.kind = .cdc ∨ t.kind = .byteOrderMark
    · rw [if_pos mark]
      refine keeps_plain (plain_of_kind ?_) rfl
      rcases mark with kind | kind | kind <;> simp [kind]
    · rw [if_neg mark] at quiet ⊢
      exact keeps_takeRule nested solid semicolon braceClose quiet

/-- **A whole run**, where nothing is wrong: if all blocks are closed, so are all braces. -/
theorem bracesAfter_run (cap : Nat) (last : Position) (b : Builder) (ts : Tokens)
    (nested : Nested [] ts) (quiet : (b.run cap last ts).2 = [])
    (closed : (b.run cap last ts).1.stack = []) : bracesAfter b.stack.length ts = some 0 := by
  fun_induction Builder.run cap last b ts with
  | case1 b =>
      rw [closed]
      rfl
  | case2 b t rest s done issues run ih =>
      obtain ⟨quiet, later⟩ := List.append_eq_nil_iff.mp quiet
      rw [run] at ih
      cases keeps_step nested quiet with
      | passes passes =>
          have whole : t :: rest = (t :: rest).take (s.more + 1) ++ rest.drop s.more := by
            rw [List.take_succ_cons, List.cons_append, List.take_append_drop]
          rw [whole, bracesAfter_append, passes.braces, Option.bind_some]
          exact ih (passes.nested (whole ▸ nested)) later closed
      | ends past matched =>
          have nothing : rest.drop s.more = [] := List.drop_eq_nil_of_le (by simpa using past)
          rw [nothing, Builder.run] at run
          obtain ⟨rfl, -⟩ := Prod.mk.inj run
          exact matched closed

end Builder

/-! ## Stylesheets -/

namespace Sheet

/-- **Braces match in a sheet without faults**, if its brackets nest: each `}` too many and each `{`
that is not closed is told. -/
theorem balanced_of_no_issues (cs : List Char) (origin : Position)
    (nested : Nested [] (ofText cs origin).tokens) (quiet : (ofText cs origin).issues = []) :
    Balanced (ofText cs origin).tokens := by
  change Nested [] (tokenize cs origin) at nested
  change (buildItems depthCap (tokenize cs origin)).2 = [] at quiet
  change Balanced (tokenize cs origin)
  simp only [buildItems, List.append_eq_nil_iff, Builder.finish_issues, List.map_eq_nil_iff]
    at quiet
  obtain ⟨⟨-, run⟩, closed⟩ := quiet
  exact balanced_of_bracesAfter (Builder.bracesAfter_run _ _ .empty _ nested run closed)

theorem balanced_of_no_issues_supports :
    Nested [] (ofText "@supports (--b:\x7b\x7d)\x7ba\x7bc:d(e)\x7d\x7d".toList .start).tokens ∧
      (ofText "@supports (--b:\x7b\x7d)\x7ba\x7bc:d(e)\x7d\x7d".toList .start).issues = [] ∧
      Balanced
        (ofText "@supports (--b:\x7b\x7d)\x7ba\x7bc:d(e)\x7d\x7d".toList .start).tokens := by
  have nested : Nested []
      (ofText "@supports (--b:\x7b\x7d)\x7ba\x7bc:d(e)\x7d\x7d".toList .start).tokens := by
    decide +kernel
  have quiet :
      (ofText "@supports (--b:\x7b\x7d)\x7ba\x7bc:d(e)\x7d\x7d".toList .start).issues = [] := by
    decide +kernel
  exact ⟨nested, quiet, balanced_of_no_issues _ _ nested quiet⟩

/-- **Braces between brackets** belong to the prelude that they stand in, also if they do not
match. -/
theorem unmatched_between_brackets :
    (ofText "a(\x7d)\x7b\x7d".toList .start).issues = [] ∧
      ¬Balanced (ofText "a(\x7d)\x7b\x7d".toList .start).tokens := by
  refine ⟨by decide +kernel, fun balanced => ?_⟩
  have whole := balanced.whole
  revert whole
  decide +kernel

end Sheet

end PageLint.Css
