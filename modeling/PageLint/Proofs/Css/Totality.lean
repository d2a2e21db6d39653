/-
# PageLint.Proofs.Css.Totality — the descent never fails

The descent reads every stylesheet, to the end of its tokens, and finds what the builder builds: none
of its checks fails, so each access is in range, no count goes below zero and each turn of a loop
comes further.

The builder takes the tokens from a position on in the same way as the descent: what the descent
reads next is what the builder adds next, and from the position that the descent has come to it goes
on as before (`Follows`). The induction is on how many tokens are left. The loops over items and
over entries call each other only from later positions, so it is enough to follow one turn of each,
given that both loops can be followed from all later positions.
-/
import PageLint.Proofs.Css.Descent
import PageLint.Proofs.Css.Layout

namespace PageLint.Css

set_option autoImplicit false

open Text

/-! ## To the end of the tokens -/

/-- Issues that are told before others. -/
def told (issues : List Issue) (r : Builder × List Issue) : Builder × List Issue :=
  (r.1, issues ++ r.2)

@[simp] theorem told_nil (r : Builder × List Issue) : told [] r = r := rfl

@[simp] theorem told_told (issues more : List Issue) (r : Builder × List Issue) :
    told issues (told more r) = told (issues ++ more) r := by
  simp [told]

namespace Builder

variable {cap : Nat} {last : Position} {b : Builder} {frame : Frame} {outer : List Frame}
  {top : List Item}

/-- Takes tokens in order, and ends all that is open where they end. -/
def complete (cap : Nat) (last : Position) (b : Builder) (ts : Tokens) : Builder × List Issue :=
  told (b.run cap last ts).2 ((b.run cap last ts).1.finish last)

end Builder

/-- Goes on after a step, to the end of the tokens. -/
def Outcome.complete (cap : Nat) (last : Position) (s : Outcome) (rest : Tokens) :
    Builder × List Issue :=
  told s.issues (s.builder.complete cap last (rest.drop s.more))

/-- A step that goes on where other tokens have been taken. -/
theorem Outcome.complete_after {cap : Nat} {last : Position} (s : Outcome) (issues : List Issue)
    (n : Nat) (rest : Tokens) :
    Outcome.complete cap last ⟨s.builder, issues ++ s.issues, n + s.more⟩ rest =
      told issues (s.complete cap last (rest.drop n)) := by
  simp only [Outcome.complete, told_told, List.drop_drop]

namespace Builder

variable {cap : Nat} {last : Position} {b : Builder} {frame : Frame} {outer : List Frame}
  {top : List Item}

theorem complete_cons (t : Token TokenKind) (rest : Tokens) :
    b.complete cap last (t :: rest) = (b.step cap last t rest).complete cap last rest := by
  rw [complete, run]
  simp only [Outcome.complete, complete, told_told]

@[simp] theorem openings_addItem (b : Builder) (item : Item) :
    (b.addItem item).stack.map Frame.opening = b.stack.map Frame.opening := by
  obtain ⟨stack, top⟩ := b
  rcases stack with - | ⟨⟨⟩ | ⟨⟩, outer⟩ <;> rfl

@[simp] theorem length_addItem (b : Builder) (item : Item) :
    (b.addItem item).stack.length = b.stack.length := by
  have same := congrArg List.length (openings_addItem b item)
  rwa [List.length_map, List.length_map] at same

theorem finish_issues (b : Builder) (last : Position) :
    (b.finish last).2 = (b.stack.map Frame.opening).map fun s => ⟨.unclosedBlock, s⟩ := by
  simp [finish]

/-- Where the tokens end, a block that is still open ends there. -/
theorem complete_unclosed :
    Builder.complete cap last ⟨frame :: outer, top⟩ [] = told [⟨.unclosedBlock, frame.opening⟩]
      ((Builder.addItem ⟨outer, top⟩ (frame.close none last)).complete cap last []) := by
  have closed : (Builder.addItem ⟨outer, top⟩ (frame.close none last)).stack.length =
      outer.length := length_addItem _ _
  simp only [complete, run, told_nil]
  refine Prod.ext ?_ ?_
  · simp only [finish, told, closed]
    rfl
  · simp only [told, finish_issues, openings_addItem]
    rfl

/-- What the builder does with a token that says nothing about the structure itself. -/
theorem step_other {t : Token TokenKind} {rest : Tokens} (other : t.kind ∉
    [.blank, .semicolon, .comment, .braceClose, .atKeyword]) :
    b.step cap last t rest = if b.inBlock then b.takeEntry cap last t rest
      else if t.kind = .cdo ∨ t.kind = .cdc ∨ t.kind = .byteOrderMark then ⟨b, [], 0⟩
      else b.takeRule cap last t rest := by
  simp only [List.mem_cons, List.not_mem_nil, or_false, not_or] at other
  obtain ⟨blank, semicolon, comment, braceClose, atKeyword⟩ := other
  rw [step]
  split <;> first | contradiction | rfl

end Builder

namespace Descent

/-! ## Following the builder -/

/-- Where the last token ends. -/
def lastOf (ts : Tokens) : Position := ((ts.getLast?.map Token.span).getD (.emptyAt .start)).finish

theorem blockEnd_eq {ts : Tokens} {t : Token TokenKind} (some_ : t ∈ ts) (opening : Span)
    (closing : Option Span) :
    blockEnd ts opening closing = (closing.map Span.finish).getD (lastOf ts) := by
  rw [blockEnd, lastOf]
  cases closing with
  | some s => rfl
  | none =>
      cases final : ts.getLast? with
      | none =>
          rw [List.getLast?_eq_none_iff.mp final] at some_
          cases some_
      | some u => rfl

variable {cap : Nat} {ts rest : Tokens} {b b' b'' : Builder} {place place' place'' : Place}
  {issues more : List Issue} {t e : Token TokenKind} {pos depth : Nat}

/-- The builder goes from one place to another: it takes the tokens between them, and goes on from
there as before. No more blocks are open than there were. -/
structure Follows (cap : Nat) (ts : Tokens) (b : Builder) (place : Place) (issues : List Issue)
    (b' : Builder) (place' : Place) : Prop where
  depth : place'.depth = place.depth
  forward : place.pos ≤ place'.pos
  bound : place'.pos ≤ ts.length
  same : b.complete cap (lastOf ts) (ts.drop place.pos) =
    told issues (b'.complete cap (lastOf ts) (ts.drop place'.pos))

namespace Follows

theorem refl (bound : place.pos ≤ ts.length) : Follows cap ts b place [] b place :=
  ⟨rfl, Nat.le_refl _, bound, rfl⟩

theorem trans (first : Follows cap ts b place issues b' place')
    (second : Follows cap ts b' place' more b'' place'') :
    Follows cap ts b place (issues ++ more) b'' place'' where
  depth := second.depth.trans first.depth
  forward := first.forward.trans second.forward
  bound := second.bound
  same := by rw [first.same, second.same, told_told]

/-- One step of the builder. -/
theorem step (here : ts.drop pos = t :: rest) (depth : Nat) {s : Outcome}
    (taken : b.step cap (lastOf ts) t rest = s) (inside : pos + 1 + s.more ≤ ts.length) :
    Follows cap ts b ⟨pos, depth⟩ s.issues s.builder ⟨pos + 1 + s.more, depth⟩ where
  depth := rfl
  forward := by dsimp only; omega
  bound := inside
  same := by
    rw [here, Builder.complete_cons, taken, Outcome.complete, ← List.drop_drop,
      (tail_of_drop here).2.1]

end Follows

/-- A builder outside blocks of declarations, by the items that are added there. -/
structure Slot (nested keyframes : Bool) (depth : Nat) (put : List Item → Builder) : Prop where
  item : ∀ items item, (put items).addItem item = put (item :: items)
  comment : ∀ items c, (put items).addComment c = put (.comment c :: items)
  declaration : ∀ items d, (put items).addDeclaration d = put (Builder.addBare d items)
  outside : ∀ items, (put items).inBlock = false
  keyframes : ∀ items, (put items).inKeyframes = keyframes
  nested : ∀ items, (put items).stack.isEmpty = !nested
  depth : ∀ items, (put items).stack.length = depth

theorem slot_top : Slot false false 0 fun items => ⟨[], items⟩ :=
  ⟨fun _ _ => rfl, fun _ _ => rfl, fun _ _ => rfl, fun _ => rfl, fun _ => rfl, fun _ => rfl,
    fun _ => rfl⟩

theorem slot_rules (head : AtHead) (opening : Span) (outer : List Frame) (top : List Item) :
    Slot true (namesKeyframes head.name) (outer.length + 1)
      fun items => ⟨.rules head opening items :: outer, top⟩ :=
  ⟨fun _ _ => rfl, fun _ _ => rfl, fun _ _ => rfl, fun _ => rfl, fun _ => rfl, fun _ => rfl,
    fun _ => rfl⟩

/-- A block of declarations that is open, by the entries that are added there. -/
def Entries.put (owner : Owner) (opening : Span) (outer : List Frame) (top : List Item)
    (entries : Entries) : Builder :=
  ⟨.block owner opening entries.declarations entries.comments entries.nested :: outer, top⟩

/-- From a position on, the loop over items reads what the builder adds, up to the end of the tokens
or to a `}`. -/
def ItemsRead (cap : Nat) (ts : Tokens) (pos : Nat) : Prop :=
  ∀ {nested keyframes : Bool} {depth : Nat} {put : List Item → Builder} (items : List Item),
    Slot nested keyframes depth put → pos ≤ ts.length →
    ∃ a, items? cap ts nested keyframes items ⟨pos, depth⟩ = some a ∧
      Follows cap ts (put items) ⟨pos, depth⟩ a.issues (put a.value) a.place ∧
      ∀ t, ts[a.place.pos]? = some t → nested ∧ t.kind = .braceClose

/-- From a position on, the loop over entries reads what the builder adds, and ends where the block
ends. -/
def EntriesRead (cap : Nat) (ts : Tokens) (pos : Nat) : Prop :=
  ∀ (owner : Owner) (opening : Span) (outer : List Frame) (top : List Item) (entries : Entries),
    entries.closing = none → pos ≤ ts.length →
    ∃ a, entries? cap ts entries ⟨pos, outer.length + 1⟩ = some a ∧
      a.place.depth = outer.length + 1 ∧ pos ≤ a.place.pos ∧ a.place.pos ≤ ts.length ∧
      (entries.put owner opening outer top).complete cap (lastOf ts) (ts.drop pos) =
        told (a.issues ++ unclosed opening a.value.closing)
          (((a.value.put owner opening outer top).close a.value.closing (lastOf ts)).complete cap
            (lastOf ts) (ts.drop a.place.pos))

/-! ## Blocks -/

/-- A block that is open ends at the `}` that comes next, or else with the tokens. -/
theorem complete_close (cap : Nat) (last : Position) (frame : Frame) (outer : List Frame)
    (top : List Item) (ended : ∀ t, ts[pos]? = some t → t.kind = .braceClose) :
    Builder.complete cap last ⟨frame :: outer, top⟩ (ts.drop pos) =
      told (unclosed frame.opening ((ts[pos]?.filter (·.kind == .braceClose)).map Token.span))
        ((Builder.close ⟨frame :: outer, top⟩
          ((ts[pos]?.filter (·.kind == .braceClose)).map Token.span) last).complete cap last
          (ts.drop (pos + (ts[pos]?.filter (·.kind == .braceClose)).toList.length))) := by
  cases found : ts[pos]? with
  | none =>
      have nothing : ts.drop pos = [] := drop_of_none found
      simp only [Option.filter_none, Option.toList_none, List.length_nil, Nat.add_zero, nothing]
      exact Builder.complete_unclosed
  | some t =>
      have kind := ended t found
      have step : Builder.step cap last ⟨frame :: outer, top⟩ t (ts.drop (pos + 1)) =
          ⟨Builder.close ⟨frame :: outer, top⟩ (some t.span) last, [], 0⟩ := by
        rw [Builder.step, kind]
        rfl
      rw [Option.filter_some, if_pos (by simp [kind]), drop_of_some found, Builder.complete_cons,
        step]
      rfl

theorem skipBlock?_eq (cap : Nat) (ts : Tokens) (opening : Span) (place : Place) :
    skipBlock? cap ts opening place = some ⟨(blockExtent 0 (ts.drop place.pos)).2,
      ⟨.tooDeep cap, opening⟩ :: unclosed opening (blockExtent 0 (ts.drop place.pos)).2,
      ⟨place.pos + (blockExtent 0 (ts.drop place.pos)).1, place.depth⟩⟩ := by
  rw [skipBlock?, skip?_eq]
  rfl

theorem skip_le (here : ts.drop pos = t :: rest) (depth : Nat) :
    pos + 1 + (blockExtent depth rest).1 ≤ ts.length := by
  obtain ⟨-, tail, lt⟩ := tail_of_drop here
  have le := blockExtent_le depth rest
  rw [← tail, List.length_drop] at le
  rw [← tail]
  omega

/-- **A block is read**, its `{` being in range: what the builder does with the block that it opens is
to add what is read. -/
theorem block?_follows (entries : ∀ p, pos < p → EntriesRead cap ts p)
    (here : ts.drop pos = e :: rest) (kind : e.kind = .braceOpen) (b : Builder) (owner : Owner) :
    ∃ a, block? cap ts ⟨pos, b.stack.length⟩ = some a ∧ a.place.depth = b.stack.length ∧
      pos < a.place.pos ∧ a.place.pos ≤ ts.length ∧
      (b.openBlock cap (lastOf ts) (.block owner e.span [] [] []) rest).complete cap (lastOf ts)
          rest =
        told a.issues ((b.addItem (owner.toItem a.value)).complete cap (lastOf ts)
          (ts.drop a.place.pos)) := by
  obtain ⟨found, tail, lt⟩ := tail_of_drop here
  have brace : ts[pos]?.filter (·.kind == .braceOpen) = some e := by
    rw [found, Option.filter_some, if_pos (by simp [kind])]
  have member : e ∈ ts := List.mem_of_getElem? found
  rw [block?]
  split
  next none_ =>
    rw [brace] at none_
    cases none_
  next e' some_ =>
    obtain rfl := Option.some.inj (brace.symm.trans some_)
    by_cases capped : cap ≤ b.stack.length
    · rw [if_pos capped, skipBlock?_eq, Option.bind_eq_bind, Option.bind_some]
      refine ⟨_, rfl, rfl, ?_, ?_, ?_⟩
      · dsimp only
        omega
      · rw [tail]
        exact skip_le here 0
      · simp only [Outcome.complete, Builder.openBlock, if_pos capped, Frame.opening, Frame.close,
          tail, blockEnd_eq member]
        rw [← List.drop_drop, tail]
        rfl
    · obtain ⟨a, read, depth, forward, bound, same⟩ := entries (pos + 1) (Nat.lt_succ_self pos)
        owner e.span b.stack b.top ⟨[], [], [], none⟩ rfl lt
      rw [if_neg capped, read]
      simp only [Option.bind_eq_bind, Option.bind_some, depth, down?_succ]
      refine ⟨_, rfl, rfl, forward, bound, ?_⟩
      simp only [Outcome.complete, Builder.openBlock, if_neg capped, told_nil, List.drop_zero,
        blockEnd_eq member]
      rw [tail] at same
      exact same

/-- **The items of an at-rule are read**, its `{` being in range: what the builder does with the block
that it opens is to add what is read. -/
theorem ruleBlock?_follows (items : ∀ p, pos < p → ItemsRead cap ts p)
    (here : ts.drop pos = e :: rest) (kind : e.kind = .braceOpen) (b : Builder) (head : AtHead) :
    ∃ a, ruleBlock? cap ts head ⟨pos, b.stack.length⟩ = some a ∧ a.place.depth = b.stack.length ∧
      pos < a.place.pos ∧ a.place.pos ≤ ts.length ∧
      (b.openBlock cap (lastOf ts) (.rules head e.span []) rest).complete cap (lastOf ts) rest =
        told a.issues ((b.addItem (.atRule a.value)).complete cap (lastOf ts)
          (ts.drop a.place.pos)) := by
  obtain ⟨found, tail, lt⟩ := tail_of_drop here
  have brace : ts[pos]?.filter (·.kind == .braceOpen) = some e := by
    rw [found, Option.filter_some, if_pos (by simp [kind])]
  have member : e ∈ ts := List.mem_of_getElem? found
  rw [ruleBlock?]
  split
  next none_ =>
    rw [brace] at none_
    cases none_
  next e' some_ =>
    obtain rfl := Option.some.inj (brace.symm.trans some_)
    by_cases capped : cap ≤ b.stack.length
    · rw [if_pos capped, skipBlock?_eq, Option.bind_eq_bind, Option.bind_some]
      refine ⟨_, rfl, rfl, ?_, ?_, ?_⟩
      · dsimp only
        omega
      · rw [tail]
        exact skip_le here 0
      · simp only [Outcome.complete, Builder.openBlock, if_pos capped, Frame.opening, tail,
          blockEnd_eq member]
        rw [← List.drop_drop, tail]
        rfl
    · obtain ⟨a, read, follows, ended⟩ := items (pos + 1) (Nat.lt_succ_self pos) []
        (slot_rules head e.span b.stack b.top) lt
      have depth : a.place.depth = b.stack.length + 1 := follows.depth
      have forward : pos + 1 ≤ a.place.pos := follows.forward
      have same := follows.same
      have closed := complete_close cap (lastOf ts) (.rules head e.span a.value) b.stack b.top
        fun t found => (ended t found).2
      rw [if_neg capped, read]
      simp only [Option.bind_eq_bind, Option.bind_some, depth, down?_succ]
      refine ⟨_, rfl, rfl, ?_, length_filter_le _ follows.bound, ?_⟩
      · dsimp only
        omega
      · simp only [Outcome.complete, Builder.openBlock, if_neg capped, told_nil, List.drop_zero]
        rw [tail] at same
        rw [same, closed, told_told]
        rfl

/-! ## Rules -/

/-- The tokens up to where a prelude ends are in range. -/
theorem slice?_scan (here : ts.drop pos = rest) (inside : pos ≤ ts.length) :
    slice? ts pos (scan ts pos) = some (rest.take (preludeExtent 0 rest)) := by
  have whole := slice?_of_le (Nat.le_add_right pos _) (scan_le inside)
  rw [Nat.add_sub_cancel_left, here] at whole
  rwa [scan, here]

theorem getElem?_scan (here : ts.drop pos = rest) :
    ts[scan ts pos]? = rest[preludeExtent 0 rest]? := by
  rw [scan, ← List.getElem?_drop, here]

/-- **A style rule is read**, where the builder begins one. -/
theorem styleRule?_follows (entries : ∀ p, pos < p → EntriesRead cap ts p)
    (here : ts.drop pos = t :: rest)
    (brace : (t :: rest)[preludeExtent 0 (t :: rest)]?.any (·.kind == .braceOpen))
    (b : Builder) (keyframe : Bool)
    (opens : ∀ e, (t :: rest)[preludeExtent 0 (t :: rest)]? = some e →
      b.step cap (lastOf ts) t rest = b.openStyle cap (lastOf ts) keyframe
        (preludeExtent 0 (t :: rest)) e.span (t :: rest)) :
    ∃ a, styleRule? cap ts keyframe ⟨pos, b.stack.length⟩ = some a ∧ pos < a.place.pos ∧
      Follows cap ts b ⟨pos, b.stack.length⟩ a.issues (b.addItem (.style a.value)) a.place := by
  obtain ⟨found, tail, lt⟩ := tail_of_drop here
  obtain ⟨e, ended, kind⟩ := (Option.any_eq_true _ _).mp brace
  have step := opens e ended
  have cut := slice?_scan here lt.le
  have place : scan ts pos = pos + preludeExtent 0 (t :: rest) := by rw [scan, here]
  have there : ts.drop (scan ts pos) = e :: (t :: rest).drop (preludeExtent 0 (t :: rest) + 1) := by
    rw [place, ← List.drop_drop, here, drop_of_some ended]
  obtain ⟨a, read, depth, further, bound, same⟩ := block?_follows
    (fun p le => entries p (by rw [place] at le; omega)) there (eq_of_beq kind) b
    (.style (readSelectors (trimTrivia ((t :: rest).take (preludeExtent 0 (t :: rest))))).1
      (spanOf? (trimTrivia ((t :: rest).take (preludeExtent 0 (t :: rest))))) keyframe)
  rw [styleRule?]
  simp only [cut, trim?_eq, selectors?_eq, read, Option.bind_eq_bind, Option.bind_some]
  refine ⟨_, rfl, ?_, depth, ?_, bound, ?_⟩
  · dsimp only
    omega
  · dsimp only
    omega
  · rw [here, Builder.complete_cons, step]
    have whole := congrArg
      (told (readSelectors (trimTrivia ((t :: rest).take (preludeExtent 0 (t :: rest))))).2) same
    rw [told_told] at whole
    exact (Outcome.complete_after _ _ _ _).trans whole

/-- **An at-rule is read.** -/
theorem atRule?_follows (items : ∀ p, pos < p → ItemsRead cap ts p)
    (entries : ∀ p, pos < p → EntriesRead cap ts p) (here : ts.drop pos = t :: rest)
    (kind : t.kind = .atKeyword) (keyed : ∃ word, t.text = '@' :: word) (b : Builder) :
    ∃ a, atRule? cap ts ⟨pos, b.stack.length⟩ = some a ∧ pos < a.place.pos ∧
      Follows cap ts b ⟨pos, b.stack.length⟩ a.issues (b.addItem (.atRule a.value)) a.place := by
  obtain ⟨found, tail, lt⟩ := tail_of_drop here
  obtain ⟨word, text⟩ := keyed
  have written : afterSign? t.text = some word := by rw [text, afterSign?]
  have same : t.text.drop 1 = word := by rw [text]; rfl
  have cut := slice?_scan tail lt
  have ended := getElem?_scan tail
  have place : scan ts (pos + 1) = pos + 1 + preludeExtent 0 rest := by rw [scan, tail]
  have extent : pos + 1 + preludeExtent 0 rest ≤ ts.length := place ▸ scan_le lt
  have step : b.step cap (lastOf ts) t rest = b.takeAtRule cap (lastOf ts) t rest := by
    rw [Builder.step, kind]
  rw [atRule?]
  split
  next none_ =>
    rw [found] at none_
    cases none_
  next t' some_ =>
    obtain rfl := Option.some.inj (found.symm.trans some_)
    simp only [written, cut, trim?_eq, ended, Option.bind_eq_bind, Option.bind_some]
    simp only [Builder.takeAtRule, same] at step
    rw [place]
    generalize preludeExtent 0 rest = n at place extent step ⊢
    generalize shape : (⟨lowerAscii word, t.span, trimTrivia (rest.take n)⟩ : AtHead) = head
      at step ⊢
    have name : lowerAscii word = head.name := by rw [← shape]
    rw [name] at step ⊢
    have broken : ∀ issues, b.step cap (lastOf ts) t rest =
        ⟨b.addItem (.atRule (head.toRule .statement head.finish)), issues, n⟩ →
        Follows cap ts b ⟨pos, b.stack.length⟩ issues
          (b.addItem (.atRule (head.toRule .statement head.finish)))
          ⟨pos + 1 + n, b.stack.length⟩ :=
      fun issues step => .step here _ step extent
    split
    next none_ =>
      rw [none_] at step
      exact ⟨_, rfl, by dsimp only; omega, broken _ step⟩
    next e there =>
      simp only [there] at step
      have inside : rest.drop n = e :: rest.drop (n + 1) := drop_of_some there
      have position : ts.drop (pos + 1 + n) = e :: rest.drop (n + 1) := by
        rw [← List.drop_drop, tail, inside]
      have further := (tail_of_drop position).2.2
      by_cases semicolon : e.kind = .semicolon
      · rw [if_pos semicolon]
        rw [if_pos semicolon] at step
        exact ⟨_, rfl, by dsimp only; omega, .step here _ step further⟩
      rw [if_neg semicolon]
      rw [if_neg semicolon] at step
      by_cases brace : e.kind = .braceOpen
      · rw [if_pos brace]
        rw [if_pos brace] at step
        have goesOn : ∀ frame : Frame,
            b.step cap (lastOf ts) t rest =
              ⟨(b.openBlock cap (lastOf ts) frame (rest.drop (n + 1))).builder,
                (b.openBlock cap (lastOf ts) frame (rest.drop (n + 1))).issues,
                n + 1 + (b.openBlock cap (lastOf ts) frame (rest.drop (n + 1))).more⟩ →
            b.complete cap (lastOf ts) (ts.drop pos) =
              (b.openBlock cap (lastOf ts) frame (rest.drop (n + 1))).complete cap (lastOf ts)
                (rest.drop (n + 1)) := by
          intro frame step
          rw [here, Builder.complete_cons, step]
          exact Outcome.complete_after _ [] _ _
        by_cases named : declarationAtRules.contains head.name
        · rw [if_pos named]
          rw [if_pos named] at step
          obtain ⟨a, read, depth, further, bound, same⟩ := block?_follows
            (fun p le => entries p (by omega)) position brace b (.atRule head)
          rw [read, Option.bind_some]
          refine ⟨_, rfl, by dsimp only; omega, depth, by dsimp only; omega, bound, ?_⟩
          rw [goesOn _ step]
          exact same
        rw [if_neg named]
        rw [if_neg named] at step
        obtain ⟨a, read, depth, further, bound, same⟩ := ruleBlock?_follows
          (fun p le => items p (by omega)) position brace b head
        rw [read]
        refine ⟨_, rfl, by omega, depth, by dsimp only; omega, bound, ?_⟩
        rw [goesOn _ step]
        exact same
      · rw [if_neg brace]
        rw [if_neg brace] at step
        exact ⟨_, rfl, by dsimp only; omega, broken _ step⟩

/-! ## Turns -/

theorem preludeExtent_pos (goesOn : ¬endsPrelude t) (rest : Tokens) :
    0 < preludeExtent 0 (t :: rest) := by
  rw [preludeExtent]
  split_ifs
  · exact Nat.succ_pos _
  · exact Nat.succ_pos _
  next ends => exact absurd ends.1 goesOn
  · exact Nat.succ_pos _

/-- A token where a rule or a declaration may begin is passed, unless it is the `{` of a rule. -/
theorem preludeExtent_pos_of_any (semicolon : t.kind ≠ .semicolon) (braceClose : t.kind ≠ .braceClose)
    (brace : ¬(t :: rest)[preludeExtent 0 (t :: rest)]?.any (·.kind == .braceOpen)) :
    0 < preludeExtent 0 (t :: rest) := by
  refine preludeExtent_pos (fun ends => ?_) rest
  have opens : t.kind = .braceOpen := by
    simpa [endsPrelude, semicolon, braceClose] using ends
  have none_ : preludeExtent 0 (t :: rest) = 0 := by
    simp [preludeExtent, opensBracket, closesBracket, endsPrelude, opens]
  rw [none_] at brace
  simp [opens] at brace

theorem entryExtent_pos (goesOn : t.kind ≠ .braceClose) (rest : Tokens) :
    0 < entryExtent 0 (t :: rest) := by
  simp only [entryExtent, if_neg goesOn]
  split_ifs <;> exact Nat.succ_pos _

theorem add_length_filter (o : Option (Token TokenKind)) (p : Token TokenKind → Bool) (n : Nat) :
    n + (o.filter p).toList.length = if o.any p then n + 1 else n := by
  cases o with
  | none => rfl
  | some t => cases holds : p t <;> simp [Option.filter_some, holds]

/-- A declaration is read where the builder takes one. -/
theorem declaration?_follows (here : ts.drop pos = t :: rest) {d : Declaration} {n : Nat}
    (read : Declaration.read? t rest = some (d, n))
    (step : b.step cap (lastOf ts) t rest = ⟨b.addDeclaration d, [], n - 1⟩) (depth : Nat) :
    declaration? ts pos = some (d, pos + n) ∧ pos < pos + n ∧
      Follows cap ts b ⟨pos, depth⟩ [] (b.addDeclaration d) ⟨pos + n, depth⟩ := by
  obtain ⟨found, positive, inside⟩ := declaration?_eq here read
  have place : pos + 1 + (n - 1) = pos + n := by omega
  have follows := Follows.step here depth step (by dsimp only; omega)
  dsimp only at follows
  rw [place] at follows
  exact ⟨found, by omega, follows⟩

/-- A rule or a declaration outside blocks of declarations is read, or passed over. -/
theorem ruleOrDeclaration?_follows (entries : ∀ p, pos < p → EntriesRead cap ts p)
    (here : ts.drop pos = t :: rest) {nested keyframes : Bool} {put : List Item → Builder}
    (slot : Slot nested keyframes depth put) (items : List Item)
    (step : (put items).step cap (lastOf ts) t rest = (put items).takeRule cap (lastOf ts) t rest)
    (semicolon : t.kind ≠ .semicolon) (braceClose : t.kind ≠ .braceClose) :
    ∃ a, ruleOrDeclaration? cap ts keyframes items ⟨pos, depth⟩ = some a ∧ pos < a.place.pos ∧
      Follows cap ts (put items) ⟨pos, depth⟩ a.issues (put a.value) a.place := by
  obtain ⟨found, tail, lt⟩ := tail_of_drop here
  have ended := getElem?_scan here
  have depth' := slot.depth items
  subst depth'
  rw [ruleOrDeclaration?]
  simp only [ended]
  by_cases brace : (t :: rest)[preludeExtent 0 (t :: rest)]?.any (·.kind == .braceOpen)
  · obtain ⟨a, read, further, follows⟩ := styleRule?_follows entries here brace (put items) keyframes
      (by
        intro e there
        rw [step]
        simp only [Builder.takeRule, slot.keyframes]
        rw [if_pos brace, there]
        rfl)
    rw [if_pos brace, read, Option.bind_eq_bind, Option.bind_some]
    rw [slot.item] at follows
    exact ⟨_, rfl, further, follows⟩
  rw [if_neg brace, looksLikeDeclaration?_eq here]
  simp only [Builder.takeRule, if_neg brace] at step
  simp only [Option.bind_eq_bind, Option.bind_some]
  cases read : Declaration.read? t rest with
  | some taken =>
      obtain ⟨d, n⟩ := taken
      simp only [read] at step
      obtain ⟨answered, further, follows⟩ :=
        declaration?_follows here read step (put items).stack.length
      simp only [Option.isSome_some, if_true, answered, Option.bind_some]
      rw [slot.declaration] at follows
      exact ⟨_, rfl, further, follows⟩
  | none =>
      simp only [read] at step
      have positive := preludeExtent_pos_of_any semicolon braceClose brace
      have through := length_filter_le (·.kind == .semicolon) (scan_le lt.le)
      rw [ended, scan, here] at through
      have whole : (put items).step cap (lastOf ts) t rest = ⟨put items,
          ((spanOf? (trimTrivia ((t :: rest).take (preludeExtent 0 (t :: rest))))).map
            fun span => (⟨.strayTokens, span⟩ : Issue)).toList,
          preludeExtent 0 (t :: rest) + ((t :: rest)[preludeExtent 0 (t :: rest)]?.filter
            (·.kind == .semicolon)).toList.length - 1⟩ := by
        rw [step, add_length_filter]
        cases spanOf? (trimTrivia ((t :: rest).take (preludeExtent 0 (t :: rest)))) <;> rfl
      simp only [Option.isSome_none, Bool.false_eq_true, if_false, slice?_scan here lt.le, trim?_eq,
        Option.bind_some]
      refine ⟨_, rfl, by dsimp only; rw [scan, here]; omega, ?_⟩
      have follows := Follows.step here (put items).stack.length whole
        (by dsimp only; omega)
      have place : pos + 1 + (preludeExtent 0 (t :: rest) + ((t :: rest)[preludeExtent 0
          (t :: rest)]?.filter (·.kind == .semicolon)).toList.length - 1) =
          scan ts pos + ((t :: rest)[preludeExtent 0 (t :: rest)]?.filter
            (·.kind == .semicolon)).toList.length := by
        rw [scan, here]
        omega
      dsimp only at follows
      rwa [place] at follows

/-- **A turn of the loop over items** reads what the builder adds, and comes further. -/
theorem itemTurn?_follows (items : ∀ p, pos < p → ItemsRead cap ts p)
    (entries : ∀ p, pos < p → EntriesRead cap ts p) (keyed : Keyed ts)
    (here : ts.drop pos = t :: rest) {nested keyframes : Bool} {put : List Item → Builder}
    (slot : Slot nested keyframes depth put) (before : List Item)
    (goesOn : ¬(nested && t.kind == .braceClose)) :
    ∃ a, itemTurn? cap ts keyframes before t ⟨pos, depth⟩ = some a ∧ pos < a.place.pos ∧
      Follows cap ts (put before) ⟨pos, depth⟩ a.issues (put a.value) a.place := by
  obtain ⟨found, tail, lt⟩ := tail_of_drop here
  have outside := slot.outside before
  have one : ∀ issues after, (put before).step cap (lastOf ts) t rest = ⟨put after, issues, 0⟩ →
      pos < pos + 1 ∧
        Follows cap ts (put before) ⟨pos, depth⟩ issues (put after) ⟨pos + 1, depth⟩ :=
    fun issues after step => ⟨Nat.lt_succ_self pos, Follows.step here _ step lt⟩
  rw [itemTurn?]
  split
  next kind => exact ⟨_, rfl, one [] before (by rw [Builder.step, kind])⟩
  next kind =>
    refine ⟨_, rfl, one [] before ?_⟩
    rw [Builder.step_other (by simp [kind]), outside, if_neg Bool.false_ne_true,
      if_pos (.inl kind)]
  next kind =>
    refine ⟨_, rfl, one [] before ?_⟩
    rw [Builder.step_other (by simp [kind]), outside, if_neg Bool.false_ne_true,
      if_pos (.inr (.inl kind))]
  next kind =>
    refine ⟨_, rfl, one [] before ?_⟩
    rw [Builder.step_other (by simp [kind]), outside, if_neg Bool.false_ne_true,
      if_pos (.inr (.inr kind))]
  next kind => exact ⟨_, rfl, one [] before (by rw [Builder.step, kind])⟩
  next kind =>
    exact ⟨_, rfl, one [] _ (by rw [Builder.step, kind, slot.comment])⟩
  next kind =>
    refine ⟨_, rfl, one _ before ?_⟩
    have top : (put before).stack.isEmpty = true := by
      rw [slot.nested before]
      simpa [kind] using goesOn
    rw [Builder.step, kind]
    simp only [top, if_true]
  next kind =>
    obtain ⟨a, read, further, follows⟩ := atRule?_follows items entries here kind
      (keyed t (List.mem_of_getElem? found) kind) (put before)
    rw [slot.depth] at read follows
    rw [slot.item] at follows
    rw [read, Option.bind_eq_bind, Option.bind_some]
    exact ⟨_, rfl, further, follows⟩
  next blank cdo cdc byteOrderMark semicolon comment braceClose atKeyword =>
    refine ruleOrDeclaration?_follows entries here slot before ?_ semicolon braceClose
    have other : t.kind ∉ [.blank, .semicolon, .comment, .braceClose, .atKeyword] := by
      simp only [List.mem_cons, List.not_mem_nil, or_false, not_or]
      exact ⟨blank, semicolon, comment, braceClose, atKeyword⟩
    have solid : ¬(t.kind = .cdo ∨ t.kind = .cdc ∨ t.kind = .byteOrderMark) := by
      simp only [not_or]
      exact ⟨cdo, cdc, byteOrderMark⟩
    rw [Builder.step_other other, outside, if_neg Bool.false_ne_true, if_neg solid]

/-- A nested rule or a declaration in a block is read, or a malformed entry is passed over. -/
theorem nestedOrDeclaration?_follows (entries : ∀ p, pos < p → EntriesRead cap ts p)
    (here : ts.drop pos = t :: rest) (owner : Owner) (opening : Span) (outer : List Frame)
    (top : List Item) (before : Entries)
    (step : (before.put owner opening outer top).step cap (lastOf ts) t rest =
      (before.put owner opening outer top).takeEntry cap (lastOf ts) t rest)
    (braceClose : t.kind ≠ .braceClose) :
    ∃ a, nestedOrDeclaration? cap ts before ⟨pos, outer.length + 1⟩ = some a ∧ pos < a.place.pos ∧
      a.value.closing = before.closing ∧
      Follows cap ts (before.put owner opening outer top) ⟨pos, outer.length + 1⟩ a.issues
        (a.value.put owner opening outer top) a.place := by
  obtain ⟨found, tail, lt⟩ := tail_of_drop here
  rw [nestedOrDeclaration?]
  simp only [here]
  by_cases nested : startsNestedRule (t :: rest)
  · have brace : (t :: rest)[preludeExtent 0 (t :: rest)]?.any (·.kind == .braceOpen) := by
      rw [startsNestedRule, Bool.and_eq_true] at nested
      exact nested.2
    obtain ⟨a, read, further, follows⟩ := styleRule?_follows entries here brace
      (before.put owner opening outer top) false
      (by
        intro e there
        rw [step]
        simp only [Builder.takeEntry]
        rw [if_pos nested, there]
        rfl)
    rw [if_pos nested, show outer.length + 1 =
      (before.put owner opening outer top).stack.length from rfl, read, Option.bind_eq_bind,
      Option.bind_some]
    exact ⟨_, rfl, further, rfl, follows⟩
  rw [if_neg nested, looksLikeDeclaration?_eq here]
  simp only [Builder.takeEntry, if_neg nested] at step
  simp only [Option.bind_eq_bind, Option.bind_some]
  cases read : Declaration.read? t rest with
  | some taken =>
      obtain ⟨d, n⟩ := taken
      simp only [read] at step
      obtain ⟨answered, further, follows⟩ := declaration?_follows here read step (outer.length + 1)
      simp only [Option.isSome_some, if_true, answered, Option.bind_some]
      exact ⟨_, rfl, further, rfl, follows⟩
  | none =>
      simp only [read] at step
      have positive := entryExtent_pos braceClose rest
      have le := entryExtent_le 0 (t :: rest)
      have length : (t :: rest).length = ts.length - pos := by rw [← here, List.length_drop]
      have recovered : recover? ts 0 pos = some (pos + entryExtent 0 (t :: rest)) := by
        rw [recover?_eq, here]
      generalize entryExtent 0 (t :: rest) = n at positive le recovered step
      have cut : slice? ts pos (pos + n) = some ((t :: rest).take n) := by
        rw [slice?_of_le (Nat.le_add_right _ _) (by omega), here, Nat.add_sub_cancel_left]
      simp only [Option.isSome_none, Bool.false_eq_true, if_false, recovered, cut, trim?_eq,
        Option.bind_some]
      generalize trimTrivia ((t :: rest).take n) = skipped at step ⊢
      -- Whatever there is to tell of the skipped tokens, both tell it.
      cases first : skipped.head? <;> cases span : spanOf? skipped
      all_goals
        simp only [first, span] at step ⊢
        refine ⟨_, rfl, by dsimp only; omega, rfl, ?_⟩
        have follows := Follows.step here (outer.length + 1) step (by dsimp only; omega)
        have place : pos + 1 + (n - 1) = pos + n := by omega
        dsimp only at follows
        rwa [place] at follows

/-- **A turn of the loop over entries** reads what the builder adds, and comes further. -/
theorem entryTurn?_follows (items : ∀ p, pos < p → ItemsRead cap ts p)
    (entries : ∀ p, pos < p → EntriesRead cap ts p) (keyed : Keyed ts)
    (here : ts.drop pos = t :: rest) (owner : Owner) (opening : Span) (outer : List Frame)
    (top : List Item) (before : Entries) (braceClose : t.kind ≠ .braceClose) :
    ∃ a, entryTurn? cap ts before t ⟨pos, outer.length + 1⟩ = some a ∧ pos < a.place.pos ∧
      a.value.closing = before.closing ∧
      Follows cap ts (before.put owner opening outer top) ⟨pos, outer.length + 1⟩ a.issues
        (a.value.put owner opening outer top) a.place := by
  obtain ⟨found, tail, lt⟩ := tail_of_drop here
  have one : ∀ after : Entries, (before.put owner opening outer top).step cap (lastOf ts) t rest =
        ⟨after.put owner opening outer top, [], 0⟩ →
      Follows cap ts (before.put owner opening outer top) ⟨pos, outer.length + 1⟩ []
        (after.put owner opening outer top) ⟨pos + 1, outer.length + 1⟩ :=
    fun after step => Follows.step here _ step lt
  rw [entryTurn?]
  split
  next kind =>
    exact ⟨_, rfl, Nat.lt_succ_self pos, rfl, one before (by rw [Builder.step, kind])⟩
  next kind =>
    exact ⟨_, rfl, Nat.lt_succ_self pos, rfl, one before (by rw [Builder.step, kind])⟩
  next kind =>
    exact ⟨_, rfl, Nat.lt_succ_self pos, rfl, one _ (by rw [Builder.step, kind]; rfl)⟩
  next kind =>
    obtain ⟨a, read, further, follows⟩ := atRule?_follows items entries here kind
      (keyed t (List.mem_of_getElem? found) kind) (before.put owner opening outer top)
    rw [show outer.length + 1 = (before.put owner opening outer top).stack.length from rfl, read,
      Option.bind_eq_bind, Option.bind_some]
    exact ⟨_, rfl, further, rfl, follows⟩
  next blank semicolon comment atKeyword =>
    have other : t.kind ∉ [.blank, .semicolon, .comment, .braceClose, .atKeyword] := by
      simp only [List.mem_cons, List.not_mem_nil, or_false, not_or]
      exact ⟨blank, semicolon, comment, braceClose, atKeyword⟩
    refine nestedOrDeclaration?_follows entries here owner opening outer top before ?_ braceClose
    rw [Builder.step_other other]
    rfl

/-! ## Loops -/

theorem items_read (keyed : Keyed ts)
    (later : pos < ts.length → ∀ p, pos < p → ItemsRead cap ts p ∧ EntriesRead cap ts p) :
    ItemsRead cap ts pos := by
  intro nested keyframes depth put items slot inside
  rw [items?]
  split
  next none_ =>
    refine ⟨_, rfl, .refl inside, fun t found => ?_⟩
    rw [none_] at found
    cases found
  next t found =>
    have here := drop_of_some found
    have lt := (tail_of_drop here).2.2
    by_cases ends : nested && t.kind == .braceClose
    · rw [if_pos ends]
      refine ⟨_, rfl, .refl inside, fun u same => ?_⟩
      obtain rfl := Option.some.inj (found.symm.trans same)
      simpa using ends
    · obtain ⟨turn, read, further, follows⟩ := itemTurn?_follows (fun p le => (later lt p le).1)
        (fun p le => (later lt p le).2) keyed here slot items ends
      have same : turn.place.depth = depth := follows.depth
      have place : turn.place = ⟨turn.place.pos, depth⟩ := by rw [← same]
      obtain ⟨a, readOn, followsOn, ended⟩ :=
        (later lt turn.place.pos further).1 turn.value slot follows.bound
      rw [← place] at readOn followsOn
      rw [if_neg ends, read, Option.bind_eq_bind, Option.bind_some, dif_pos further, readOn,
        Option.bind_some]
      exact ⟨_, rfl, follows.trans followsOn, ended⟩

theorem entries_read (keyed : Keyed ts)
    (later : pos < ts.length → ∀ p, pos < p → ItemsRead cap ts p ∧ EntriesRead cap ts p) :
    EntriesRead cap ts pos := by
  intro owner opening outer top before closing inside
  rw [entries?]
  have close (ended : ∀ t, ts[pos]? = some t → t.kind = .braceClose) :=
    complete_close cap (lastOf ts)
      (.block owner opening before.declarations before.comments before.nested) outer top ended
  split
  next none_ =>
    have ended := close fun t found => by
      rw [none_] at found
      cases found
    refine ⟨_, rfl, rfl, Nat.le_refl _, inside, ?_⟩
    rw [none_] at ended
    rw [closing]
    exact ended
  next t found =>
    have here := drop_of_some found
    have lt := (tail_of_drop here).2.2
    by_cases ends : t.kind = .braceClose
    · have ended := close fun u same => by
        obtain rfl := Option.some.inj (found.symm.trans same)
        exact ends
      rw [if_pos ends]
      refine ⟨_, rfl, rfl, Nat.le_succ _, lt, ?_⟩
      rw [found, Option.filter_some, if_pos (by simp [ends])] at ended
      exact ended
    · obtain ⟨turn, read, further, same, follows⟩ := entryTurn?_follows
        (fun p le => (later lt p le).1) (fun p le => (later lt p le).2) keyed here owner opening
        outer top before ends
      have open_ : turn.place.depth = outer.length + 1 := follows.depth
      have place : turn.place = ⟨turn.place.pos, outer.length + 1⟩ := by rw [← open_]
      obtain ⟨a, readOn, depth, forward, bound, ended⟩ := (later lt turn.place.pos further).2 owner
        opening outer top turn.value (same.trans closing) follows.bound
      rw [← place] at readOn
      rw [if_neg ends, read, Option.bind_eq_bind, Option.bind_some, dif_pos further, readOn,
        Option.bind_some]
      refine ⟨_, rfl, depth, further.le.trans forward, bound, ?_⟩
      rw [follows.same, ended, told_told, List.append_assoc]

/-- **Both loops are followed** from all positions. The induction is on how many tokens are left: a
turn is followed if both loops are from all later positions, and it comes further. -/
theorem loops_read (cap : Nat) (keyed : Keyed ts) (pos : Nat) :
    ItemsRead cap ts pos ∧ EntriesRead cap ts pos := by
  induction left : ts.length - pos using Nat.strong_induction_on generalizing pos with
  | _ n ih =>
      have later : pos < ts.length → ∀ p, pos < p → ItemsRead cap ts p ∧ EntriesRead cap ts p :=
        fun lt p le => ih (ts.length - p) (by omega) p rfl
      exact ⟨items_read keyed later, entries_read keyed later⟩

/-- **The descent reads all items**, to the end of the tokens and with no block left open, and they
are those that the builder builds. -/
theorem sheet?_eq (keyed : Keyed ts) :
    sheet? cap ts = some ⟨(buildItems cap ts).1, (buildItems cap ts).2, ⟨ts.length, 0⟩⟩ := by
  obtain ⟨a, read, follows, ended⟩ := (loops_read cap keyed 0).1 [] slot_top
    (Nat.zero_le _)
  have finished : a.place.pos = ts.length := by
    refine Nat.le_antisymm follows.bound (List.getElem?_eq_none_iff.mp ?_)
    cases found : ts[a.place.pos]? with
    | none => rfl
    | some t => exact absurd (ended t found).1 Bool.false_ne_true
  have depth : a.place.depth = 0 := follows.depth
  have place : a.place = ⟨ts.length, 0⟩ := by rw [← finished, ← depth]
  have same := follows.same
  rw [finished, List.drop_length, List.drop_zero] at same
  have built : (Builder.complete cap (lastOf ts) .empty ts) = (⟨[], a.value⟩, a.issues) := by
    rw [Builder.empty, same]
    simp [Builder.complete, Builder.run, Builder.finish, Builder.closeMany, told]
  have whole : buildItems cap ts = ((Builder.complete cap (lastOf ts) .empty ts).1.top.reverse,
      tokenIssues ts ++ (Builder.complete cap (lastOf ts) .empty ts).2) := by
    rw [buildItems]
    simp only [List.append_assoc]
    rfl
  rw [sheet?, read, Option.bind_eq_bind, Option.bind_some, whole, built, place]

end Descent

end PageLint.Css
