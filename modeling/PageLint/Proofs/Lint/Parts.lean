/-
# PageLint.Proofs.Lint.Parts — a report, part by part

Sorting is stable, so taking a part of some findings and sorting them may be done in either
order (`filter_mergeSort`). The same goes for the whole report, if the part takes all findings
of a place or none (`report_filter`): what is dropped as a repetition is then dropped in the
part as well.

Parts that follow each other make up the whole again (`flatMap_filter_parts`).
-/
import PageLint.Proofs.Lint.Report

namespace PageLint

set_option autoImplicit false

/-! ## Lists in parts -/

section Lists

variable {α β : Type}

/-- A list falls in one way only into entries that satisfy a test and entries that do not. -/
theorem append_split_unique {p : α → Bool} {xs ys xs' ys' : List α} (whole : xs ++ ys = xs' ++ ys')
    (first : ∀ a ∈ xs, p a) (others : ∀ a ∈ ys, p a = false) (first' : ∀ a ∈ xs', p a)
    (others' : ∀ a ∈ ys', p a = false) : xs = xs' ∧ ys = ys' := by
  have leading : ∀ {as bs : List α}, (∀ a ∈ as, p a) → (∀ b ∈ bs, p b = false) →
      (as ++ bs).takeWhile p = as := by
    intro as bs holds fails
    rw [List.takeWhile_append_of_pos holds]
    cases bs with
    | nil => simp
    | cons b bs => simp [fails b List.mem_cons_self]
  have same : xs = xs' := by rw [← leading first others, whole, leading first' others']
  subst same
  exact ⟨rfl, List.append_cancel_left whole⟩

/-- **Sorting a part is taking the part of what is sorted.** The induction is on the list: its
first entry goes in front of the first one that it may precede, in the part as in the whole. -/
theorem filter_mergeSort {le : α → α → Bool} (trans : ∀ a b c, le a b → le b c → le a c)
    (total : ∀ a b, le a b || le b a) (p : α → Bool) (xs : List α) :
    (xs.mergeSort le).filter p = (xs.filter p).mergeSort le := by
  have after : ∀ {a : α} {xs front back : List α}, (a :: xs).mergeSort le = front ++ a :: back →
      ∀ b ∈ back, le a b := by
    intro a xs front back sorted b member
    have ordered := List.pairwise_mergeSort trans total (a :: xs)
    rw [sorted] at ordered
    exact List.rel_of_pairwise_cons (List.pairwise_append.mp ordered).2.1 member
  induction xs with
  | nil => simp
  | cons a xs ih =>
      obtain ⟨front, back, sorted, rest, before⟩ := List.mergeSort_cons trans total a xs
      have parted : front.filter p ++ back.filter p = (xs.filter p).mergeSort le := by
        rw [← ih, rest, List.filter_append]
      rw [sorted, List.filter_append, List.filter_cons, List.filter_cons]
      split
      · obtain ⟨front', back', sorted', rest', before'⟩ :=
          List.mergeSort_cons trans total a (xs.filter p)
        obtain ⟨sameFront, sameBack⟩ := append_split_unique (p := fun b => !le a b)
          (parted.trans rest')
          (fun b member => before b (List.mem_of_mem_filter member))
          (fun b member => by simp [after sorted b (List.mem_of_mem_filter member)])
          before' (fun b member => by simp [after sorted' b member])
        rw [sorted', sameFront, sameBack]
      · exact parted

/-- An entry of a part that two lists share is in both or in none. -/
theorem mem_iff_of_filter {p : α → Bool} {xs ys : List α} (same : xs.filter p = ys.filter p) {a : α}
    (inPart : p a) : a ∈ xs ↔ a ∈ ys := by
  have members : a ∈ xs.filter p ↔ a ∈ ys.filter p := by rw [same]
  simpa [inPart] using members

/-- **Ordered lists of the same parts are the same**, if each entry is in some part and no part
takes one of two entries that may stand either way. The induction is on both lists: the first
entry of one is in the other as well, so it may stand either way with the first entry there, and
then both are the first one of their part. -/
theorem eq_of_filter_parts {le : α → α → Bool} {xs ys : List α}
    (ordered : xs.Pairwise fun a b => le a b) (ordered' : ys.Pairwise fun a b => le a b)
    {parts : List β} {p : β → α → Bool}
    (same : ∀ s ∈ parts, xs.filter (p s) = ys.filter (p s))
    (each : ∀ a ∈ xs ++ ys, ∃ s ∈ parts, p s a)
    (ties : ∀ s ∈ parts, ∀ a b, le a b → le b a → p s a = p s b) : xs = ys := by
  induction xs generalizing ys with
  | nil =>
      cases ys with
      | nil => rfl
      | cons b ys =>
          obtain ⟨s, isPart, inPart⟩ := each b (by simp)
          exact absurd ((mem_iff_of_filter (same s isPart) inPart).mpr List.mem_cons_self)
            List.not_mem_nil
  | cons a xs ih =>
      obtain ⟨s, isPart, inPart⟩ := each a (by simp)
      cases ys with
      | nil =>
          exact absurd ((mem_iff_of_filter (same s isPart) inPart).mp List.mem_cons_self)
            List.not_mem_nil
      | cons b ys =>
          obtain ⟨first, rest⟩ := List.pairwise_cons.mp ordered
          obtain ⟨first', rest'⟩ := List.pairwise_cons.mp ordered'
          have heads : a = b := by
            obtain ⟨t, isPart', inPart'⟩ := each b (by simp)
            have inOther := (mem_iff_of_filter (same s isPart) inPart).mp List.mem_cons_self
            have inOne := (mem_iff_of_filter (same t isPart') inPart').mpr List.mem_cons_self
            rcases List.mem_cons.mp inOther with equal | later
            · exact equal
            rcases List.mem_cons.mp inOne with equal | later'
            · exact equal.symm
            have tie := ties s isPart a b (first b later') (first' a later)
            have fronts := same s isPart
            rw [List.filter_cons_of_pos inPart,
              List.filter_cons_of_pos (tie.symm.trans inPart)] at fronts
            exact (List.cons.inj fronts).1
          subst heads
          refine congrArg (a :: ·) (ih rest rest' ?_ ?_)
          · intro t isPart'
            have whole := same t isPart'
            rw [List.filter_cons, List.filter_cons] at whole
            split at whole
            · exact (List.cons.inj whole).2
            · exact whole
          · intro c member
            refine each c ?_
            rcases List.mem_append.mp member with one | other
            · exact List.mem_append_left _ (List.mem_cons_of_mem _ one)
            · exact List.mem_append_right _ (List.mem_cons_of_mem _ other)

/-- **Parts that follow each other make up the whole**, in order. -/
theorem flatMap_filter_parts {R : α → α → Prop} (asymm : ∀ a b, R a b → ¬ R b a) {xs : List α}
    (sorted : xs.Pairwise R) {parts : List β} {p : β → α → Bool}
    (apart : parts.Pairwise fun s t => ∀ a ∈ xs, ∀ b ∈ xs, p s a → p t b → R a b)
    (each : ∀ a ∈ xs, ∃ s ∈ parts, p s a) : (parts.flatMap fun s => xs.filter (p s)) = xs := by
  have irrefl : ∀ {a b : α}, R a b → a ≠ b := by
    rintro a b related rfl
    exact asymm a a related related
  have ordered : (parts.flatMap fun s => xs.filter (p s)).Pairwise R := by
    refine List.pairwise_flatMap.mpr ⟨fun s _ => sorted.filter (p s), apart.imp ?_⟩
    intro s t follows a inFirst b inSecond
    obtain ⟨memberA, ofFirst⟩ := List.mem_filter.mp inFirst
    obtain ⟨memberB, ofSecond⟩ := List.mem_filter.mp inSecond
    exact follows a memberA b memberB ofFirst ofSecond
  have members : ∀ a, a ∈ (parts.flatMap fun s => xs.filter (p s)) ↔ a ∈ xs := by
    intro a
    constructor
    · intro member
      obtain ⟨s, -, inPart⟩ := List.mem_flatMap.mp member
      exact List.mem_of_mem_filter inPart
    · intro member
      obtain ⟨s, isPart, inPart⟩ := each a member
      exact List.mem_flatMap.mpr ⟨s, isPart, List.mem_filter.mpr ⟨member, inPart⟩⟩
  refine List.Perm.eq_of_pairwise (fun a b _ _ forth back => absurd back (asymm a b forth))
    ordered sorted ?_
  exact (List.perm_ext_iff_of_nodup (ordered.imp irrefl) (sorted.imp irrefl)).mpr members

/-- What each part gives, if all of it counts to the part and nothing to another one, is what
counts to the part of all that is given. -/
theorem filter_flatMap_own {parts : List β} {give : β → List α} {p : β → α → Bool}
    (own : ∀ s ∈ parts, ∀ a ∈ give s, p s a)
    (apart : parts.Pairwise fun s t => (∀ a ∈ give s, p t a = false) ∧ ∀ a ∈ give t, p s a = false)
    {t : β} (member : t ∈ parts) : (parts.flatMap give).filter (p t) = give t := by
  induction parts with
  | nil => cases member
  | cons s rest ih =>
      obtain ⟨first, others⟩ := List.pairwise_cons.mp apart
      rw [List.flatMap_cons, List.filter_append]
      rcases List.mem_cons.mp member with rfl | later
      · have none_ : (rest.flatMap give).filter (p t) = [] := by
          apply List.filter_eq_nil_iff.mpr
          intro a given
          obtain ⟨u, isPart, given⟩ := List.mem_flatMap.mp given
          simp [(first u isPart).2 a given]
        rw [List.filter_eq_self.mpr (own t member), none_, List.append_nil]
      · have none_ : (give s).filter (p t) = [] := by
          apply List.filter_eq_nil_iff.mpr
          intro a given
          simp [(first t later).1 a given]
        rw [none_, ih (fun u isPart => own u (List.mem_cons_of_mem _ isPart)) others later,
          List.nil_append]

end Lists

/-! ## Parts of a report -/

namespace Diagnostic

theorem Before.asymm {a b : Diagnostic} (before : a.Before b) : ¬ b.Before a := by
  rw [before_iff] at *
  exact Std.OrientedCmp.not_lt_of_lt before

end Diagnostic

open Diagnostic

/-- Between a finding and a repetition of it lies no finding but those that count to the part if
the first one does. -/
def Unbroken (p : Diagnostic → Bool) (ds : List Diagnostic) : Prop :=
  ∀ a ∈ ds, ∀ b ∈ ds, ∀ c ∈ ds, (a.compare b).isLE → (b.compare c).isLE → c.repeats a → p b = p a

theorem Unbroken.of_subset {p : Diagnostic → Bool} {ds es : List Diagnostic}
    (unbroken : Unbroken p ds) (fewer : es ⊆ ds) : Unbroken p es :=
  fun a one b between c other => unbroken a (fewer one) b (fewer between) c (fewer other)

theorem unbroken_rule (id : String) (ds : List Diagnostic) : Unbroken (·.ruleId == id) ds := by
  intro a _ b _ c _ first second again
  exact congrArg (· == id) (ruleId_eq_between first second again)

/-- In tidy findings those between two that repeat each other repeat them as well. -/
theorem Tidy.unbroken {p : Diagnostic → Bool} {ds : List Diagnostic} (tidy : Tidy ds)
    (fair : ∀ a ∈ ds, ∀ b ∈ ds, b.repeats a → p b = p a) : Unbroken p ds := by
  intro a one b between c other first second again
  refine fair a one b between (tidy.places a one b between ?_)
  exact eq_of_isLE_of_eq (isLE_comparePlace (tidy.file a one b between) first)
    (isLE_comparePlace (tidy.file b between c other) second) (comparePlace_of_repeats again)

/-- Nothing is dropped for the sake of a finding that the next one does not repeat. -/
theorem after_eq_dropRepeats {kept : Diagnostic} {ds : List Diagnostic}
    (new : ∀ d ∈ ds.head?, d.repeats kept = false) : dropRepeats.after kept ds = dropRepeats ds := by
  cases ds with
  | nil => rfl
  | cons d ds =>
      rw [dropRepeats.after, new d rfl, dropRepeats]
      rfl

/-- Whether a finding is in the part or not, what is kept after it is kept in the part. The
induction is on the findings, and the one that is kept before them changes with it. -/
theorem filter_after {p : Diagnostic → Bool} (kept : Diagnostic) (ds : List Diagnostic)
    (sorted : (kept :: ds).Pairwise fun a b => (a.compare b).isLE)
    (unbroken : Unbroken p (kept :: ds)) :
    (dropRepeats.after kept ds).filter p =
      if p kept then dropRepeats.after kept (ds.filter p) else dropRepeats (ds.filter p) := by
  induction ds generalizing kept with
  | nil => cases p kept <;> rfl
  | cons d ds ih =>
      obtain ⟨first, rest⟩ := List.pairwise_cons.mp sorted
      obtain ⟨second, others⟩ := List.pairwise_cons.mp rest
      have here : d ∈ kept :: d :: ds := List.mem_cons_of_mem _ List.mem_cons_self
      have ordered : (kept.compare d).isLE := first d List.mem_cons_self
      cases again : d.repeats kept with
      | true =>
          have same : p d = p kept :=
            unbroken kept List.mem_cons_self d here d here ordered (isLE_refl d) again
          have later := ih kept
            (List.pairwise_cons.mpr ⟨fun b member => first b (List.mem_cons_of_mem _ member), others⟩)
            (unbroken.of_subset (List.cons_subset_cons kept (List.subset_cons_self d ds)))
          rw [dropRepeats.after, if_pos again, later, List.filter_cons, same]
          cases p kept with
          | true => simp [dropRepeats.after, again]
          | false => rfl
      | false =>
          have later := ih d rest (unbroken.of_subset (List.subset_cons_self kept _))
          have part : (d :: dropRepeats.after d ds).filter p =
              dropRepeats ((d :: ds).filter p) := by
            rw [List.filter_cons, later, List.filter_cons]
            cases p d <;> rfl
          rw [dropRepeats.after, again, if_neg Bool.false_ne_true, part]
          cases inPart : p kept with
          | false => rfl
          | true =>
              refine (after_eq_dropRepeats fun e next => ?_).symm
              cases inPartToo : p d with
              | true =>
                  rw [List.filter_cons_of_pos inPartToo] at next
                  obtain rfl := Option.some.inj next
                  exact again
              | false =>
                  rw [List.filter_cons_of_neg (by simp [inPartToo])] at next
                  have follows : e ∈ ds := List.mem_of_mem_filter (List.mem_of_head? next)
                  rw [Bool.eq_false_iff]
                  intro againLater
                  rw [unbroken kept List.mem_cons_self d here e
                    (List.mem_cons_of_mem _ (List.mem_cons_of_mem _ follows)) ordered
                    (second e follows) againLater, inPart] at inPartToo
                  cases inPartToo

/-- Taking a part of the findings and sorting them may be done in either order. -/
theorem filter_sorted (p : Diagnostic → Bool) (ds : List Diagnostic) :
    (ds.mergeSort fun a b => (a.compare b).isLE).filter p =
      (ds.filter p).mergeSort fun a b => (a.compare b).isLE := by
  apply filter_mergeSort
  · intro a b c first second
    exact isLE_trans first second
  · exact isLE_total

/-- **A part of a report is the report of the part**, if no finding of another part lies between
two that repeat each other. -/
theorem report_filter {p : Diagnostic → Bool} {ds : List Diagnostic} (unbroken : Unbroken p ds) :
    (report ds).filter p = report (ds.filter p) := by
  have sorted := pairwise_sorted ds
  have members : (ds.mergeSort fun a b => (a.compare b).isLE) ⊆ ds :=
    fun _ member => List.mem_mergeSort.mp member
  rw [report, report, ← filter_sorted]
  generalize (ds.mergeSort fun a b => (a.compare b).isLE) = sortedList at sorted members
  cases sortedList with
  | nil => rfl
  | cons d es =>
      rw [dropRepeats, List.filter_cons, List.filter_cons,
        filter_after d es sorted (unbroken.of_subset members)]
      split <;> rfl

/-- **What a report says of a rule is the report of what the rule found.** -/
theorem report_filter_rule (id : String) (ds : List Diagnostic) :
    (report ds).filter (·.ruleId == id) = report (ds.filter (·.ruleId == id)) :=
  report_filter (unbroken_rule id ds)

/-- **Findings in the same parts make the same report**, if each is in some part and no part
takes one of two findings that are alike in order. -/
theorem report_eq_of_parts {β : Type} (parts : List β) {p : β → Diagnostic → Bool}
    {ds es : List Diagnostic} (same : ∀ s ∈ parts, ds.filter (p s) = es.filter (p s))
    (each : ∀ d ∈ ds ++ es, ∃ s ∈ parts, p s d)
    (ties : ∀ s ∈ parts, ∀ a b : Diagnostic, a.compare b = .eq → p s a = p s b) :
    report ds = report es := by
  rw [report, report, eq_of_filter_parts (pairwise_sorted ds) (pairwise_sorted es)]
  · intro s isPart
    rw [filter_sorted, filter_sorted, same s isPart]
  · intro d member
    apply each
    simpa using member
  · intro s isPart a b forth back
    exact ties s isPart a b (Std.OrientedCmp.isLE_antisymm forth back)

end PageLint
