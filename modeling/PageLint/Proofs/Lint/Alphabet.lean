/-
# PageLint.Proofs.Lint.Alphabet — declarations in the order of their properties

A property stands among others by its name in small letters, without the vendor's mark `-v-` that may
begin it (`Reads`); of two with one name, marked ones come first, in the order of their marks
(`ComesAfter`). The keys by which the rule compares properties are these readings (`Reads.sortKey`),
and they order properties linearly (`transCmpKeys`). So a block of which the rule tells nothing is
in order as a whole, though it only looks at neighbours (`Document.alphabetized`).
-/
import PageLint.Proofs.Lint.Unended

namespace PageLint

set_option autoImplicit false

open Text

namespace Rules

variable {name other mark base base' : List Char} {m m' : Option (List Char)}

/-! ## Names and marks -/

/-- A vendor's mark: a word between two hyphens. -/
def IsMark (mark : List Char) : Prop :=
  ∃ word, word ≠ [] ∧ '-' ∉ word ∧ mark = '-' :: (word ++ ['-'])

/-- How a property's name is read: in small letters, as a mark and what follows it, or as it stands
where no mark begins it. -/
inductive Reads (name : List Char) : Option (List Char) → List Char → Prop
  | marked {mark base : List Char} : IsMark mark → lowerAscii name = mark ++ base →
    Reads name (some mark) base
  | plain : (∀ mark base, IsMark mark → lowerAscii name ≠ mark ++ base) →
    Reads name none (lowerAscii name)

/-- A mark comes after another one by their letters, and no mark at all comes last. -/
def MarkAfter : Option (List Char) → Option (List Char) → Prop
  | some mark, some mark' => mark' < mark
  | none, some _ => True
  | _, none => False

/-- **The order of properties**: by their names without marks, then by their marks. -/
def ComesAfter (name other : List Char) : Prop :=
  ∃ mark base mark' base', Reads name mark base ∧ Reads other mark' base' ∧
    (base' < base ∨ base = base' ∧ MarkAfter mark mark')

theorem exists_reads (name : List Char) : ∃ m base, Reads name m base := by
  by_cases marked : ∃ mark base, IsMark mark ∧ lowerAscii name = mark ++ base
  · obtain ⟨mark, base, isMark, whole⟩ := marked
    exact ⟨some mark, base, .marked isMark whole⟩
  · refine ⟨none, _, .plain fun mark base isMark whole => marked ⟨mark, base, isMark, whole⟩⟩

/-! ## Keys -/

theorem sortKey_of_mark (isMark : IsMark mark) (whole : lowerAscii name = mark ++ base) :
    sortKey name = ⟨base, false, mark⟩ := by
  obtain ⟨word, some_, plain, rfl⟩ := isMark
  have split : lowerAscii name = '-' :: (word ++ '-' :: base) := by simp [whole]
  have first : (word ++ '-' :: base).takeWhile (· != '-') = word :=
    takeWhile_append_stop (fun c inside => bne_iff_ne.mpr fun same => plain (same ▸ inside)) (by simp)
  have rest : (word ++ '-' :: base).drop (word.length + 1) = base := by
    rw [← List.drop_drop, List.drop_left]
    rfl
  rw [sortKey, split]
  simp only [first, rest]
  rw [if_pos (by simp [some_])]
  rfl

theorem sortKey_of_plain (plain : ∀ mark base, IsMark mark → lowerAscii name ≠ mark ++ base) :
    sortKey name = ⟨lowerAscii name, true, []⟩ := by
  rw [sortKey]
  split
  next rest begins =>
    refine if_neg fun marked => ?_
    rw [Bool.and_eq_true, Bool.not_eq_true', List.isEmpty_eq_false_iff, List.contains_iff_mem] at marked
    obtain ⟨after, whole⟩ := eq_takeWhile_append marked.2
    have inside : '-' ∉ rest.takeWhile (· != '-') := fun member => by
      simpa using List.mem_takeWhile_imp member
    refine plain _ after ⟨_, marked.1, inside, rfl⟩ ?_
    rw [begins]
    simpa using whole
  next => rfl

/-- **The key of a property is how its name is read.** -/
theorem Reads.sortKey (reads : Reads name m base) :
    sortKey name = ⟨base, m.isNone, m.getD []⟩ := by
  cases reads with
  | marked isMark whole => exact sortKey_of_mark isMark whole
  | plain plain => exact sortKey_of_plain plain

theorem compareTexts_eq_gt {a b : List Char} : compareTexts a b = .gt ↔ b < a := by
  rw [compareTexts]
  induction a generalizing b with
  | nil => cases b <;> simp [compare, List.compareLex]
  | cons c a ih =>
      cases b with
      | nil => simp [compare, List.compareLex]
      | cons d b =>
          have letters : c.toNat = d.toNat ↔ d = c := by rw [Char.toNat_inj, eq_comm]
          have less : d.toNat < c.toNat ↔ d < c := Iff.rfl
          rw [List.cons_lt_cons_iff, ← ih, ← less, ← letters, List.map_cons, List.map_cons]
          change List.compareLex compare _ _ = .gt ↔ _
          rw [List.compareLex_cons_cons, Ordering.then_eq_gt, compare_gt_iff_gt, compare_eq_iff_eq]
          rfl

theorem compareTexts_eq_eq {a b : List Char} : compareTexts a b = .eq ↔ a = b := by
  rw [compareTexts, Std.LawfulEqOrd.compare_eq_iff_eq]
  exact (List.map_injective_iff.mpr fun _ _ => Char.toNat_inj.mp).eq_iff

/-- **The key comes after another one where the property does.** -/
theorem compare_eq_gt (reads : Reads name m base) (reads' : Reads other m' base') :
    (sortKey name).compare (sortKey other) = .gt ↔ base' < base ∨ base = base' ∧ MarkAfter m m' := by
  rw [reads.sortKey, reads'.sortKey, SortKey.compare, Ordering.then_eq_gt, Ordering.then_eq_gt,
    compareTexts_eq_gt, compareTexts_eq_gt, compareTexts_eq_eq]
  refine or_congr Iff.rfl (and_congr Iff.rfl ?_)
  cases m <;> cases m' <;> simp [MarkAfter, compare]

theorem comesAfter_iff :
    ComesAfter name other ↔ (sortKey name).compare (sortKey other) = .gt := by
  constructor
  · rintro ⟨m, base, m', base', reads, reads', after⟩
    exact (compare_eq_gt reads reads').mpr after
  · intro after
    obtain ⟨m, base, reads⟩ := exists_reads name
    obtain ⟨m', base', reads'⟩ := exists_reads other
    exact ⟨m, base, m', base', reads, reads', (compare_eq_gt reads reads').mp after⟩

instance decidableComesAfter (name other : List Char) : Decidable (ComesAfter name other) :=
  decidable_of_iff _ comesAfter_iff.symm

/-! ## Blocks in order -/

/-- Keys are ordered by one part after the other. -/
theorem compare_eq_compareLex : SortKey.compare =
    compareLex (compareOn fun k => k.base.map Char.toNat)
      (compareLex (compareOn SortKey.standard) (compareOn fun k => k.vendor.map Char.toNat)) := rfl

instance transCmpKeys : Std.TransCmp SortKey.compare := by
  rw [compare_eq_compareLex]
  infer_instance

/-- **Where neighbours are in order, all are**: of three properties, the last one does not come before
the first if neither of them comes before its neighbour. -/
theorem not_comesAfter_trans {first second third : List Char} (one : ¬ ComesAfter first second)
    (two : ¬ ComesAfter second third) : ¬ ComesAfter first third := by
  rw [comesAfter_iff, ← Ordering.isLE_iff_ne_gt] at one two ⊢
  exact Std.TransCmp.isLE_trans one two

/-- What the rule finds of a declaration that should come before the one in front of it. -/
def misplaced (previous current : Css.Declaration) : Finding :=
  .filled current.propertySpan [("property", current.property), ("previous", previous.property)]

variable {block : Css.Block Css.Item}

/-- In a block without the author's own properties, the rule finds what comes before its neighbour. -/
theorem alphabeticalDeclarations_block (standard : ∀ d ∈ block.declarations, d.isCustom = false) :
    alphabeticalDeclarations (.cssBlock block) =
      ((neighbours block.declarations).filter fun (previous, current) =>
        ComesAfter previous.property current.property).map fun (previous, current) =>
          misplaced previous current := by
  have plain : ∀ pair ∈ neighbours block.declarations,
      pair.1.isCustom = false ∧ pair.2.isCustom = false := by
    rintro ⟨previous, current⟩ member
    obtain ⟨left, right⟩ := List.of_mem_zip member
    exact ⟨standard _ left, standard _ (List.mem_of_mem_drop right)⟩
  rw [alphabeticalDeclarations, ← List.filterMap_eq_map', List.filterMap_filter]
  refine List.filterMap_congr fun pair member => ?_
  obtain ⟨left, right⟩ := plain pair member
  simp [left, right, comesAfter_iff, misplaced]

theorem isChain_iff_neighbours {α : Type} {R : α → α → Prop} {xs : List α} :
    xs.IsChain R ↔ ∀ pair ∈ neighbours xs, R pair.1 pair.2 := by
  induction xs with
  | nil => simp [neighbours]
  | cons x xs ih =>
      cases xs with
      | nil => simp [neighbours]
      | cons y xs =>
          have pairs : neighbours (x :: y :: xs) = (x, y) :: neighbours (y :: xs) := rfl
          rw [List.isChain_cons_cons, ih, pairs, List.forall_mem_cons]

/-- **Neighbours decide**: nothing comes before its neighbour if and only if nothing comes before
anything in front of it. -/
theorem neighbours_inOrder (ds : List Css.Declaration) :
    ((neighbours ds).filter fun (d, e) => ComesAfter d.property e.property) = [] ↔
      ds.Pairwise fun d e => ¬ ComesAfter d.property e.property := by
  have trans : Trans (fun d e : Css.Declaration => ¬ ComesAfter d.property e.property)
      (fun d e : Css.Declaration => ¬ ComesAfter d.property e.property)
      (fun d e : Css.Declaration => ¬ ComesAfter d.property e.property) := ⟨not_comesAfter_trans⟩
  rw [← List.isChain_iff_pairwise, isChain_iff_neighbours, List.filter_eq_nil_iff]
  simp

end Rules

theorem StyleGuide.alphabeticalDeclarations_of_id : ∀ r ∈ rules,
    r.id = "alphabetical-declarations" → r.check = reading Rules.alphabeticalDeclarations ∧
      r.targets = [.cssBlock] ∧ r.languages = [.css] := by
  simp [rules, sharedRules, htmlRules, cssRules]

/-- **Declarations in order.** What the rule tells of a document it tells of its blocks, one after the
other. Of a block without the author's own properties it tells nothing if and only if no declaration's
property comes after that of a later one. What it tells there are the declarations whose property comes
before that of the declaration in front of them, each at its property. -/
theorem Document.alphabetized {r : Rule} (isRule : r ∈ StyleGuide.rules)
    (named : r.id = "alphabetical-declarations") (c : Checker) (file : Path) (doc : Document) :
    ((c.runRule file doc r).diagnostics = (doc.subjects.filterMap Subject.cssBlock?).flatMap
        fun block => r.found (c.severityOf r) file doc (.cssBlock block)) ∧
      ∀ block : Css.Block Css.Item, (∀ d ∈ block.declarations, d.isCustom = false) →
        let told := r.found (c.severityOf r) file doc (.cssBlock block)
        (told = [] ↔ block.declarations.Pairwise fun d e => ¬ Rules.ComesAfter d.property e.property) ∧
          told = ((block.declarations.zip block.declarations.tail).filter fun (d, e) =>
            Rules.ComesAfter d.property e.property).map fun (d, e) =>
              r.diagnostic (c.severityOf r) file (.filled e.propertySpan
                [("property", e.property), ("previous", d.property)]) := by
  obtain ⟨check, targets, languages⟩ := StyleGuide.alphabeticalDeclarations_of_id r isRule named
  refine ⟨Checker.runRule_pieces check ?_ rfl ?_ c file, fun block standard => ?_⟩
  · intro s block isBlock
    cases s <;> simp_all [Subject.cssBlock?]
  · intro s applies
    cases s <;> simp_all [Rule.appliesTo, Subject.target, Subject.cssBlock?]
  · intro told
    have found : told = ((Rules.neighbours block.declarations).filter fun (d, e) =>
        Rules.ComesAfter d.property e.property).map fun (d, e) =>
          r.diagnostic (c.severityOf r) file (Rules.misplaced d e) := by
      rw [show told = _ from Rule.found_total check ?_,
        Rules.alphabeticalDeclarations_block standard, List.map_map]
      · rfl
      · simp [Rule.appliesTo, targets, languages, Subject.target, Target.language?]
    refine ⟨?_, ?_⟩
    · rw [found, List.map_eq_nil_iff, Rules.neighbours_inOrder]
    · rw [found, Rules.neighbours, List.drop_one]
      rfl

/-- Marks in their order, before the name without one; and then a name that should come first. -/
theorem Document.alphabetized_marks :
    let doc := Document.ofText .css "x\x7b-moz-b:c;-O-b:c;b:c;a:c\x7d".toList
    ∃ r ∈ StyleGuide.rules, r.id = "alphabetical-declarations" ∧
      ∃ block, Subject.cssBlock block ∈ doc.subjects ∧
        (∀ d ∈ block.declarations, d.isCustom = false) ∧
        ¬ block.declarations.Pairwise (fun d e => ¬ Rules.ComesAfter d.property e.property) ∧
        (r.found (Checker.severityOf {} r) ⟨"a.css"⟩ doc (.cssBlock block)).map (·.span) =
          [⟨⟨22, 1, 23⟩, ⟨23, 1, 24⟩⟩] := by
  intro doc
  have isRule : StyleGuide.cssRules[10] ∈ StyleGuide.rules :=
    List.mem_append_right _ (List.getElem_mem _)
  have some_ : doc.subjects.filterMap Subject.cssBlock? ≠ [] := by decide +kernel
  let block := (doc.subjects.filterMap Subject.cssBlock?).headD ⟨none, none, [], [], [], .emptyAt .start⟩
  have standard : ∀ d ∈ block.declarations, d.isCustom = false := by decide +kernel
  obtain ⟨-, told⟩ := Document.alphabetized isRule rfl {} ⟨"a.css"⟩ doc
  obtain ⟨silent, all⟩ := told block standard
  have spans : (StyleGuide.cssRules[10].found (Checker.severityOf {} StyleGuide.cssRules[10]) ⟨"a.css"⟩ doc (.cssBlock block)).map (·.span) =
          [⟨⟨22, 1, 23⟩, ⟨23, 1, 24⟩⟩] := by
    rw [all]
    decide +kernel
  refine ⟨_, isRule, rfl, block, ?_, standard, ?_, spans⟩
  · refine Subject.mem_cssBlock.mp ?_
    obtain ⟨first, others, parted⟩ := List.exists_cons_of_ne_nil some_
    have isFirst : block = first := by simp only [block, parted, List.headD_cons]
    rw [isFirst, parted]
    exact List.mem_cons_self
  · rw [← silent]
    intro none_
    rw [none_] at spans
    cases spans

end PageLint
