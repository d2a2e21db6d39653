/-
# PageLint.Proofs.Lint.Unended — what is told of declarations without `;`

The rule on semicolons looks at the last declaration of each block. A run over a stylesheet visits each
declaration once, with the block that it is in (`Subject.Visits.declarations`), so what the rule does
not look at are the declarations that another one follows in their block. Those of them that lack
their `;` (`Sheet.overrun`) stand before a `}` that closes nothing and that is told
(`Document.semicolons_told`).
-/
import PageLint.Proofs.Css.Semicolons
import PageLint.Proofs.Lint.Runs

namespace PageLint

set_option autoImplicit false

open Text

/-! ## Declarations by their blocks -/

namespace Subject

/-- The declaration that a subject is, if it is one. -/
def cssDeclaration? : Subject → Option Css.Declaration
  | cssDeclaration d => some d
  | _ => none

/-- The block that a subject is, if it is one. -/
def cssBlock? : Subject → Option (Css.Block Css.Item)
  | cssBlock block => some block
  | _ => none

/-- The declarations among some subjects. -/
def declarationsOf (ss : List Subject) : List Css.Declaration := ss.filterMap cssDeclaration?

/-- The declarations of the blocks among some subjects. -/
def declarationsIn (ss : List Subject) : List Css.Declaration :=
  (ss.filterMap cssBlock?).flatMap Css.Block.declarations

theorem declarationsOf_append (ss more : List Subject) :
    declarationsOf (ss ++ more) = declarationsOf ss ++ declarationsOf more := List.filterMap_append

theorem declarationsIn_append (ss more : List Subject) :
    declarationsIn (ss ++ more) = declarationsIn ss ++ declarationsIn more := by
  simp [declarationsIn]

theorem declarationsOf_cons (s : Subject) (ss : List Subject) :
    declarationsOf (s :: ss) = declarationsOf [s] ++ declarationsOf ss := declarationsOf_append [s] ss

theorem declarationsIn_cons (s : Subject) (ss : List Subject) :
    declarationsIn (s :: ss) = declarationsIn [s] ++ declarationsIn ss := declarationsIn_append [s] ss

theorem mem_cssBlock {ss : List Subject} {block : Css.Block Css.Item} :
    block ∈ ss.filterMap cssBlock? ↔ cssBlock block ∈ ss := by
  have own : ∀ s, cssBlock? s = some block ↔ s = cssBlock block := by
    intro s
    cases s <;> simp [cssBlock?]
  simp [List.mem_filterMap, own]

theorem mem_declarationsOf {ss : List Subject} {d : Css.Declaration} :
    d ∈ declarationsOf ss ↔ cssDeclaration d ∈ ss := by
  have own : ∀ s, cssDeclaration? s = some d ↔ s = cssDeclaration d := by
    intro s
    cases s <;> simp [cssDeclaration?]
  simp [declarationsOf, List.mem_filterMap, own]

/-- The parts of a piece that are declarations are those of the block that it is. -/
theorem declarationsOf_parts (s : Subject) : declarationsOf s.parts = declarationsIn [s] := by
  have items : ∀ items : List Css.Item, declarationsOf (items.map Css.Item.subject) = [] := by
    intro items
    refine List.filterMap_eq_nil_iff.mpr fun s member => ?_
    obtain ⟨item, -, rfl⟩ := List.mem_map.mp member
    cases item <;> rfl
  cases s with
  | cssRuleList list parent => exact items list
  | cssAtRule rule =>
      rw [parts]
      split <;> rfl
  | cssBlock block =>
      have nested := items block.nested
      simp only [declarationsOf] at nested
      simp [declarationsOf, declarationsIn, parts, nested, cssBlock?, cssDeclaration?,
        List.filterMap_map, Function.comp_def]
  | _ => rfl

mutual

/-- **Each declaration is visited once, with the block that it is in.** -/
theorem Visits.declarations {s : Subject} {run : List Subject} : Visits s run →
    (declarationsOf run).Perm (declarationsOf [s] ++ declarationsIn run)
  | @Visits.mk _ order run same each => by
      have inside := each.declarations
      have parts : (declarationsOf order).Perm (declarationsIn [s]) :=
        declarationsOf_parts s ▸ same.filterMap _
      rw [declarationsOf_cons, declarationsIn_cons]
      exact (inside.trans (parts.append_right _)).append_left _

theorem VisitsEach.declarations {ss run : List Subject} : VisitsEach ss run →
    (declarationsOf run).Perm (declarationsOf ss ++ declarationsIn run)
  | .nil => .nil
  | @VisitsEach.cons s ss run more one others => by
      rw [declarationsOf_append, declarationsIn_append, declarationsOf_cons s ss, List.append_assoc]
      calc (declarationsOf run ++ declarationsOf more).Perm
            ((declarationsOf [s] ++ declarationsIn run) ++
              (declarationsOf ss ++ declarationsIn more)) :=
              one.declarations.append others.declarations
        _ = declarationsOf [s] ++ (declarationsIn run ++
              (declarationsOf ss ++ declarationsIn more)) := List.append_assoc ..
        List.Perm _ (declarationsOf [s] ++ (declarationsOf ss ++
              (declarationsIn run ++ declarationsIn more))) :=
              (List.perm_append_comm_assoc ..).append_left _

end

end Subject

/-! ## What the rule does not look at -/

namespace Css

/-- The last declaration of a block, if it lacks its `;`. -/
def Block.unended? (block : Block Item) : Option Declaration :=
  block.declarations.getLast?.filter (·.semicolon.isNone)

/-- The declarations of a block that lack their `;` and that another one follows. -/
def Block.overrun (block : Block Item) : List Declaration :=
  block.declarations.dropLast.filter (·.semicolon.isNone)

namespace Sheet

/-- The declarations of a stylesheet that lack their `;`. -/
def unended (sheet : Sheet) : List Declaration :=
  (Subject.declarationsOf sheet.subjects).filter (·.semicolon.isNone)

/-- Those that another one follows in the same block. -/
def overrun (sheet : Sheet) : List Declaration :=
  (sheet.subjects.filterMap Subject.cssBlock?).flatMap Block.overrun

end Sheet

theorem Block.filter_declarations (block : Block Item) :
    block.declarations.filter (·.semicolon.isNone) = block.overrun ++ block.unended?.toList := by
  rw [overrun, unended?]
  cases last : block.declarations.getLast? with
  | none =>
      rw [List.getLast?_eq_none_iff.mp last]
      rfl
  | some d =>
      conv_lhs => rw [← List.dropLast_append_getLast? d last, List.filter_append]
      cases lacking : d.semicolon.isNone <;> simp [Option.filter, lacking]

/-- **A declaration that lacks its `;`** is the last one of its block, or another one follows it
there. -/
theorem Sheet.perm_unended (sheet : Sheet) :
    ((sheet.subjects.filterMap Subject.cssBlock?).flatMap (·.unended?.toList) ++ sheet.overrun).Perm
      sheet.unended := by
  have visits : Subject.Visits (.cssRuleList sheet.items none) sheet.subjects :=
    visits_items (fun item _ => visits_item item) none
  calc ((sheet.subjects.filterMap Subject.cssBlock?).flatMap (·.unended?.toList) ++
        sheet.overrun).Perm
        (sheet.overrun ++ (sheet.subjects.filterMap Subject.cssBlock?).flatMap (·.unended?.toList)) :=
        List.perm_append_comm
    List.Perm _ ((sheet.subjects.filterMap Subject.cssBlock?).flatMap fun block : Block Item =>
        block.overrun ++ block.unended?.toList) := List.flatMap_append_perm _ Block.overrun _
    _ = (Subject.declarationsIn sheet.subjects).filter (·.semicolon.isNone) := by
        rw [Subject.declarationsIn, List.filter_flatMap]
        exact List.flatMap_congr fun block _ => block.filter_declarations.symm
    List.Perm _ sheet.unended := (visits.declarations.filter _).symm

/-- Where each declaration has ended before the next one, an overrun one ends before a `}` that closes
nothing, and another one of the block begins after that. -/
theorem Block.Parted.overrun {issues : List Issue} {block : Block Item} (parted : block.Parted issues) :
    ∀ d ∈ block.overrun, ∃ issue ∈ issues, ∃ e ∈ block.declarations,
      issue.fault = .unexpectedClose ∧ d.span.finish.offset ≤ issue.span.start.offset ∧
        issue.span.finish.offset ≤ e.span.start.offset := by
  intro d member
  obtain ⟨early, lacking⟩ := List.mem_filter.mp member
  obtain ⟨i, inside, rfl⟩ := List.mem_iff_getElem.mp early
  rw [List.length_dropLast] at inside
  have next : i + 1 < block.declarations.length := by omega
  have ends := List.isChain_iff_getElem.mp parted i next
  rw [List.getElem_dropLast] at lacking ⊢
  rcases ends with semicolon | ⟨issue, told, fault, after, before⟩
  · simp [Option.isNone_iff_eq_none.mp lacking] at semicolon
  · exact ⟨issue, told, _, List.getElem_mem next, fault, after, before⟩

/-- Where no `}` is told, each declaration but the last has its `;`. -/
theorem Block.Parted.semicolons {block : Block Item} (parted : block.Parted []) :
    ∀ d ∈ block.declarations.dropLast, d.semicolon.isSome := by
  intro d early
  by_contra lacking
  obtain ⟨issue, none_, -⟩ :=
    parted.overrun d (List.mem_filter.mpr ⟨early, by simpa using lacking⟩)
  cases none_

end Css

/-! ## The rule -/

theorem StyleGuide.declarationSemicolon_of_id : ∀ r ∈ rules, r.id = "declaration-semicolon" →
    r.check = reading Rules.declarationSemicolon ∧ r.targets = [.cssBlock] ∧ r.languages = [.css] := by
  simp [rules, sharedRules, htmlRules, cssRules]

/-- What is told of a declaration that lacks its `;`: at its end, one may be added. -/
def Rules.missingSemicolon (d : Css.Declaration) : Finding :=
  (Finding.filled (.emptyAt d.span.finish) [("property", d.property)]).suggest "Add a semicolon" [';']

theorem Rules.declarationSemicolon_eq (s : Subject) : Rules.declarationSemicolon s =
    (s.cssBlock?.toList.flatMap (·.unended?.toList)).map missingSemicolon := by
  cases s with
  | cssBlock block =>
      rw [declarationSemicolon]
      cases last : block.declarations.getLast? with
      | none => simp [Subject.cssBlock?, Css.Block.unended?, last]
      | some d =>
          cases lacking : d.semicolon.isNone <;>
            simp [-Option.isNone_iff_eq_none, Subject.cssBlock?, Css.Block.unended?, last, lacking,
              Option.filter, missingSemicolon]
  | _ => rfl

/-- The rule tells of the last declaration of each block, if it lacks its `;`. -/
theorem Checker.runRule_semicolons {r : Rule} (isRule : r ∈ StyleGuide.rules)
    (named : r.id = "declaration-semicolon") (c : Checker) (file : Path) (cs : List Char) :
    (c.runRule file (.ofText .css cs) r).diagnostics =
      (((Css.Sheet.ofText cs .start).subjects.filterMap Subject.cssBlock?).flatMap
        (·.unended?.toList)).map fun d =>
          r.diagnostic (c.severityOf r) file (Rules.missingSemicolon d) := by
  obtain ⟨check, targets, languages⟩ := StyleGuide.declarationSemicolon_of_id r isRule named
  have answer : ∀ s, r.check (.ofText .css cs) s = .ok (Rules.declarationSemicolon s) := by
    intro s
    rw [check]
    rfl
  have found : ∀ s : Subject, r.found (c.severityOf r) file (.ofText .css cs) s =
      (s.cssBlock?.toList.flatMap (·.unended?.toList)).map fun d =>
        r.diagnostic (c.severityOf r) file (Rules.missingSemicolon d) := by
    intro s
    rw [Rule.found, answer]
    cases s <;> simp [Rule.appliesTo, targets, languages, Subject.target, Target.language?,
      Rules.declarationSemicolon_eq, Subject.cssBlock?, Function.comp_def]
  rw [runRule, Rule.diagnostics_runOver fun s _ => ⟨_, answer s⟩, List.flatMap_cons, found .source,
    List.flatMap_congr fun s _ => found s, List.filterMap_eq_flatMap_toList, List.flatMap_assoc,
    ← List.map_flatMap]
  rfl

/-- **What is told of declarations that lack their `;`.** In a block each declaration but the last has
its `;`, unless the block is made of bare declarations outside all blocks: one of those may also end
at a `}` that closes nothing, which is told. The rule tells of each declaration that lacks its `;`, at
its end and once, but for those that another one follows in their block. There are none of these if no
`}` is told, and each of them stands before one that is. -/
theorem Document.semicolons_told (cs : List Char) :
    let sheet := Css.Sheet.ofText cs .start
    (∀ block, .cssBlock block ∈ sheet.subjects →
        (∀ d ∈ block.declarations.dropLast, d.semicolon.isSome) ∨
          Css.Item.declarations block ∈ sheet.items ∧ block.opening = none ∧
            block.Parted sheet.issues) ∧
      (∀ d ∈ sheet.overrun, ∃ issue ∈ sheet.issues, issue.fault = .unexpectedClose ∧
        d.span.finish.offset ≤ issue.span.start.offset) ∧
      ∀ r ∈ StyleGuide.rules, r.id = "declaration-semicolon" → ∀ (c : Checker) (file : Path),
        ∃ told, (told ++ sheet.overrun).Perm sheet.unended ∧
          (c.runRule file (.ofText .css cs) r).diagnostics = told.map fun d =>
            r.diagnostic (c.severityOf r) file ((Finding.filled (.emptyAt d.span.finish)
              [("property", d.property)]).suggest "Add a semicolon" [';']) := by
  intro sheet
  refine ⟨fun block member => ?_, fun d member => ?_, fun r isRule named c file =>
    ⟨_, sheet.perm_unended, Checker.runRule_semicolons isRule named c file cs⟩⟩
  · exact (Css.Sheet.parted_block cs .start member).imp_left Css.Block.Parted.semicolons
  · obtain ⟨block, found, inside⟩ := List.mem_flatMap.mp member
    rcases Css.Sheet.parted_block cs .start (Subject.mem_cssBlock.mp found) with
      settled | ⟨-, -, parted⟩
    · obtain ⟨issue, none_, -⟩ := settled.overrun d inside
      cases none_
    · obtain ⟨issue, told, -, -, fault, after, -⟩ := parted.overrun d inside
      exact ⟨issue, told, fault, after⟩

/-- Of a rule and a bare declaration behind it, both without `;`, the rule tells. -/
theorem Document.semicolons_told_each :
    let sheet := Css.Sheet.ofText "x\x7ba:b\x7dc:d".toList .start
    sheet.unended.map (·.property) = [['a'], ['c']] ∧ sheet.overrun = [] ∧
      ∃ r ∈ StyleGuide.rules, r.id = "declaration-semicolon" ∧
        (Checker.runRule {} ⟨"a.css"⟩ (.ofText .css "x\x7ba:b\x7dc:d".toList)
          r).diagnostics.length = 2 := by
  intro sheet
  have unended : sheet.unended.map (·.property) = [['a'], ['c']] := by decide +kernel
  have overrun : sheet.overrun = [] := by decide +kernel
  have isRule : StyleGuide.cssRules[7] ∈ StyleGuide.rules :=
    List.mem_append_right _ (List.getElem_mem _)
  obtain ⟨-, -, rule⟩ := Document.semicolons_told "x\x7ba:b\x7dc:d".toList
  obtain ⟨told, same, diagnostics⟩ := rule _ isRule rfl {} ⟨"a.css"⟩
  refine ⟨unended, overrun, _, isRule, rfl, ?_⟩
  rw [diagnostics, List.length_map]
  have lengths := same.length_eq
  have two := congrArg List.length unended
  rw [List.length_map] at two
  rw [show Css.Sheet.overrun _ = [] from overrun, List.append_nil] at lengths
  exact lengths.trans two

/-- **A stray `}` hides a declaration that lacks its `;`**: another one follows it in its block, and the
rule tells nothing. -/
theorem Document.stray_brace_hides_semicolon :
    let sheet := Css.Sheet.ofText "a:b\x7dc:d;".toList .start
    (∃ block, .cssBlock block ∈ sheet.subjects ∧
        block.declarations.map (·.semicolon.isSome) = [false, true]) ∧
      (∃ d, .cssDeclaration d ∈ sheet.subjects ∧ d.semicolon = none) ∧
        ∀ r ∈ StyleGuide.rules, r.id = "declaration-semicolon" → ∀ (c : Checker) (file : Path),
          (c.runRule file (.ofText .css "a:b\x7dc:d;".toList) r).diagnostics = [] := by
  intro sheet
  have shape : sheet.items.map (fun item => item.subject.cssBlock?.map fun block =>
      (block.nested.length, block.declarations.map (·.semicolon.isSome))) =
        [some (0, [false, true])] := by decide +kernel
  obtain ⟨item, items, parts⟩ := List.map_eq_singleton_iff.mp shape
  obtain ⟨block, rfl, flat, semicolons⟩ : ∃ block, item = .declarations block ∧ block.nested = [] ∧
      block.declarations.map (·.semicolon.isSome) = [false, true] := by
    cases item with
    | declarations block =>
        exact ⟨block, rfl, by simpa [Css.Item.subject, Subject.cssBlock?] using parts⟩
    | _ => cases parts
  have blocks : ∀ inner, .cssBlock inner ∈ sheet.subjects ↔ inner = block := by
    intro inner
    simp [Css.Sheet.subjects, items, Css.itemsSubjects, Css.Item.subjects, Css.mem_blocks, flat]
  have declared : ∀ d ∈ block.declarations, .cssDeclaration d ∈ sheet.subjects := by
    intro d member
    simp [Css.Sheet.subjects, items, Css.itemsSubjects, Css.Item.subjects, Css.mem_blockSubjects,
      member]
  obtain ⟨d, e, two⟩ := List.length_eq_two.mp (by simpa using congrArg List.length semicolons)
  rw [two] at semicolons declared
  simp only [List.map_cons, List.map_nil, List.cons.injEq, and_true] at semicolons
  refine ⟨⟨block, (blocks block).mpr rfl, ?_⟩, ⟨d, declared d List.mem_cons_self, ?_⟩,
    fun r isRule named c file => ?_⟩
  · simp [two, semicolons]
  · simpa using semicolons.1
  · rw [Checker.runRule_semicolons isRule named, List.map_eq_nil_iff, List.flatMap_eq_nil_iff]
    intro inner member
    obtain rfl := (blocks inner).mp (Subject.mem_cssBlock.mp member)
    simp [Css.Block.unended?, two, Option.filter, Option.isSome_iff_ne_none.mp semicolons.2]

end PageLint
