/-
# PageLint.Proofs.Lint.Directives — the grammar of comments that silence rules

`Directive.Form` is the grammar: which texts are comments of the form of a directive, as an
author may write it, white space and all. The reader takes what is longest at every turn and
never turns back, and still reads exactly the texts of the grammar (`parse?_eq_some_iff`): an id
ends where no more of it can follow, a comma that no id follows belongs to nothing, and what the
delimiters enclose is cut off first.

So a rule is silent on a line if and only if a comment of the document has the form, names the
rule or all rules, and reaches the line; and a directive that was written down is read back as it
was (`suppressions_follow_grammar`).
-/
import PageLint.Lint.Suppression
import PageLint.Proofs.Html.RoundTrip

namespace PageLint

set_option autoImplicit false

open Text

namespace Directive

/-! ## The grammar -/

/-- White space alone, or nothing. -/
def IsSpace (cs : List Char) : Prop := ∀ c ∈ cs, isBlank c

/-- The id of a rule: word characters and `-`. -/
def IsId (id : List Char) : Prop := id ≠ [] ∧ ∀ c ∈ id, isIdChar c

/-- Texts that list ids, with commas between them and white space around the commas. -/
inductive Lists : List (List Char) → List Char → Prop
  | last {id : List Char} (isId : IsId id) : Lists [id] id
  | more {id : List Char} {ids : List (List Char)} {before behind rest : List Char} (isId : IsId id)
      (before_ : IsSpace before) (behind_ : IsSpace behind) (others : Lists ids rest) :
      Lists (id :: ids) (id ++ (before ++ ',' :: (behind ++ rest)))

/-- Texts that give a reason, or none: after a colon, or after `--` with white space on both
sides. -/
inductive Gives : Option (List Char) → List Char → Prop
  | none : Gives none []
  | colon {before behind reason : List Char} (before_ : IsSpace before) (behind_ : IsSpace behind)
      (some_ : reason ≠ []) :
      Gives (some (trim reason)) (before ++ ':' :: (behind ++ reason))
  | dashes {before behind reason : List Char} (before_ : IsSpace before) (gap : before ≠ [])
      (behind_ : IsSpace behind) (gap' : behind ≠ []) (some_ : reason ≠ []) :
      Gives (some (trim reason)) (before ++ '-' :: '-' :: (behind ++ reason))

/-- **The grammar of directives**: the comments that have the form of a directive. -/
inductive Form (d : Directive) : List Char → Prop
  | intro {opener lead gap names remark trail closer : List Char}
      (opens : opener ∈ words ["<!--", "/*"]) (lead_ : IsSpace lead)
      (gap_ : IsSpace gap) (some_ : gap ≠ []) (lists : Lists d.ids names)
      (gives : Gives d.reason remark) (trail_ : IsSpace trail)
      (closes : closer ∈ words ["-->", "*/"]) :
      Form d (opener ++ (lead ++ ("frost-".toList ++ (d.kind.word ++ (gap ++
        (names ++ (remark ++ (trail ++ closer))))))))

/-! ## White space and ids -/

/-- The code points of white space. -/
def blankCodes : List Nat :=
  [0x9, 0xA, 0xB, 0xC, 0xD, 0x20, 0x85, 0xA0, 0x1680, 0x2000, 0x2001, 0x2002, 0x2003, 0x2004,
    0x2005, 0x2006, 0x2007, 0x2008, 0x2009, 0x200A, 0x2028, 0x2029, 0x202F, 0x205F, 0x3000]

theorem toNat_mem_blankCodes {c : Char} (blank : isBlank c) : c.toNat ∈ blankCodes := by
  simp only [isBlank, Bool.or_eq_true, Bool.and_eq_true, decide_eq_true_eq, beq_iff_eq,
    Char.ext_iff, Char.le_def, UInt32.le_iff_toNat_le, ← UInt32.toNat_inj, UInt32.reduceToNat,
    Char.reduceVal] at blank
  have code : c.toNat = c.val.toNat := rfl
  rw [code]
  simp only [blankCodes, List.mem_cons, List.not_mem_nil, or_false]
  omega

/-- White space above ASCII lies in no range of word characters. -/
theorem wordRanges_apart : (wordRanges.toList.all fun range => blankCodes.all fun code =>
    Nat.blt code range.1 || Nat.blt range.2 code) = true := by
  decide +kernel

/-- No id holds white space. -/
theorem isIdChar_of_isBlank {c : Char} (blank : isBlank c) : isIdChar c = false := by
  have code := toNat_mem_blankCodes blank
  have noRange : wordRanges.holds c = false := by
    rw [CodePoints.holds, Bool.and_eq_false_iff, ← Array.any_toList, List.any_eq_false]
    refine .inr fun range member inside => ?_
    have apart := List.all_eq_true.mp (List.all_eq_true.mp wordRanges_apart range member) _ code
    simp only [Bool.or_eq_true, Nat.blt_eq, Bool.and_eq_true, decide_eq_true_eq] at apart inside
    omega
  have noLetter : ∀ n ∈ blankCodes, (Char.ofNat n).isAlphanum = false ∧ Char.ofNat n ≠ '_' ∧
      Char.ofNat n ≠ '-' := by decide
  obtain ⟨letter, line, dash⟩ := noLetter _ code
  rw [Char.ofNat_toNat] at letter line dash
  simp [isIdChar, isWord, letter, line, dash, noRange]

theorem not_isBlank_of_isIdChar {c : Char} (isChar : isIdChar c) : isBlank c = false := by
  rw [Bool.eq_false_iff]
  intro blank
  rw [isIdChar_of_isBlank blank] at isChar
  cases isChar

theorem IsSpace.append {cs ds : List Char} (first : IsSpace cs) (second : IsSpace ds) :
    IsSpace (cs ++ ds) := List.forall_mem_append.mpr ⟨first, second⟩

variable {cs rest gap : List Char}

theorem trimStart_append (space : IsSpace gap) (stops : ∀ c ∈ rest.head?, isBlank c = false) :
    trimStart (gap ++ rest) = rest := by
  rw [trimStart, trimStartBy, List.dropWhile_append_of_pos space]
  cases rest with
  | nil => rfl
  | cons c rest => rw [List.dropWhile_cons_of_neg (by simp [stops c rfl])]

theorem trimStart_append_cons (space : IsSpace gap) {c : Char} (plain : isBlank c = false)
    (more : List Char) : trimStart (gap ++ c :: more) = c :: more := by
  refine trimStart_append space fun d first => ?_
  rwa [← Option.some.inj first]

theorem trimStart_space (space : IsSpace gap) : trimStart gap = [] := by
  rw [trimStart, trimStartBy, List.dropWhile_eq_nil_iff]
  exact space

theorem trimStart_space_append (space : IsSpace gap) (cs : List Char) :
    trimStart (gap ++ cs) = trimStart cs := List.dropWhile_append_of_pos space

/-- After white space, or at once, comes a character that is in no id: then no id goes on. -/
theorem IsSpace.stops_id (space : IsSpace gap) {c : Char} (stop : isIdChar c = false)
    (more : List Char) : ∀ d ∈ (gap ++ c :: more).head?, isIdChar d = false := by
  intro d first
  cases gap with
  | nil => rwa [← Option.some.inj first]
  | cons b gap =>
      rw [← Option.some.inj first]
      exact isIdChar_of_isBlank (space b List.mem_cons_self)

theorem IsSpace.head_append (space : IsSpace gap) (some_ : gap ≠ []) (more : List Char) :
    (gap ++ more).head?.any isBlank := by
  cases gap with
  | nil => exact absurd rfl some_
  | cons c gap => exact space c List.mem_cons_self

/-- A text is white space and what is left without it. -/
theorem exists_space (cs : List Char) : ∃ gap, IsSpace gap ∧ cs = gap ++ trimStart cs :=
  ⟨cs.takeWhile isBlank, fun _ member => List.mem_takeWhile_imp member,
    List.takeWhile_append_dropWhile.symm⟩

/-! ## Ids -/

/-- What may follow a list of ids: no more of the last id, and no comma after white space. -/
structure EndsIds (rest : List Char) : Prop where
  id : ∀ c ∈ rest.head?, isIdChar c = false
  comma : (trimStart rest).head? ≠ some ','

theorem dropWhile_append_stop {p : Char → Bool} {part : List Char} (inside : ∀ c ∈ part, p c)
    (stop : ∀ c ∈ rest.head?, p c = false) : (part ++ rest).dropWhile p = rest := by
  rw [List.dropWhile_append_of_pos inside]
  cases rest with
  | nil => rfl
  | cons c rest => rw [List.dropWhile_cons_of_neg (by simp [stop c rfl])]

theorem readIds_last (none_ : (trimStart (cs.dropWhile isIdChar)).head? ≠ some ',') :
    readIds cs = ([cs.takeWhile isIdChar], cs.dropWhile isIdChar) := by
  rw [readIds]
  split
  next more comma =>
    rw [trimStart, trimStartBy, comma] at none_
    exact absurd rfl none_
  next => rfl

theorem readIds_comma {more : List Char}
    (comma : trimStart (cs.dropWhile isIdChar) = ',' :: more) :
    readIds cs =
      if (trimStart more).head?.any isIdChar then
        (cs.takeWhile isIdChar :: (readIds (trimStart more)).1, (readIds (trimStart more)).2)
      else ([cs.takeWhile isIdChar], cs.dropWhile isIdChar) := by
  rw [readIds]
  split
  next more' comma' =>
    rw [trimStart, trimStartBy, comma'] at comma
    obtain rfl := (List.cons.inj comma).2
    rfl
  next none_ => exact absurd comma (none_ more)

theorem Lists.head {ids : List (List Char)} {names : List Char} (lists : Lists ids names)
    (rest : List Char) : ∃ c ∈ (names ++ rest).head?, isIdChar c := by
  have leads : ∀ {id : List Char}, IsId id → ∀ more : List Char,
      ∃ c ∈ (id ++ more).head?, isIdChar c := by
    intro id isId more
    cases id with
    | nil => exact absurd rfl isId.1
    | cons c id => exact ⟨c, rfl, isId.2 c List.mem_cons_self⟩
  cases lists with
  | last isId => exact leads isId rest
  | more isId _ _ _ =>
      rw [List.append_assoc]
      exact leads isId _

/-- **A list of ids is read as what it lists**, and what follows it is left. -/
theorem readIds_append {ids : List (List Char)} {names : List Char} (lists : Lists ids names)
    (ends : EndsIds rest) : readIds (names ++ rest) = (ids, rest) := by
  induction lists with
  | @last id isId =>
      have tail := dropWhile_append_stop isId.2 ends.id
      rw [readIds_last (by rw [tail]; exact ends.comma), tail,
        takeWhile_append_stop isId.2 ends.id]
  | @more id ids before behind names isId before_ behind_ others ih =>
      have stop := before_.stops_id (by decide : isIdChar ',' = false) (behind ++ (names ++ rest))
      have whole : id ++ (before ++ ',' :: (behind ++ names)) ++ rest =
          id ++ (before ++ ',' :: (behind ++ (names ++ rest))) := by simp
      obtain ⟨d, first, isChar⟩ := others.head rest
      have next : trimStart (behind ++ (names ++ rest)) = names ++ rest := by
        refine trimStart_append behind_ fun c first' => ?_
        obtain rfl := Option.some.inj (first.symm.trans first')
        exact not_isBlank_of_isIdChar isChar
      have tail := dropWhile_append_stop isId.2 stop
      have comma : trimStart ((id ++ (before ++ ',' :: (behind ++ (names ++ rest)))).dropWhile
          isIdChar) = ',' :: (behind ++ (names ++ rest)) := by
        rw [tail, trimStart_append_cons before_ (by decide)]
      rw [whole, readIds_comma comma, next, takeWhile_append_stop isId.2 stop, ih, if_pos]
      rw [Option.mem_def.mp first]
      exact isChar

/-- What stands at the head of a text that begins with part of an id is an id. -/
theorem isId_takeWhile (starts : cs.head?.any isIdChar) : IsId (cs.takeWhile isIdChar) := by
  refine ⟨?_, fun c member => List.mem_takeWhile_imp member⟩
  cases cs with
  | nil => cases starts
  | cons c cs =>
      have first : isIdChar c = true := starts
      rw [List.takeWhile_cons_of_pos first]
      exact List.cons_ne_nil c _

/-- **What is read as ids is a list of them**, and the rest follows it. -/
theorem readIds_spec (starts : cs.head?.any isIdChar) :
    ∃ names, Lists (readIds cs).1 names ∧ cs = names ++ (readIds cs).2 := by
  fun_induction readIds cs with
  | case1 cs id rest more comma next joined ids tail read ih =>
      obtain ⟨names, lists, same⟩ := ih joined
      rw [read] at lists same
      obtain ⟨before, before_, gap⟩ := exists_space rest
      obtain ⟨behind, behind_, gap'⟩ := exists_space more
      have gone : trimStart rest = ',' :: more := comma
      have gone' : trimStart more = next := rfl
      refine ⟨_, .more (isId_takeWhile starts) before_ behind_ lists, ?_⟩
      rw [gone] at gap
      rw [gone', same] at gap'
      have whole : cs = id ++ rest := List.takeWhile_append_dropWhile.symm
      rw [whole, gap, gap']
      simp only [id, List.append_assoc, List.cons_append]
  | case2 cs id rest more comma next apart =>
      exact ⟨id, .last (isId_takeWhile starts), List.takeWhile_append_dropWhile.symm⟩
  | case3 cs id rest none_ =>
      exact ⟨id, .last (isId_takeWhile starts), List.takeWhile_append_dropWhile.symm⟩

/-! ## Reasons -/

theorem trimEnd_append {trail : List Char} (trail_ : IsSpace trail) (cs : List Char) :
    trimEnd (cs ++ trail) = trimEnd cs := by
  unfold trimEnd
  induction cs with
  | nil => exact trimEndBy_append (fun _ => nofun) trail_
  | cons c cs ih => rw [List.cons_append, trimEndBy, ih, trimEndBy]

theorem trim_append {behind reason trail : List Char} (behind_ : IsSpace behind)
    (trail_ : IsSpace trail) : trim (behind ++ (reason ++ trail)) = trim reason := by
  rw [trim, trim, trimStart_space_append behind_]
  obtain ⟨gap, gap_, whole⟩ := exists_space reason
  by_cases blank : trimStart reason = []
  · rw [blank, List.append_nil] at whole
    rw [blank, trimStart_space ((whole ▸ gap_).append trail_)]
  · have kept : trimStart (reason ++ trail) = trimStart reason ++ trail := by
      rw [trimStart, trimStartBy, List.dropWhile_append, if_neg]
      · rfl
      · rw [List.isEmpty_iff]
        exact blank
    rw [kept, trimEnd_append trail_]

/-- What gives a reason may follow a list of ids. -/
theorem Gives.endsIds {reason : Option (List Char)} {remark trail : List Char}
    (gives : Gives reason remark) (trail_ : IsSpace trail) : EndsIds (remark ++ trail) := by
  cases gives with
  | none =>
      rw [List.nil_append]
      refine ⟨fun c first => ?_, by rw [trimStart_space trail_]; nofun⟩
      exact isIdChar_of_isBlank (trail_ c (List.mem_of_mem_head? first))
  | @colon before behind reason before_ _ _ =>
      rw [List.append_assoc, List.cons_append]
      refine ⟨before_.stops_id (by decide) _, ?_⟩
      rw [trimStart_append_cons before_ (by decide)]
      exact fun same => absurd (Option.some.inj same) (by decide)
  | @dashes before behind reason before_ gap _ _ _ =>
      rw [List.append_assoc, List.cons_append, List.cons_append]
      refine ⟨fun c first => ?_, ?_⟩
      · have blank := before_.head_append gap ('-' :: '-' :: (behind ++ reason ++ trail))
        rw [Option.mem_def.mp first] at blank
        exact isIdChar_of_isBlank blank
      · rw [trimStart_append_cons before_ (by decide)]
        exact fun same => absurd (Option.some.inj same) (by decide)

/-- **A reason is read as it is given.** -/
theorem readReason?_append {reason : Option (List Char)} {remark trail : List Char}
    (gives : Gives reason remark) (trail_ : IsSpace trail) :
    readReason? (remark ++ trail) = some reason := by
  cases gives with
  | none =>
      rw [List.nil_append, readReason?, trimStart_space trail_]
  | @colon before behind reason before_ behind_ some_ =>
      have whole : before ++ ':' :: (behind ++ reason) ++ trail =
          before ++ ':' :: (behind ++ (reason ++ trail)) := by simp
      rw [whole, readReason?, trimStart_append_cons before_ (by decide)]
      simp [some_, trim_append behind_ trail_]
  | @dashes before behind reason before_ gap behind_ gap' some_ =>
      have whole : before ++ '-' :: '-' :: (behind ++ reason) ++ trail =
          before ++ '-' :: '-' :: (behind ++ (reason ++ trail)) := by simp
      have long : 2 ≤ (behind ++ (reason ++ trail)).length := by
        have one := List.length_pos_iff.mpr gap'
        have two := List.length_pos_iff.mpr some_
        simp only [List.length_append]
        omega
      have first : (before ++ '-' :: '-' :: (behind ++ (reason ++ trail))).head?.any isBlank :=
        before_.head_append gap _
      have first' : (behind ++ (reason ++ trail)).head?.any isBlank := behind_.head_append gap' _
      rw [whole, readReason?, trimStart_append_cons before_ (by decide)]
      simp only [first, first', long, trim_append behind_ trail_, decide_true, Bool.and_self,
        if_true]

/-- **What is read as a reason gives it**, with white space behind. -/
theorem readReason?_spec {reason : Option (List Char)} (read : readReason? cs = some reason) :
    ∃ remark trail, Gives reason remark ∧ IsSpace trail ∧ cs = remark ++ trail := by
  obtain ⟨before, before_, whole⟩ := exists_space cs
  unfold readReason? at read
  split at read
  next none_ =>
    obtain rfl := Option.some.inj read
    rw [none_, List.append_nil] at whole
    exact ⟨[], cs, .none, whole ▸ before_, rfl⟩
  next reason' colon =>
    split at read
    next => cases read
    next some_ =>
      obtain rfl := Option.some.inj read
      have given : Gives (some (trim reason')) (before ++ ':' :: ([] ++ reason')) :=
        .colon before_ (fun _ => nofun) (mt List.isEmpty_iff.mpr some_)
      refine ⟨_, [], given, fun _ => nofun, ?_⟩
      rw [List.append_nil, List.nil_append, ← colon]
      exact whole
  next reason' dashes =>
    split at read
    next apart =>
      obtain rfl := Option.some.inj read
      simp only [Bool.and_eq_true, decide_eq_true_eq] at apart
      obtain ⟨⟨first, first'⟩, long⟩ := apart
      have gap : before ≠ [] := by
        rintro rfl
        rw [whole, List.nil_append, dashes] at first
        cases first
      cases reason' with
      | nil => cases first'
      | cons c more =>
          have behind_ : IsSpace [c] := List.forall_mem_singleton.mpr first'
          have some_ : more ≠ [] := by
            rintro rfl
            simp at long
          have given := Gives.dashes before_ gap behind_ (List.cons_ne_nil c []) some_
          have trimmed : trim (c :: more) = trim more := by
            have cut : trim ([c] ++ (more ++ [])) = trim more := trim_append behind_ fun _ => nofun
            rwa [List.append_nil] at cut
          refine ⟨_, [], trimmed ▸ given, fun _ => nofun, ?_⟩
          rw [List.append_nil]
          exact whole.trans (congrArg (before ++ ·) dashes)
    next => cases read
  next => cases read

/-! ## Words and delimiters -/

theorem readKindAs?_append (kind : DirectiveKind) (gap_ : IsSpace gap) (some_ : gap ≠ [])
    (stops : ∀ c ∈ rest.head?, isBlank c = false) :
    readKindAs? kind (kind.word ++ (gap ++ rest)) = some (kind, rest) := by
  have follows := stripHead_eq_some_iff.mpr (rfl : kind.word ++ (gap ++ rest) = _)
  have left := trimStart_append gap_ stops
  have first := gap_.head_append some_ rest
  rw [readKindAs?, follows]
  cases whole : gap ++ rest with
  | nil =>
      rw [whole] at first
      cases first
  | cons c more =>
      rw [whole] at first left
      have blank : isBlank c = true := first
      simp only [blank, if_true, left]

theorem readKindAs?_spec {kind kind' : DirectiveKind}
    (read : readKindAs? kind' cs = some (kind, rest)) :
    ∃ gap, IsSpace gap ∧ gap ≠ [] ∧ cs = kind.word ++ (gap ++ rest) := by
  unfold readKindAs? at read
  split at read
  next c more follows =>
    split at read
    next blank =>
      obtain ⟨rfl, rfl⟩ := Prod.mk.inj (Option.some.inj read)
      obtain ⟨gap, gap_, whole⟩ := exists_space more
      have left : trimStart (c :: more) = trimStart more := List.dropWhile_cons_of_pos blank
      refine ⟨c :: gap, List.forall_mem_cons.mpr ⟨blank, gap_⟩, List.cons_ne_nil c gap, ?_⟩
      rw [left, List.cons_append, ← whole]
      exact stripHead_eq_some_iff.mp follows
    next => cases read
  next => cases read

/-- **The word of a kind is read as the kind.** The shortest word leads the others, but white
space follows it. -/
theorem readKind?_append (kind : DirectiveKind) (gap_ : IsSpace gap) (some_ : gap ≠ [])
    (stops : ∀ c ∈ rest.head?, isBlank c = false) :
    readKind? (kind.word ++ (gap ++ rest)) = some (kind, rest) := by
  have own := readKindAs?_append kind gap_ some_ stops
  have dash : ∀ more, gap ++ rest ≠ '-' :: more := by
    intro more same
    have first := gap_.head_append some_ rest
    rw [same] at first
    cases first
  cases kind with
  | nextLine => simp [readKind?, own]
  | file =>
      have other : readKindAs? .nextLine (DirectiveKind.file.word ++ (gap ++ rest)) = none := rfl
      simp [readKind?, other, own]
  | here =>
      have other : ∀ kind ∈ [DirectiveKind.nextLine, .file],
          stripHead kind.word (DirectiveKind.here.word ++ (gap ++ rest)) = none := by
        intro kind longer
        obtain ⟨ending, word⟩ : ∃ ending, kind.word = DirectiveKind.here.word ++ '-' :: ending := by
          simp only [List.mem_cons, List.not_mem_nil, or_false] at longer
          rcases longer with rfl | rfl <;> exact ⟨_, rfl⟩
        rw [Option.eq_none_iff_forall_ne_some]
        intro more follows
        rw [stripHead_eq_some_iff, word, List.append_assoc] at follows
        exact dash _ (List.append_cancel_left follows)
      have nextLine : readKindAs? .nextLine (DirectiveKind.here.word ++ (gap ++ rest)) = none := by
        rw [readKindAs?, other _ (by simp)]
      have file : readKindAs? .file (DirectiveKind.here.word ++ (gap ++ rest)) = none := by
        rw [readKindAs?, other _ (by simp)]
      simp [readKind?, nextLine, file, own]

theorem readKind?_spec {kind : DirectiveKind} (read : readKind? cs = some (kind, rest)) :
    ∃ gap, IsSpace gap ∧ gap ≠ [] ∧ cs = kind.word ++ (gap ++ rest) := by
  obtain ⟨kind', -, read⟩ := List.exists_of_findSome?_eq_some read
  exact readKindAs?_spec read

theorem stripCloser?_eq_some_iff {inside : List Char} :
    stripCloser? cs = some inside ↔ ∃ closer ∈ words ["-->", "*/"], cs = inside ++ closer := by
  rw [stripCloser?, Option.or_eq_some_iff]
  constructor
  · rintro (strip | ⟨-, strip⟩)
    · exact ⟨"-->".toList, by simp [words], stripTail_eq_some_iff.mp strip⟩
    · exact ⟨"*/".toList, by simp [words], stripTail_eq_some_iff.mp strip⟩
  · rintro ⟨closer, member, rfl⟩
    simp only [words, List.map_cons, List.map_nil, List.mem_cons, List.not_mem_nil, or_false]
      at member
    rcases member with rfl | rfl
    · exact .inl (stripTail_eq_some_iff.mpr rfl)
    · refine .inr ⟨Option.eq_none_iff_forall_ne_some.mpr fun kept strip => ?_,
        stripTail_eq_some_iff.mpr rfl⟩
      have lasts := congrArg List.getLast? (stripTail_eq_some_iff.mp strip)
      simp at lasts

theorem stripOpener?_eq_some_iff {inside : List Char} :
    stripOpener? cs = some inside ↔ ∃ opener ∈ words ["<!--", "/*"], cs = opener ++ inside := by
  rw [stripOpener?, Option.or_eq_some_iff]
  constructor
  · rintro (strip | ⟨-, strip⟩)
    · exact ⟨"<!--".toList, by simp [words], stripHead_eq_some_iff.mp strip⟩
    · exact ⟨"/*".toList, by simp [words], stripHead_eq_some_iff.mp strip⟩
  · rintro ⟨opener, member, rfl⟩
    simp only [words, List.map_cons, List.map_nil, List.mem_cons, List.not_mem_nil, or_false]
      at member
    rcases member with rfl | rfl
    · exact .inl (stripHead_eq_some_iff.mpr rfl)
    · exact .inr ⟨rfl, stripHead_eq_some_iff.mpr rfl⟩

/-! ## Whole directives -/

variable {comment : List Char} {d : Directive}

/-- What has the form of a directive is read as it. -/
theorem Form.parse? (form : d.Form comment) : parse? comment = some d := by
  obtain ⟨opens, lead_, gap_, some_, lists, gives, trail_, closes⟩ := form
  rename_i opener lead gap names remark trail closer
  obtain ⟨c, first, isChar⟩ := lists.head (remark ++ trail)
  have stops : ∀ d ∈ (names ++ (remark ++ trail)).head?, isBlank d = false := by
    intro d first'
    obtain rfl := Option.some.inj (first.symm.trans first')
    exact not_isBlank_of_isIdChar isChar
  have starts : (names ++ (remark ++ trail)).head?.any isIdChar := by
    rw [Option.mem_def.mp first]
    exact isChar
  have whole : opener ++ (lead ++ ("frost-".toList ++ (d.kind.word ++ (gap ++ (names ++ (remark ++
      (trail ++ closer))))))) = opener ++ (lead ++ ("frost-".toList ++ (d.kind.word ++ (gap ++
        (names ++ (remark ++ trail)))))) ++ closer := by
    simp only [List.append_assoc]
  rw [whole]
  have kindRead := readKind?_append d.kind gap_ some_ stops
  have idsRead := readIds_append lists (gives.endsIds trail_)
  have told := readReason?_append gives trail_
  generalize names ++ (remark ++ trail) = tail at *
  have headed : stripHead "frost-".toList
      (trimStart (lead ++ ("frost-".toList ++ (d.kind.word ++ (gap ++ tail))))) =
        some (d.kind.word ++ (gap ++ tail)) := by
    rw [stripHead_eq_some_iff]
    exact trimStart_append_cons lead_ (by decide) _
  have opened : ∀ inside, stripOpener? (opener ++ inside) = some inside := fun _ =>
    stripOpener?_eq_some_iff.mpr ⟨opener, opens, rfl⟩
  have closed : ∀ inside, stripCloser? (inside ++ closer) = some inside := fun _ =>
    stripCloser?_eq_some_iff.mpr ⟨closer, closes, rfl⟩
  simp only [Directive.parse?, closed, opened, headed, kindRead, starts, idsRead, told,
    Option.bind_eq_bind, Option.bind_some, if_true]

/-- What is read as a directive has the form of it. -/
theorem form_of_parse? (read : parse? comment = some d) : d.Form comment := by
  simp only [parse?, Option.bind_eq_bind, Option.bind_eq_some_iff] at read
  obtain ⟨inside, closed, body, opened, word, headed, ⟨kind, rest⟩, kindRead, read⟩ := read
  dsimp only at read
  split at read
  next starts =>
    obtain ⟨reason, given, made⟩ := Option.bind_eq_some_iff.mp read
    obtain rfl := Option.some.inj made
    obtain ⟨closer, closes, rfl⟩ := stripCloser?_eq_some_iff.mp closed
    obtain ⟨opener, opens, rfl⟩ := stripOpener?_eq_some_iff.mp opened
    obtain ⟨lead, lead_, whole⟩ := exists_space body
    obtain ⟨gap, gap_, some_, rfl⟩ := readKind?_spec kindRead
    obtain ⟨names, lists, listed⟩ := readIds_spec starts
    obtain ⟨remark, trail, gives, trail_, told⟩ := readReason?_spec given
    have form : Form ⟨kind, (readIds rest).1, reason⟩ _ :=
      .intro opens lead_ gap_ some_ lists gives trail_ closes
    have tail : rest ++ closer = names ++ (remark ++ (trail ++ closer)) := by
      rw [listed, told]
      simp only [List.append_assoc]
    rw [whole, stripHead_eq_some_iff.mp headed]
    simp only [List.append_assoc]
    rw [tail]
    exact form
  next => cases read

/-- **The texts that are read as a directive are those that the grammar says have its form.** -/
theorem parse?_eq_some_iff : Directive.parse? comment = some d ↔ d.Form comment :=
  ⟨form_of_parse?, Form.parse?⟩

/-! ## What directives mean -/

/-- Whether a directive names a rule, by its id or by `all`. -/
def Names (d : Directive) (id : String) : Prop := id.toList ∈ d.ids ∨ "all".toList ∈ d.ids

end Directive

/-- Whether a line is one that a directive of the kind reaches from a comment. -/
def DirectiveKind.Reaches (kind : DirectiveKind) (comment : Span) (line : Nat) : Prop :=
  match kind with
  | here => comment.start.line ≤ line ∧ line ≤ comment.finish.line
  | nextLine => line = comment.finish.line + 1
  | file => True

/-- Whether a comment has the form of a directive that names a rule and reaches a line. -/
def Css.Comment.Silences (c : Css.Comment) (id : String) (line : Nat) : Prop :=
  ∃ d : Directive, d.Form c.text ∧ d.Names id ∧ d.kind.Reaches c.span line

namespace Suppression

theorem names_ofDirective {d : Directive} {span : Span} {id : String} :
    (ofDirective d span).names id ↔ d.Names id := by
  have listed : ∀ id : String, id ∈ d.ids.map String.ofList ↔ id.toList ∈ d.ids := by
    intro id
    rw [List.mem_map]
    constructor
    · rintro ⟨text, member, rfl⟩
      rwa [String.toList_ofList]
    · intro member
      exact ⟨id.toList, member, String.ofList_toList⟩
  simp only [names, ofDirective, Bool.or_eq_true, List.contains_iff_mem, listed]
  rfl

theorem covers_ofDirective {d : Directive} {span : Span} {line : Nat} :
    (ofDirective d span).reach.covers line ↔ d.kind.Reaches span line := by
  unfold ofDirective
  cases d.kind with
  | here => simp [Reach.covers, LineRange.covers, DirectiveKind.Reaches]
  | nextLine =>
      simp only [Reach.covers, LineRange.covers, DirectiveKind.Reaches, Bool.and_eq_true,
        decide_eq_true_eq]
      omega
  | file => simp [Reach.covers, DirectiveKind.Reaches]

end Suppression

namespace Suppressions

/-- **A rule is silent on a line if and only if a comment silences it there.** -/
theorem isSuppressed_iff {doc : Document} {id : String} (unreserved : isReserved id = false)
    (line : Nat) :
    (ofDocument doc).isSuppressed id line ↔ ∃ c ∈ doc.comments, c.Silences id line := by
  simp only [isSuppressed, unreserved, Bool.not_false, Bool.true_and, List.any_eq_true, ofDocument,
    List.mem_filterMap, Option.map_eq_some_iff, Directive.parse?_eq_some_iff, Bool.and_eq_true]
  constructor
  · rintro ⟨_, ⟨c, member, d, form, rfl⟩, named, reached⟩
    exact ⟨c, member, d, form, Suppression.names_ofDirective.mp named,
      Suppression.covers_ofDirective.mp reached⟩
  · rintro ⟨c, member, d, form, named, reached⟩
    exact ⟨_, ⟨c, member, d, form, rfl⟩, Suppression.names_ofDirective.mpr named,
      Suppression.covers_ofDirective.mpr reached⟩

end Suppressions

/-! ## Directives, written down and read back -/

namespace Directive

/-- What opens a comment of a language. -/
def opener : Language → List Char
  | .html => "<!--"
  | .css => "/*"

/-- What closes a comment of a language. -/
def closer : Language → List Char
  | .html => "-->"
  | .css => "*/"

/-- What a directive says, with a mark before its reason. -/
def body (mark : List Char) (d : Directive) : List Char :=
  " frost-".toList ++ (d.kind.word ++ ' ' :: (joinWith ", " d.ids ++
    ((d.reason.map (mark ++ ·)).getD [] ++ [' '])))

/-- A directive, written as a comment of a language. -/
def write (language : Language) (mark : List Char) (d : Directive) : List Char :=
  opener language ++ (d.body mark ++ closer language)

/-- A directive that can be written down: it names rules, and its reason, if it gives one, is not
empty, has no white space at its ends and closes no comment. -/
structure Plain (d : Directive) : Prop where
  some_ : d.ids ≠ []
  isId : ∀ id ∈ d.ids, IsId id
  reason : ∀ r ∈ d.reason, r ≠ [] ∧ trim r = r
  open_ : ∀ r ∈ d.reason, ∀ language, ¬ closer language <:+: r

/-- What renders a directive writes it for a page. -/
theorem render_eq (d : Directive) : d.render = d.write .html ": " := by
  have front : "<!-- frost-".toList = "<!--".toList ++ " frost-".toList := by decide
  have back : " -->".toList = ' ' :: "-->".toList := by decide
  have written : d.render = "<!-- frost-".toList ++ d.kind.word ++ [' '] ++ joinWith ", " d.ids ++
      ((d.reason.map fun reason => ": ".toList ++ reason).getD []) ++ " -->".toList := rfl
  have meant : d.write .html ": " = "<!--".toList ++ (" frost-".toList ++ (d.kind.word ++ ' ' ::
      (joinWith ", " d.ids ++ ((d.reason.map (": ".toList ++ ·)).getD [] ++ [' ']))) ++
        "-->".toList) := rfl
  rw [written, meant, front, back]
  simp only [List.append_assoc, List.cons_append, List.nil_append]

theorem lists_joinWith {ids : List (List Char)} (some_ : ids ≠ []) (areIds : ∀ id ∈ ids, IsId id) :
    Lists ids (joinWith ", " ids) := by
  induction ids with
  | nil => exact absurd rfl some_
  | cons id ids ih =>
      obtain ⟨first, others⟩ := List.forall_mem_cons.mp areIds
      cases ids with
      | nil =>
          rw [joinWith, List.intercalate_singleton]
          exact .last first
      | cons id' ids =>
          have listed := ih (List.cons_ne_nil id' ids) others
          have space : IsSpace [' '] := List.forall_mem_singleton.mpr rfl
          rw [joinWith, List.intercalate_cons_cons, List.append_assoc]
          exact .more first (fun _ => nofun : IsSpace []) space listed

theorem form_write (language : Language) {mark : List Char} (known : mark ∈ words [": ", " -- "])
    {d : Directive} (plain : d.Plain) : d.Form (d.write language mark) := by
  have space : IsSpace [' '] := List.forall_mem_singleton.mpr rfl
  have opens : opener language ∈ words ["<!--", "/*"] := by cases language <;> simp [words, opener]
  have closes : closer language ∈ words ["-->", "*/"] := by cases language <;> simp [words, closer]
  have gives : Gives d.reason ((d.reason.map (mark ++ ·)).getD []) := by
    cases given : d.reason with
    | none => exact .none
    | some r =>
        obtain ⟨some_, trimmed⟩ := plain.reason r given
        simp only [words, List.map_cons, List.map_nil, List.mem_cons, List.not_mem_nil, or_false]
          at known
        rcases known with rfl | rfl
        · have given := Gives.colon (fun _ => nofun : IsSpace []) space some_
          rwa [trimmed] at given
        · have given := Gives.dashes space (by simp) space (by simp) some_
          rwa [trimmed] at given
  have form := Form.intro opens space space (by simp) (lists_joinWith plain.some_ plain.isId) gives
    space closes
  have front : " frost-".toList = ' ' :: "frost-".toList := by decide
  have whole : d.write language mark = opener language ++ ([' '] ++ ("frost-".toList ++
      (d.kind.word ++ ([' '] ++ (joinWith ", " d.ids ++ ((d.reason.map (mark ++ ·)).getD [] ++
        ([' '] ++ closer language))))))) := by
    have written : d.write language mark = opener language ++ (" frost-".toList ++ (d.kind.word ++
        ' ' :: (joinWith ", " d.ids ++ ((d.reason.map (mark ++ ·)).getD [] ++ [' ']))) ++
          closer language) := rfl
    rw [written, front]
    simp only [List.append_assoc, List.cons_append, List.nil_append]
  rw [whole]
  exact form

/-- A sign that does not hold a character does not lie across it. -/
theorem infix_split {sign front back : List Char} {c : Char} (outside : c ∉ sign)
    (inside : sign <:+: front ++ c :: back) : sign <:+: front ∨ sign <:+: back := by
  induction front with
  | nil =>
      rcases List.infix_cons_iff.mp inside with leads | later
      · cases sign with
        | nil => exact .inl List.infix_rfl
        | cons d sign =>
            have same : d = c := (List.cons_prefix_cons.mp leads).1
            exact absurd (same ▸ List.mem_cons_self) outside
      · exact .inr later
  | cons d front ih =>
      rcases List.infix_cons_iff.mp inside with leads | later
      · change sign <+: (d :: front) ++ c :: back at leads
        by_cases short : sign.length ≤ (d :: front).length
        · exact .inl (List.prefix_of_prefix_length_le leads (List.prefix_append _ _) short).isInfix
        · have longer : (d :: front) ++ [c] <+: sign := by
            have joined : [c] <+: c :: back := List.cons_prefix_cons.mpr ⟨rfl, List.nil_prefix⟩
            refine List.prefix_of_prefix_length_le ((List.prefix_append_right_inj _).mpr joined)
              leads ?_
            simp only [List.length_append, List.length_singleton]
            omega
          exact absurd (longer.subset (by simp)) outside
      · rcases ih later with first | second
        · exact .inl (first.trans (List.suffix_cons d front).isInfix)
        · exact .inr second

theorem mem_joinWith {sep : List Char} {pieces : List (List Char)} {c : Char}
    (member : c ∈ joinWith sep pieces) : c ∈ sep ∨ ∃ piece ∈ pieces, c ∈ piece := by
  induction pieces with
  | nil => cases member
  | cons piece pieces ih =>
      cases pieces with
      | nil =>
          rw [joinWith, List.intercalate_singleton] at member
          exact .inr ⟨piece, List.mem_cons_self, member⟩
      | cons next pieces =>
          rw [joinWith, List.intercalate_cons_cons] at member
          rcases List.mem_append.mp member with front | later
          · rcases List.mem_append.mp front with own | between
            · exact .inr ⟨piece, List.mem_cons_self, own⟩
            · exact .inl between
          · rcases ih later with between | ⟨other, member, inside⟩
            · exact .inl between
            · exact .inr ⟨other, List.mem_cons_of_mem _ member, inside⟩

/-- A directive that can be written down closes no comment before its end: its words and ids
cannot, and a space stands on either side of its reason. -/
theorem open_body (language : Language) {mark : List Char} (known : mark ∈ words [": ", " -- "])
    {d : Directive} (plain : d.Plain) : ¬ closer language <:+: d.body mark := by
  obtain ⟨last, closes, ends, space⟩ : ∃ last, last ∈ ['>', '/'] ∧ last ∈ closer language ∧
      ' ' ∉ closer language := by
    cases language with
    | html => exact ⟨'>', by decide, by decide, by decide⟩
    | css => exact ⟨'/', by decide, by decide, by decide⟩
  have free : ∀ {cs : List Char}, last ∉ cs → ¬ closer language <:+: cs :=
    fun plain inside => plain (inside.subset ends)
  have front : last ∉ " frost-".toList ++ (d.kind.word ++ ' ' :: joinWith ", " d.ids) := by
    obtain ⟨frost, word, blank, comma, noId⟩ : last ∉ " frost-".toList ∧ last ∉ d.kind.word ∧
        last ≠ ' ' ∧ last ∉ ", ".toList ∧ isIdChar last = false := by
      simp only [List.mem_cons, List.not_mem_nil, or_false] at closes
      rcases closes with rfl | rfl
      · exact ⟨by decide, by cases d.kind <;> decide, by decide, by decide, by decide⟩
      · exact ⟨by decide, by cases d.kind <;> decide, by decide, by decide, by decide⟩
    simp only [List.mem_append, List.mem_cons, not_or]
    refine ⟨frost, word, blank, fun member => ?_⟩
    rcases mem_joinWith member with between | ⟨id, member, inside⟩
    · exact comma between
    · have isChar := (plain.isId id member).2 last inside
      rw [noId] at isChar
      cases isChar
  have whole : d.body mark = (" frost-".toList ++ (d.kind.word ++ ' ' :: joinWith ", " d.ids)) ++
      ((d.reason.map (mark ++ ·)).getD [] ++ [' ']) := by
    have said : d.body mark = " frost-".toList ++ (d.kind.word ++ ' ' :: (joinWith ", " d.ids ++
      ((d.reason.map (mark ++ ·)).getD [] ++ [' ']))) := rfl
    rw [said]
    simp only [List.append_assoc, List.cons_append]
  rw [whole]
  generalize " frost-".toList ++ (d.kind.word ++ ' ' :: joinWith ", " d.ids) = front_ at *
  have blank : last ∉ [' '] := by
    simp only [List.mem_singleton]
    rintro rfl
    exact absurd closes (by decide)
  cases given : d.reason with
  | none =>
      apply free
      simp only [Option.map_none, Option.getD_none, List.nil_append, List.mem_append, not_or]
      exact ⟨front, blank⟩
  | some r =>
      obtain ⟨sign, rfl, plainSign⟩ : ∃ sign, mark = sign ++ [' '] ∧ last ∉ sign := by
        simp only [words, List.map_cons, List.map_nil, List.mem_cons, List.not_mem_nil, or_false]
          at known closes
        rcases known with rfl | rfl
        · exact ⟨[':'], rfl, by rcases closes with rfl | rfl <;> decide⟩
        · exact ⟨[' ', '-', '-'], rfl, by rcases closes with rfl | rfl <;> decide⟩
      have split : front_ ++ ((some r).map (sign ++ [' '] ++ ·)).getD [] ++ [' '] =
          (front_ ++ sign) ++ ' ' :: (r ++ ' ' :: []) := by simp
      rw [← List.append_assoc, split]
      intro inside
      rcases infix_split space inside with first | later
      · refine free ?_ first
        rw [List.mem_append, not_or]
        exact ⟨front, plainSign⟩
      · rcases infix_split space later with inReason | nothing
        · exact plain.open_ r given language inReason
        · exact free List.not_mem_nil nothing

end Directive

namespace Document

/-- A page that is a comment has one comment, and no stylesheet. -/
theorem comments_ofText_html {body : List Char} (open_ : ¬ "-->".toList <:+: body) :
    (ofText .html (Html.writeComment body)).comments =
      [⟨Html.writeComment body, .covering .start (Html.writeComment body)⟩] := by
  have cut_ := Html.cut_comment open_ []
  rw [List.append_nil, cut_nil] at cut_
  have tokens : Html.tokenize (Html.writeComment body) =
      [⟨.comment, Html.writeComment body, .covering .start (Html.writeComment body)⟩] := by
    rw [Html.tokenize, Html.lexemes, Html.cut_head (fun mark => by cases mark), cut_]
    rfl
  have nodes : (Html.buildTree (some Html.depthCap) (Html.tokenize (Html.writeComment body))).1 =
      [.comment ⟨Html.writeComment body, .covering .start (Html.writeComment body)⟩] := by
    have single : ∀ t : Token Html.TokenKind, t.kind = .comment →
        Html.Markup.ofTokens [t] = [.single t] := by
      intro t comment
      simp [Html.Markup.ofTokens, comment]
    rw [tokens, Html.buildTree, single _ rfl, Html.Builder.run, Html.Builder.step,
      Html.Builder.takeIn_comment]
    rfl
  have sheets : (Html.Page.ofText (Html.writeComment body)).sheets = [] := by
    show (Html.styleTextsIn false (Html.buildTree _ _).1).map _ = []
    rw [nodes]
    rfl
  show (Html.Page.ofText _).comments ++ (Html.Page.ofText _).sheets.flatMap _ = _
  rw [sheets]
  show ((Html.tokenize _).filter _).map _ ++ [] = _
  rw [tokens]
  rfl

/-- A stylesheet that is a comment has one comment. -/
theorem comments_ofText_css {body : List Char} (open_ : ¬ "*/".toList <:+: body) :
    (ofText .css ("/*".toList ++ (body ++ "*/".toList))).comments =
      [⟨"/*".toList ++ (body ++ "*/".toList),
        .covering .start ("/*".toList ++ (body ++ "*/".toList))⟩] := by
  have goes : ∀ back, back <:+ body → back ≠ [] →
      ¬ "*/".toList <+: back ++ ("*/".toList ++ []) := by
    intro back ends some_
    exact sign_goes (by decide) (fun inside => open_ (inside.trans ends.isInfix)) some_
  have through := extentThrough_append "*/".toList (by decide) goes
  rw [List.append_nil] at through
  have lexeme : Css.lexemeAt '/' ('*' :: (body ++ "*/".toList)) =
      (.comment, 2 + (body.length + "*/".toList.length)) := by
    have plain : isBlank '/' = false := by decide
    have leads : "/*".toList.isPrefixOf ('/' :: '*' :: (body ++ "*/".toList)) = true := rfl
    have inside : ('/' :: '*' :: (body ++ "*/".toList)).drop 2 = body ++ "*/".toList := rfl
    rw [Css.lexemeAt, if_neg (by rw [plain]; nofun), if_pos leads, inside, through]
  have scanned : Css.scan true '/' ('*' :: (body ++ "*/".toList)) =
      ⟨.comment, ('*' :: (body ++ "*/".toList)).length, false⟩ := by
    have extent : 2 + (body.length + "*/".toList.length) - 1 =
        ('*' :: (body ++ "*/".toList)).length := by
      rw [List.length_cons, List.length_append]
      omega
    rw [Css.scan, if_neg (by decide), lexeme]
    exact congrArg (fun more => (⟨.comment, more, false⟩ : Css.Cut)) extent
  have tokens : Css.tokenize ("/*".toList ++ (body ++ "*/".toList)) .start =
      [⟨.comment, "/*".toList ++ (body ++ "*/".toList),
        .covering .start ("/*".toList ++ (body ++ "*/".toList))⟩] := by
    have written : "/*".toList ++ (body ++ "*/".toList) = '/' :: '*' :: (body ++ "*/".toList) := rfl
    rw [written, Css.tokenize, Css.lexemes, cut_cons, scanned, List.take_length, List.drop_length,
      cut_nil]
    rfl
  show ((Css.tokenize _ .start).filter _).map _ = _
  rw [tokens]
  rfl

end Document

open Directive in
/-- **Directives mean what their grammar says.** A rule, other than the ids that stand for faults,
is silent on a line of a document if and only if a comment of the document has the form of a
directive, names the rule or all rules, and reaches the line. A comment is read as a directive if
and only if it has the form of it; and a directive that is written down as a comment, with either
mark before its reason, is the one that the document which is that comment holds. -/
theorem suppressions_follow_grammar :
    (∀ (language : Language) (text : List Char) (id : String) (line : Nat),
      id ≠ parseErrorId → id ≠ ruleFailureId →
        ((Suppressions.ofDocument (.ofText language text)).isSuppressed id line ↔
          ∃ c ∈ (Document.ofText language text).comments, c.Silences id line)) ∧
      (∀ (comment : List Char) (d : Directive), parse? comment = some d ↔ d.Form comment) ∧
      ∀ (language : Language) (mark : List Char) (d : Directive),
        mark ∈ words [": ", " -- "] → d.Plain →
          (Document.ofText language (d.write language mark)).comments.map (parse? ·.text) =
            [some d] := by
  refine ⟨?_, fun comment d => parse?_eq_some_iff, ?_⟩
  · intro language text id line notError notFailure
    have unreserved : isReserved id = false := by
      rw [isReserved, beq_false_of_ne notError, beq_false_of_ne notFailure]
      rfl
    exact Suppressions.isSuppressed_iff unreserved line
  · intro language mark d known plain
    have comments : ∃ span, (Document.ofText language (d.write language mark)).comments =
        [⟨d.write language mark, span⟩] := by
      have open_ := open_body language known plain
      cases language with
      | html => exact ⟨_, Document.comments_ofText_html open_⟩
      | css => exact ⟨_, Document.comments_ofText_css open_⟩
    obtain ⟨span, comments⟩ := comments
    rw [comments, List.map_singleton, (form_write language known plain).parse?]

/-- Ids that end in `-`, next to the mark of a reason. -/
def dashed : Directive where
  kind := .nextLine
  ids := ["zero-unit".toList, "a-".toList]
  reason := some "- - a reason".toList

theorem suppressions_follow_grammar_dashed :
    (Directive.write .css " -- " dashed =
        "/* frost-disable-next-line zero-unit, a- -- - - a reason */".toList ∧
      " -- ".toList ∈ words [": ", " -- "] ∧ dashed.Plain ∧
      (Document.ofText .css (dashed.write .css " -- ")).comments.map (Directive.parse? ·.text) =
        [some dashed]) ∧
      "zero-unit" ≠ parseErrorId ∧ "zero-unit" ≠ ruleFailureId ∧
      ((Suppressions.ofDocument (.ofText .css (dashed.write .css " -- "))).isSuppressed
          "zero-unit" 2 ↔
        ∃ c ∈ (Document.ofText .css (dashed.write .css " -- ")).comments,
          c.Silences "zero-unit" 2) := by
  have plain : dashed.Plain := by
    refine ⟨by decide, ?_, by decide, ?_⟩
    · intro id member
      simp only [dashed, List.mem_cons, List.not_mem_nil, or_false] at member
      rcases member with rfl | rfl
      · exact ⟨by decide, List.all_eq_true.mp rfl⟩
      · exact ⟨by decide, List.all_eq_true.mp rfl⟩
    · rintro r ⟨⟩ language
      cases language <;> decide
  have known : " -- ".toList ∈ words [": ", " -- "] := by decide
  have meaning := suppressions_follow_grammar
  exact ⟨⟨by decide, known, plain, meaning.2.2 .css " -- " dashed known plain⟩,
    by decide, by decide, meaning.1 .css _ "zero-unit" 2 (by decide) (by decide)⟩

end PageLint
