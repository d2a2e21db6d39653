/-
# PageLint.Proofs.Css.Importance — what a declaration reads off its value

The value of a declaration runs to the first `;` or `}` outside all brackets and braces (`IsValue`,
`isValue_valueExtent`). `Marked` says that the last two of its tokens that are no trivia are a `!` and
`important`, whatever trivia stands between them. A declaration is important just if its value is
marked with at most one token of trivia in the mark, and its value is what is left without the mark
(`Sheet.importance_read`). A mark with more trivia in it is not seen, and is read as part of the value
(`Sheet.long_mark_unseen`).
-/
import PageLint.Proofs.Css.Making
import PageLint.Proofs.Css.Segments

namespace PageLint.Css

set_option autoImplicit false

open Text

variable {v after front inner value : Tokens} {sign word t : Token TokenKind}

/-! ## Where a value ends -/

/-- Opens a bracket or a brace of a value. -/
def opensInValue (t : Token TokenKind) : Bool := opensBracket t || t.kind == .braceOpen

/-- Closes one. -/
def closesInValue (t : Token TokenKind) : Bool := closesBracket t || t.kind == .braceClose

/-- **`v` is the value that stands before `after`**: outside brackets and braces, `depth` of which are
open before it, it holds neither `;` nor `}`, and what follows begins with one of these, outside all of
them, unless the tokens end. -/
structure IsValue (depth : Nat) (v after : Tokens) : Prop where
  goesOn : ∀ front t back, v = front ++ t :: back →
    depthAfter opensInValue closesInValue depth front = 0 →
    t.kind ≠ .semicolon ∧ t.kind ≠ .braceClose
  ends : ∀ t ∈ after.head?, depthAfter opensInValue closesInValue depth v = 0 ∧
    (t.kind = .semicolon ∨ t.kind = .braceClose)

/-- One more token before a value, which does not end it. -/
theorem IsValue.cons {depth : Nat} (stays : depth = 0 → t.kind ≠ .semicolon ∧ t.kind ≠ .braceClose)
    (isValue : IsValue (if opensInValue t then depth + 1 else if closesInValue t then depth - 1
      else depth) v after) : IsValue depth (t :: v) after where
  goesOn := by
    intro front u back split none_
    rcases List.cons_eq_append_iff.mp split with ⟨rfl, here⟩ | ⟨front, rfl, later⟩
    · obtain ⟨rfl, -⟩ := List.cons.inj here
      exact stays none_
    · exact isValue.goesOn front u back later none_
  ends := isValue.ends

/-- **A value reaches to its end**, which the scan finds. -/
theorem isValue_valueExtent (depth : Nat) (ts : Tokens) :
    IsValue depth (ts.take (valueExtent depth ts)) (ts.drop (valueExtent depth ts)) := by
  fun_induction valueExtent depth ts with
  | case1 => exact ⟨by simp, by simp⟩
  | case2 depth t ts opens ih =>
      have level : opensInValue t = true := opens
      refine IsValue.cons (fun _ => ?_) (by rwa [if_pos level])
      constructor <;> rintro kind <;> simp [opensBracket, kind] at opens
  | case3 depth t ts opens closes ih =>
      have level : opensInValue t = false := Bool.eq_false_of_not_eq_true opens
      refine IsValue.cons (fun _ => ?_) (by rwa [level, if_neg Bool.false_ne_true,
        if_pos (by rw [closesInValue, closes, Bool.true_or])])
      constructor <;> rintro kind <;> simp [closesBracket, kind] at closes
  | case4 t ts opens closes kind =>
      refine ⟨by simp, ?_⟩
      rintro e ⟨⟩
      exact ⟨rfl, .inr kind⟩
  | case5 t ts opens closes kind depth ih =>
      have level : opensInValue t = false := Bool.eq_false_of_not_eq_true opens
      refine IsValue.cons (fun none_ => absurd none_ (Nat.succ_ne_zero _)) ?_
      rwa [level, if_neg Bool.false_ne_true, if_pos (by simp [closesInValue, kind])]
  | case6 depth t ts opens closes kind semicolon =>
      obtain ⟨semicolon, rfl⟩ := semicolon
      refine ⟨by simp, ?_⟩
      rintro e ⟨⟩
      exact ⟨rfl, .inl semicolon⟩
  | case7 depth t ts opens closes kind semicolon ih =>
      have level : opensInValue t = false := Bool.eq_false_of_not_eq_true opens
      refine IsValue.cons (fun none_ => ⟨fun same => semicolon ⟨same, none_⟩, kind⟩) ?_
      rwa [level, if_neg Bool.false_ne_true,
        if_neg (by simpa [closesInValue, kind] using closes)]

/-! ## Marks of importance -/

/-- **The last two tokens of `v` that are no trivia mark it as important**: they are a `!`, `front`
before it, and the word `important`, in any case, with the trivia `inner` between them. -/
structure Marked (v front inner : Tokens) (sign word : Token TokenKind) : Prop where
  whole : ∃ tail, v = front ++ sign :: (inner ++ word :: tail) ∧ ∀ t ∈ tail, isTrivia t
  inside : ∀ t ∈ inner, isTrivia t
  sign : sign.kind = .delim ∧ sign.text = ['!']
  word : word.kind = .ident ∧ sameIgnoringCase word.text "important"

/-- Where a `!` stands by itself it is a sign. -/
def Signed (ts : Tokens) : Prop := ∀ t ∈ ts, t.text = ['!'] → t.kind = .delim

theorem lexemeAt_exclamation (rest : List Char) : lexemeAt '!' rest = (.delim, 1) := rfl

theorem cut_exclamation (atHead : Bool) (text : List Char) :
    ∀ piece ∈ cut scan atHead text, piece.text = ['!'] → piece.kind = .delim := by
  fun_induction cut scan atHead text with
  | case1 => simp
  | case2 atHead c rest s ih =>
      refine List.forall_mem_cons.mpr ⟨fun alone => ?_, ih⟩
      obtain ⟨rfl, -⟩ := List.cons.inj alone
      simp only [s, scan, lexemeAt_exclamation]
      rw [if_neg (by simp)]

theorem signed_tokenize (cs : List Char) (origin : Position) : Signed (tokenize cs origin) :=
  fun _ member => cut_exclamation true cs _ (mem_of_mem_locate member)

/-- **A mark with at most one token of trivia in it is taken off.** -/
theorem splitImportant_marked (marked : Marked v front inner sign word) (short : inner.length ≤ 1) :
    splitImportant (trimTrivia v) =
      (trimTrivia front, some ⟨sign.span.start, word.span.finish⟩) := by
  obtain ⟨tail, rfl, trivia⟩ := marked.whole
  have isWord : isImportantWord word := by
    rw [isImportantWord, marked.word.1, marked.word.2]
    rfl
  have isSign : (sign.kind == .delim && sign.text == ['!']) = true := by
    rw [marked.sign.1, marked.sign.2]
    rfl
  have again : trimTrivia (front.dropWhile isTrivia) = trimTrivia front := by
    rw [trimTrivia, trimTrivia, List.dropWhile_idempotent]
  rw [trimTrivia_concat (by simp [isTrivia, marked.sign.1]) (by simp [isTrivia, marked.word.1]) trivia]
  rcases inner with _ | ⟨space, _ | ⟨other, more⟩⟩
  · simp [splitImportant, isWord, isSign, again]
  · have own : isTrivia space := marked.inside space (by simp)
    have isSpace : (space.kind == .delim) = false := by
      rcases Bool.or_eq_true_iff.mp own with kind | kind <;> simp [eq_of_beq kind]
    simp [splitImportant, isWord, isSpace, own, marked.sign.2, again]
  · exact absurd short (by simp)

/-- What is found to be a mark is one, and it is short. -/
theorem marked_of_splitImportant {s : Span} (signed : Signed value)
    (found : (splitImportant value).2 = some s) : ∃ front inner sign word,
      value = front ++ sign :: (inner ++ [word]) ∧ inner.length ≤ 1 ∧ (∀ t ∈ inner, isTrivia t) ∧
        sign.text = ['!'] ∧ sign.kind = .delim ∧ isImportantWord word := by
  have whole : value.reverse.reverse = value := List.reverse_reverse value
  rw [splitImportant] at found
  split at found
  · cases found
  next word before reversed =>
    rw [reversed] at whole
    split at found
    · cases found
    next isWord =>
      have isWord : isImportantWord word := by simpa using isWord
      split at found
      · cases found
      next bang front =>
        simp only [List.reverse_cons, List.append_assoc, List.singleton_append] at whole
        split at found
        next isSign =>
          rw [Bool.and_eq_true, beq_iff_eq, beq_iff_eq] at isSign
          exact ⟨front.reverse, [], bang, word, whole.symm, by simp, by simp, isSign.2, isSign.1,
            isWord⟩
        split at found
        · cases found
        next sign front =>
          simp only [List.reverse_cons, List.append_assoc, List.singleton_append] at whole
          split at found
          next parts =>
            rw [Bool.and_eq_true, beq_iff_eq] at parts
            have kind := signed sign (by simp [← whole]) parts.2
            exact ⟨front.reverse, [bang], sign, word, whole.symm, by simp, by simpa using parts.1,
              parts.2, kind, isWord⟩
          · cases found

/-- What is not marked is left as it is. -/
theorem splitImportant_of_none (none_ : (splitImportant value).2 = none) :
    (splitImportant value).1 = value := by
  rw [splitImportant] at none_ ⊢
  split at none_
  · rfl
  split at none_
  next other => rw [if_pos other]
  next isWord =>
    rw [if_neg isWord]
    split at none_
    · rfl
    split at none_
    · cases none_
    next unsigned =>
      rw [if_neg unsigned]
      split at none_
      · rfl
      split at none_
      · cases none_
      next other => rw [if_neg other]

/-- **A value is found to be important just if it is marked**, with at most one token of trivia in the
mark. -/
theorem splitImportant_isSome (signed : Signed v) : (splitImportant (trimTrivia v)).2.isSome ↔
    ∃ front inner sign word, Marked v front inner sign word ∧ inner.length ≤ 1 := by
  constructor
  · intro found
    obtain ⟨s, found⟩ := Option.isSome_iff_exists.mp found
    have within : Signed (trimTrivia v) := fun t member =>
      signed t ((trimTrivia_sublist v).subset member)
    obtain ⟨front, inner, sign, word, split, short, inside, text, kind, isWord⟩ :=
      marked_of_splitImportant within found
    obtain ⟨lead, tail, whole, -, trivia⟩ := (trims_trimTrivia v).around
    rw [isImportantWord, Bool.and_eq_true, beq_iff_eq] at isWord
    refine ⟨lead ++ front, inner, sign, word,
      ⟨⟨tail, ?_, trivia⟩, inside, ⟨kind, text⟩, isWord⟩, short⟩
    rw [split] at whole
    simpa using whole
  · rintro ⟨front, inner, sign, word, marked, short⟩
    rw [splitImportant_marked marked short]
    rfl

/-! ## Declarations -/

/-- What a declaration reads off the tokens `v` of its value. -/
structure Declaration.Values (d : Declaration) (v : Tokens) : Prop where
  /-- It is important just if a short mark ends its value. -/
  important : d.important.isSome ↔
    ∃ front inner sign word, Marked v front inner sign word ∧ inner.length ≤ 1
  /-- Then it keeps what stands before the mark, trimmed. -/
  marked : ∀ front inner sign word, Marked v front inner sign word → inner.length ≤ 1 →
    d.important = some ⟨sign.span.start, word.span.finish⟩ ∧ Trims front d.valueTokens
  /-- Else it keeps all, trimmed. -/
  plain : d.important = none → Trims v d.valueTokens
  text : d.value = textOf d.valueTokens

theorem values_splitImportant {d : Declaration} (signed : Signed v)
    (read : (d.valueTokens, d.important) = splitImportant (trimTrivia v))
    (text : d.value = textOf d.valueTokens) : d.Values v where
  important := by
    rw [← splitImportant_isSome signed, ← read]
  marked := by
    intro front inner sign word marked short
    rw [splitImportant_marked marked short] at read
    obtain ⟨kept, mark⟩ := Prod.mk.inj read
    exact ⟨mark, trims_iff.mpr kept.symm⟩
  plain := by
    intro none_
    have nothing : (splitImportant (trimTrivia v)).2 = none := by rw [← read, none_]
    exact trims_iff.mpr ((splitImportant_of_none nothing).symm.trans (congrArg Prod.fst read).symm)
  text := text

/-- A declaration is read off the tokens `ts`: off a property, a colon and a value with what ends it. -/
def Declaration.ReadOff (ts : Tokens) (d : Declaration) : Prop :=
  ∃ before property gap colon v after,
    ts = before ++ property :: (gap ++ colon :: (v ++ after)) ∧
      (property.kind = .ident ∧ property.text = d.property ∧ property.span = d.propertySpan) ∧
      (∀ t ∈ gap, isTrivia t) ∧ (colon.kind = .colon ∧ colon.span = d.colon) ∧
      IsValue 0 v after ∧ d.Values v

theorem readOff_of_read {ts rest : Tokens} {property : Token TokenKind} {d : Declaration} {n : Nat}
    (signed : Signed ts) (within : property :: rest <:+ ts)
    (read : Declaration.read? property rest = some (d, n)) : d.ReadOff ts := by
  obtain ⟨before, rfl⟩ := within
  simp only [Declaration.read?] at read
  split at read
  · cases read
  next colon after left =>
    split at read
    next kinds =>
      obtain ⟨rfl, -⟩ := Prod.mk.inj (Option.some.inj read)
      have parts : rest.takeWhile isTrivia ++ colon :: after = rest := by
        rw [← left, drop_length_takeWhile, List.takeWhile_append_dropWhile]
      have inside : Signed (after.take (valueExtent 0 after)) := fun t member =>
        signed t (List.mem_append_right _ (List.mem_cons_of_mem _ (parts ▸ List.mem_append_right _
          (List.mem_cons_of_mem _ (List.mem_of_mem_take member)))))
      refine ⟨before, property, rest.takeWhile isTrivia, colon, after.take (valueExtent 0 after),
        after.drop (valueExtent 0 after), ?_, ⟨kinds.1, rfl, rfl⟩,
        fun t member => List.mem_takeWhile_imp member, ⟨kinds.2, rfl⟩, isValue_valueExtent 0 after,
        values_splitImportant inside rfl rfl⟩
      rw [List.take_append_drop, parts]
    · cases read

theorem makes_readOff {ts : Tokens} (signed : Signed ts) (told : List Issue) :
    Makes ts told fun | .cssDeclaration d => d.ReadOff ts | _ => True where
  comment _ _ _ := trivial
  declaration _ _ _ _ within read := readOff_of_read signed within read
  style _ _ _ _ _ _ _ := trivial
  atRule _ _ _ _ _ _ _ := trivial
  block _ _ := trivial
  items _ _ := trivial

/-- **Importance is read off the end of a value.** Every declaration of a stylesheet stands in it as a
property, a colon and a value up to the `;`, the `}` or the end that ends it. It is important just if
the last two tokens of the value that are no trivia are a `!` and `important` with at most one token of
trivia between them. Then it keeps what stands before these, trimmed, and else the whole value,
trimmed. -/
theorem Sheet.importance_read {cs : List Char} {origin : Position} {d : Declaration}
    (found : .cssDeclaration d ∈ (Sheet.ofText cs origin).subjects) :
    d.ReadOff (tokenize cs origin) :=
  Sheet.forall_subjects (makes_readOff (signed_tokenize cs origin) _) _ found

/-- The declarations of the rules that lie in no other. -/
def Sheet.styleDeclarations (sheet : Sheet) : List Declaration :=
  sheet.items.flatMap fun | .style rule => rule.block.declarations | _ => []

theorem Sheet.mem_subjects_of_style {sheet : Sheet} {d : Declaration}
    (member : d ∈ sheet.styleDeclarations) : .cssDeclaration d ∈ sheet.subjects := by
  obtain ⟨item, inSheet, inside⟩ := List.mem_flatMap.mp member
  cases item with
  | style rule =>
      refine List.mem_cons_of_mem _ (mem_itemsSubjects.mpr ⟨_, inSheet, ?_⟩)
      rw [Item.subjects]
      exact List.mem_cons_of_mem _ (mem_blockSubjects.mpr (.inr (.inl ⟨d, inside, rfl⟩)))
  | _ => cases inside

/-- A mark in capitals with comments around it and in it, behind a value with a mark of its own; and a
custom property with a `;` in braces, whose last words are no mark. -/
theorem Sheet.importance_read_each :
    let text := "a\x7bb:c !important d/**/!/**/IMPORTANT /**/;--e:\x7bf:g;\x7d! h\x7d".toList
    (∃ d, .cssDeclaration d ∈ (Sheet.ofText text .start).subjects ∧ d.important.isSome ∧
      String.ofList d.value = "c !important d" ∧ d.ReadOff (tokenize text .start)) ∧
    ∃ d, .cssDeclaration d ∈ (Sheet.ofText text .start).subjects ∧ d.important = none ∧
      String.ofList d.value = "\x7bf:g;\x7d! h" ∧ d.ReadOff (tokenize text .start) := by
  intro text
  have both : (Sheet.ofText text .start).styleDeclarations.map (fun d =>
      (d.important.isSome, String.ofList d.value)) =
        [(true, "c !important d"), (false, "\x7bf:g;\x7d! h")] := by decide +kernel
  obtain ⟨d, e, two⟩ := List.length_eq_two.mp (by simpa using congrArg List.length both)
  rw [two] at both
  simp only [List.map_cons, List.map_nil, List.cons.injEq, Prod.mk.injEq, and_true] at both
  have first := Sheet.mem_subjects_of_style (two ▸ List.mem_cons_self)
  have second := Sheet.mem_subjects_of_style (two ▸ List.mem_cons_of_mem d List.mem_cons_self)
  refine ⟨⟨d, first, both.1.1, both.1.2, Sheet.importance_read first⟩, e, second, ?_, both.2.2,
    Sheet.importance_read second⟩
  simpa using both.2.1

/-- **A mark with a blank and a comment in it is not seen**: the declaration is not important, and the
mark is part of its value. -/
theorem Sheet.long_mark_unseen :
    let text := "a\x7bb:c! /**/important\x7d".toList
    ∃ before v after front inner sign word, tokenize text .start = before ++ (v ++ after) ∧
      IsValue 0 v after ∧ Marked v front inner sign word ∧ front ≠ [] ∧
      ∃ d, .cssDeclaration d ∈ (Sheet.ofText text .start).subjects ∧ d.important = none ∧
        d.valueTokens = v := by
  intro text
  have value : (tokenize text .start).drop 4 = ((tokenize text .start).drop 4).take 5 ++
      (tokenize text .start).drop 9 := by decide +kernel
  have one : (Sheet.ofText text .start).styleDeclarations.map (fun d =>
      (d.important, d.valueTokens)) = [(none, ((tokenize text .start).drop 4).take 5)] := by
    decide +kernel
  obtain ⟨d, only, read⟩ := List.map_eq_singleton_iff.mp one
  obtain ⟨none_, kept⟩ := Prod.mk.inj read
  have extent : valueExtent 0 ((tokenize text .start).drop 4) = 5 := by decide +kernel
  have isValue := isValue_valueExtent 0 ((tokenize text .start).drop 4)
  rw [extent, List.drop_drop] at isValue
  refine ⟨(tokenize text .start).take 4, _, _, [⟨.ident, "c".toList, ⟨⟨4, 1, 5⟩, ⟨5, 1, 6⟩⟩⟩],
    [⟨.blank, " ".toList, ⟨⟨6, 1, 7⟩, ⟨7, 1, 8⟩⟩⟩,
      ⟨.comment, "/**/".toList, ⟨⟨7, 1, 8⟩, ⟨11, 1, 12⟩⟩⟩],
    ⟨.delim, "!".toList, ⟨⟨5, 1, 6⟩, ⟨6, 1, 7⟩⟩⟩,
    ⟨.ident, "important".toList, ⟨⟨11, 1, 12⟩, ⟨20, 1, 21⟩⟩⟩, ?_, isValue, ⟨⟨[], ?_, by simp⟩, by decide, by decide, by decide⟩, by simp, d, ?_, none_, kept⟩
  · rw [← value, List.take_append_drop]
  · decide +kernel
  · exact Sheet.mem_subjects_of_style (only ▸ List.mem_singleton_self d)

end PageLint.Css
