/-
# PageLint.Proofs.Css.Indents — spacing at the beginning of a line

What stands at the beginning of a line is read in one go with the line feed in front of it: as white space,
inside a comment, in a string that goes on, or in an address without quotes. None of these ends there, and
none of them cares for how many spaces or tabs stand there (`exists_lexemeAt_past`). So with another indent
a stylesheet has the same lexemes but for that one, which has the same kind (`exists_cut_past`). At the
beginning of the text there is no line feed, and where the last spacing is taken away, a byte order mark may
come to stand first.

No line feed comes or goes with an indent, so comments begin and end on the lines on which they did
(`continuations_reindented`).
-/
import PageLint.Proofs.Css.Addresses
import PageLint.Proofs.Css.Quoted
import PageLint.Proofs.Css.Words
import PageLint.Proofs.Text.Lines
import PageLint.Lint.Document

namespace PageLint

set_option autoImplicit false

open Text

namespace Text

variable {close v w z : List Char} {p : Char → Bool}

/-! ## Measures that go past a text -/

/-- Spaces and tabs. -/
def IsIndent (s : List Char) : Prop := ∀ c ∈ s, c = ' ' ∨ c = '\t'

theorem isIndent_nil : IsIndent [] := fun _ member => absurd member List.not_mem_nil

theorem IsIndent.blank {s : List Char} (indent : IsIndent s) : ∀ c ∈ s, isBlank c := by
  intro c member
  rcases indent c member with rfl | rfl <;> decide

theorem IsIndent.newline_notMem {s : List Char} (indent : IsIndent s) : '\n' ∉ s := by
  intro member
  rcases indent _ member with same | same <;> cases same

theorem extentWhile_append_all (inside : ∀ c ∈ v, p c) (z : List Char) :
    extentWhile p (v ++ z) = v.length + extentWhile p z := by
  rw [extentWhile, List.takeWhile_append_of_pos inside, List.length_append, extentWhile]

/-- A run that goes past a text takes in all of it. -/
theorem forall_of_extentWhile (past : v.length < extentWhile p (v ++ z)) : ∀ c ∈ v, p c := by
  induction v with
  | nil => simp
  | cons c v ih =>
      by_cases holds : p c
      · rw [List.cons_append, extentWhile_cons holds, List.length_cons] at past
        exact List.forall_mem_cons.mpr ⟨holds, ih (by omega)⟩
      · simp [extentWhile, holds] at past

/-- What closes within a text is measured within it. -/
theorem not_infix_of_extentThrough (past : v.length < extentThrough close (v ++ z)) :
    ¬ close <:+: v := by
  induction v with
  | nil =>
      intro closes
      obtain rfl := List.infix_nil.mp closes
      cases z <;> simp [extentThrough] at past
  | cons c v ih =>
      intro closes
      have short := closes.length_le
      rw [List.cons_append, extentThrough] at past
      split at past
      next => omega
      next opens =>
        rw [List.length_cons] at past
        rcases List.infix_cons_iff.mp closes with leads | inside
        · refine opens (List.isPrefixOf_iff_prefix.mpr ?_)
          exact leads.trans (List.prefix_append (c :: v) z)
        · exact ih (by omega) inside

/-- A closing mark does not begin in a text that does not hold it, if what follows has none of its
characters. -/
theorem not_prefix_of_foreign (some_ : w ≠ []) (open_ : ¬ close <:+: v) (foreign : ∀ c ∈ w, c ∉ close)
    (z : List Char) : ¬ close <+: v ++ (w ++ z) := by
  intro leads
  by_cases short : close.length ≤ v.length
  · exact open_ (List.prefix_of_prefix_length_le leads (List.prefix_append _ _) short).isInfix
  · obtain ⟨more, rfl⟩ := List.prefix_of_prefix_length_le (List.prefix_append v _) leads
      (Nat.le_of_not_le short)
    rw [List.prefix_append_right_inj] at leads
    cases more with
    | nil => simp at short
    | cons d more =>
        obtain ⟨e, w, rfl⟩ := List.exists_cons_of_ne_nil some_
        obtain rfl := (List.cons_prefix_cons.mp leads).1
        exact foreign d List.mem_cons_self (by simp)

/-- A closing mark is looked for past what does not hold it and what has none of its characters. -/
theorem extentThrough_past (some_ : w ≠ []) (open_ : ¬ close <:+: v) (foreign : ∀ c ∈ w, c ∉ close)
    (mark : close ≠ []) (z : List Char) :
    extentThrough close (v ++ (w ++ z)) = v.length + w.length + extentThrough close z := by
  induction v with
  | nil =>
      clear some_ open_
      induction w with
      | nil => simp
      | cons c w ih =>
          have goes : ¬ close.isPrefixOf (c :: (w ++ z)) := by
            rw [List.isPrefixOf_iff_prefix]
            intro leads
            obtain ⟨d, close, rfl⟩ := List.exists_cons_of_ne_nil mark
            obtain rfl := (List.cons_prefix_cons.mp leads).1
            exact foreign d List.mem_cons_self List.mem_cons_self
          have later := ih fun c member => foreign c (List.mem_cons_of_mem _ member)
          simp only [List.nil_append, List.length_nil, Nat.zero_add, List.length_cons] at later ⊢
          rw [List.cons_append, extentThrough, if_neg goes, later]
          omega
  | cons c v ih =>
      have goes : ¬ close.isPrefixOf (c :: (v ++ (w ++ z))) := by
        rw [List.isPrefixOf_iff_prefix]
        exact not_prefix_of_foreign some_ open_ foreign z
      have later := ih fun inside => open_ (inside.trans (List.suffix_cons c v).isInfix)
      rw [List.cons_append, extentThrough, if_neg goes, later, List.length_cons]
      omega

end Text

namespace Css

variable {c q : Char} {n : Nat} {front s s' v z y : List Char}

/-! ## Lexemes that go past a line feed -/

/-- White space after a text does not change what comes first in it. -/
theorem head?_trimStart_past (indent : IsIndent s) (v z : List Char) :
    (trimStart (v ++ '\n' :: (s ++ z))).head? = (trimStart (v ++ z)).head? := by
  have blank : ∀ c ∈ '\n' :: s, isBlank c := List.forall_mem_cons.mpr ⟨by decide, indent.blank⟩
  have skipped := trimStart_blanks blank z
  rw [List.cons_append] at skipped
  simp only [trimStart, trimStartBy, List.dropWhile_append] at skipped ⊢
  split
  next => rw [skipped]
  next some_ =>
    obtain ⟨d, w, left⟩ : ∃ d w, v.dropWhile isBlank = d :: w := by
      cases left : v.dropWhile isBlank with
      | nil => simp [left] at some_
      | cons d w => exact ⟨d, w, rfl⟩
    rw [left]
    rfl

/-- A string that goes on past a line feed does so because of what stands in front. -/
theorem stringExtent_past (quote : isQuote q) : ∀ v : List Char,
    v.length < (stringExtent q (v ++ '\n' :: y)).1 → ∀ y' : List Char,
      stringExtent q (v ++ '\n' :: y') =
        (v.length + 1 + (stringExtent q y').1, (stringExtent q y').2)
  | [], past, _ => by
      rw [List.nil_append, stringExtent_feed] at past
      cases past
  | c :: v, past, y' => by
      rw [List.cons_append] at past ⊢
      by_cases feed : c = '\n'
      · rw [feed, stringExtent_feed] at past
        cases past
      by_cases escape : c = '\\'
      · subst escape
        match v, past with
        | [], past =>
            rw [List.nil_append, stringExtent_escape, List.length_singleton]
            exact Prod.ext (by dsimp only; omega) rfl
        | d :: v, past =>
            simp only [List.cons_append, stringExtent_escape, List.length_cons] at past ⊢
            rw [stringExtent_past quote v (by omega) y']
            exact Prod.ext (by dsimp only; omega) rfl
      by_cases closes : c = q
      · rw [closes, stringExtent_close quote, List.length_cons] at past
        dsimp only at past
        omega
      · rw [stringExtent_plain feed escape closes, List.length_cons] at past
        rw [stringExtent_plain feed escape closes, List.length_cons,
          stringExtent_past quote v (by dsimp only at past; omega) y']
        exact Prod.ext (by dsimp only; omega) rfl

theorem stringExtent_indent (quote : isQuote q) (indent : IsIndent s) (z : List Char) :
    stringExtent q (s ++ z) = (s.length + (stringExtent q z).1, (stringExtent q z).2) := by
  induction s with
  | nil => simp
  | cons c s ih =>
      obtain ⟨own, others⟩ := List.forall_mem_cons.mp indent
      have plain : c ≠ '\n' ∧ c ≠ '\\' ∧ c ≠ q := by
        rcases own with rfl | rfl <;> exact ⟨by decide, by decide, by rintro rfl; cases quote⟩
      rw [List.cons_append, stringExtent_plain plain.1 plain.2.1 plain.2.2, ih others, List.length_cons]
      exact Prod.ext (by dsimp only; omega) rfl

/-- The lexemes that may go over several lines. -/
def isLongKind : TokenKind → Bool
  | .blank | .comment | .string | .badString | .url => true
  | _ => false

/-- **Other lexemes lie on one line.** The cases are those of the lexer. -/
theorem newline_notMem_of_not_isLongKind {rest : List Char} (short : isLongKind (lexemeAt c rest).1 = false) :
    '\n' ∉ (c :: rest).take (lexemeAt c rest).2 := by
  by_cases word : isWordKind (lexemeAt c rest).1
  · exact newline_notMem_lexemeAt word
  have prefixed : ∀ sign : List Char, sign.isPrefixOf (c :: rest) → '\n' ∉ sign →
      '\n' ∉ (c :: rest).take sign.length := by
    intro sign leads plain
    rwa [← List.prefix_iff_eq_take.mp (List.isPrefixOf_iff_prefix.mp leads)]
  revert short word
  simp only [lexemeAt]
  split
  next => rintro ⟨⟩
  next solid =>
  split
  next => rintro ⟨⟩
  split
  next leads => exact fun _ _ => prefixed _ leads (by decide)
  split
  next leads => exact fun _ _ => prefixed _ leads (by decide)
  split
  next => exact fun _ _ => newline_notMem_numeric (c :: rest)
  split
  next =>
    rw [identLike_eq]
    have name := newline_notMem_nameExtent (c :: rest)
    split
    next paren =>
      have function : '\n' ∉ (c :: rest).take (nameExtent (c :: rest) + 1) :=
        notMem_take_add name (newline_notMem_take_one paren (by decide))
      split
      · split
        · exact fun _ _ => function
        · rintro ⟨⟩
      · exact fun _ _ => function
    next => exact fun _ _ => name
  split
  next => split <;> rintro ⟨⟩
  split
  next => exact fun _ word => absurd rfl word
  split
  next => exact fun _ word => absurd rfl word
  next =>
    intro _ _
    have other : c ≠ '\n' := by
      rintro rfl
      exact solid (by decide)
    simpa using Ne.symm other

theorem newline_mem_take {n : Nat} (past : v.length + 1 < n) (z : List Char) :
    '\n' ∈ (c :: (v ++ '\n' :: z)).take n := by
  rw [← List.cons_append, List.take_append]
  refine List.mem_append_right _ ?_
  obtain ⟨n, more⟩ := Nat.exists_eq_succ_of_ne_zero (show n - (c :: v).length ≠ 0 by
    rw [List.length_cons]; omega)
  rw [more]
  exact List.mem_cons_self

/-- The lexeme at `c` goes on past `v` and the line feed behind it, whichever indent comes next. -/
def GoesPast (c : Char) (v z : List Char) : Prop :=
  ∃ kind more, ∀ s, IsIndent s →
    lexemeAt c (v ++ '\n' :: (s ++ z)) = (kind, v.length + 2 + s.length + more)

theorem goesPast_blank (blank : isBlank c)
    (past : v.length + 1 < (lexemeAt c (v ++ '\n' :: z)).2) : GoesPast c v z := by
  rw [lexemeAt, if_pos blank, ← List.cons_append] at past
  have all := forall_of_extentWhile (v := c :: v) (by simpa using past)
  refine ⟨.blank, extentWhile isBlank z, fun s indent => ?_⟩
  have inside : ∀ d ∈ c :: v ++ '\n' :: s, isBlank d := by
    intro d member
    rcases List.mem_append.mp member with front | back
    · exact all d front
    · exact List.forall_mem_cons.mpr ⟨by decide, indent.blank⟩ d back
  have whole : c :: (v ++ '\n' :: (s ++ z)) = (c :: v ++ '\n' :: s) ++ z := by simp
  rw [lexemeAt, if_pos blank, whole, extentWhile_append_all inside]
  simp only [List.length_append, List.length_cons]
  exact Prod.ext rfl (by dsimp only; omega)

theorem lexemeAt_comment (rest : List Char) :
    lexemeAt '/' ('*' :: rest) = (.comment, 2 + extentThrough "*/" rest) := by
  simp [lexemeAt, isBlank, List.isPrefixOf]

theorem goesPast_comment (kind : (lexemeAt c (v ++ '\n' :: z)).1 = .comment)
    (past : v.length + 1 < (lexemeAt c (v ++ '\n' :: z)).2) : GoesPast c v z := by
  obtain rfl := eq_slash_of_comment (Prod.ext kind rfl)
  -- A `/` that is a comment has a `*` behind it, and that is no line feed.
  obtain ⟨w, star⟩ : ['*'] <+: v ++ '\n' :: z := by
    by_contra plain
    simp [lexemeAt, isBlank, List.isPrefixOf, startsNumber, startsUnsigned, startsDigit, startsIdent,
      isNameStart, startsEscape, isQuote, signKind, isControl, plain] at kind
  obtain ⟨v, rfl⟩ : ∃ v', v = '*' :: v' := by
    cases v with
    | nil => simp at star
    | cons d v => exact ⟨v, by rw [(List.cons.inj star).1]⟩
  rw [List.cons_append, lexemeAt_comment, List.length_cons] at past
  have open_ : ¬ "*/".toList <:+: v := 
    not_infix_of_extentThrough (z := '\n' :: z) (by dsimp only at past; omega)
  refine ⟨.comment, extentThrough "*/" z, fun s indent => ?_⟩
  have foreign : ∀ d ∈ '\n' :: s, d ∉ "*/".toList := by
    refine List.forall_mem_cons.mpr ⟨by decide, fun d member => ?_⟩
    rcases indent d member with rfl | rfl <;> decide
  have through := extentThrough_past (List.cons_ne_nil '\n' s) open_ foreign (by decide) z
  rw [List.cons_append] at through
  rw [List.cons_append, lexemeAt_comment, through, List.length_cons, List.length_cons]
  exact Prod.ext rfl (by dsimp only; omega)

theorem goesPast_string (quote : isQuote c)
    (past : v.length + 1 < (lexemeAt c (v ++ '\n' :: z)).2) : GoesPast c v z := by
  rw [lexemeAt_quote quote] at past
  have goes := stringExtent_past quote v (y := z) (by dsimp only at past; omega)
  refine ⟨if (stringExtent c z).2 then .string else .badString, (stringExtent c z).1, fun s indent => ?_⟩
  rw [lexemeAt_quote quote, goes, stringExtent_indent quote indent]
  exact Prod.ext rfl (by dsimp only; omega)

/-- What begins a text and holds no line feed lies in front of the line feed. -/
theorem exists_of_newline_notMem {u w : List Char} (plain : '\n' ∉ u)
    (whole : v ++ '\n' :: z = u ++ w) : ∃ v', v = u ++ v' ∧ w = v' ++ '\n' :: z := by
  rcases List.append_eq_append_iff.mp whole with ⟨t, rfl, feed⟩ | ⟨v', rfl, rfl⟩
  · cases t with
    | nil => exact ⟨[], by simp, by simpa using feed.symm⟩
    | cons d t =>
        obtain rfl := (List.cons.inj feed).1
        exact absurd (by simp) plain
  · exact ⟨v', rfl, rfl⟩

theorem goesPast_url (own : identLike (c :: (v ++ '\n' :: z)) = (.url, n)) (past : v.length + 1 < n) :
    GoesPast c v z := by
  generalize here : c :: (v ++ '\n' :: z) = cs at own
  rw [identLike_eq] at own
  split at own
  next paren =>
    split at own
    next url =>
      split at own
      next => cases own
      next plain =>
        have named : cs.take (nameExtent cs + 1) = cs.take (nameExtent cs) ++ ['('] := by
          rw [List.take_add_one, ← List.head?_drop, paren]
          rfl
        have spelled : sameIgnoringCase (cs.take (nameExtent cs + 1)) "url(" := by
          have letters : (cs.map Char.toLower).take (nameExtent cs) = ['u', 'r', 'l'] := by
            simpa [sameIgnoringCase, lowerAscii] using url
          simp [named, sameIgnoringCase, lowerAscii, letters]
        obtain ⟨c', d, e, text, c_, d_, e_⟩ := spelled_url spelled
        have parted := List.take_append_drop (nameExtent cs + 1) cs
        have three : nameExtent cs = 3 := by
          have count := congrArg List.length (named.symm.trans text)
          have short := nameExtent_le cs
          rw [List.length_append, List.length_take_of_le short] at count
          simpa using count
        rw [text, ← here] at parted
        obtain ⟨rfl, tail⟩ := List.cons.inj parted
        have letters : '\n' ∉ [d, e, '('] := by
          simp only [List.mem_cons, List.not_mem_nil, or_false, not_or]
          refine ⟨?_, ?_, by decide⟩ <;> rintro rfl
          · cases d_
          · cases e_
        obtain ⟨v, rfl, inside⟩ := exists_of_newline_notMem letters tail.symm
        rw [here] at inside
        rw [inside, Bool.not_eq_true] at plain
        rw [inside, Prod.mk.injEq] at own
        have open_ : ¬ ")".toList <:+: v := by
          refine not_infix_of_extentThrough (z := '\n' :: z) ?_
          have length : ([d, e, '('] ++ v).length = v.length + 3 := by simp
          omega
        refine ⟨.url, extentThrough ")" z, fun s indent => ?_⟩
        have foreign : ∀ d ∈ '\n' :: s, d ∉ ")".toList := by
          refine List.forall_mem_cons.mpr ⟨by decide, fun d member => ?_⟩
          rcases indent d member with rfl | rfl <;> decide
        have through := extentThrough_past (List.cons_ne_nil '\n' s) open_ foreign (by decide) z
        rw [List.cons_append] at through
        have unquoted : (trimStart (v ++ '\n' :: (s ++ z))).head?.any isQuote = false := by
          rw [head?_trimStart_past indent, ← head?_trimStart_past isIndent_nil]
          exact plain
        rw [show [d, e, '('] ++ v ++ '\n' :: (s ++ z) = d :: e :: '(' :: (v ++ '\n' :: (s ++ z)) by simp,
          lexemeAt_url c_ d_ e_ unquoted, through]
        refine Prod.ext rfl ?_
        simp only [List.length_append, List.length_cons, List.length_nil]
        omega
    next => cases own
  next => cases own

/-- **A lexeme that goes past a line feed goes past the indent behind it**, whichever it is. -/
theorem goesPast (past : v.length + 1 < (lexemeAt c (v ++ '\n' :: z)).2) : GoesPast c v z := by
  have long : isLongKind (lexemeAt c (v ++ '\n' :: z)).1 := by
    by_contra short
    exact newline_notMem_of_not_isLongKind (by simpa using short) (newline_mem_take past z)
  have shape := shape_lexemeAt c (v ++ '\n' :: z)
  generalize measured : lexemeAt c (v ++ '\n' :: z) = found at past long shape
  obtain ⟨kind, n⟩ := found
  cases shape with
  | blank blank => exact goesPast_blank blank (by rwa [measured])
  | comment => exact goesPast_comment (by rw [measured]) (by rwa [measured])
  | string quote | badString quote => exact goesPast_string quote (by rwa [measured])
  | word _ own word =>
      have url := (by decide : ∀ kind ∈ wordKinds, isLongKind kind → kind = .url) kind word long
      exact goesPast_url (url ▸ own) past
  | number _ _ number =>
      have short := (by decide : ∀ kind ∈ numberKinds, isLongKind kind = false) kind number
      exact absurd long (by simp [short])
  | sign =>
      dsimp only at past
      omega
  | cdo | cdc | hash | keyword => cases long

/-! ## Cuts -/

/-- To what stands in front of a line feed, all indents behind it look alike. -/
theorem alike_of_indent (indent : IsIndent s) (z : List Char) : Alike ('\n' :: z) ('\n' :: (s ++ z)) := by
  refine alike_of_inert (by decide) (List.cons_ne_nil _ _) fun quote => ?_
  have same := (head?_trimStart_past indent [] z).trans (head?_trimStart_past isIndent_nil [] z).symm
  simp only [List.nil_append] at same
  rwa [same]

/-- White space is cut off with what follows of it. -/
theorem cut_blanks (some_ : s ≠ []) (blank : ∀ c ∈ s, isBlank c) (atHead : Bool) (z : List Char) :
    cut scan atHead (s ++ z) =
      ⟨.blank, s ++ z.takeWhile isBlank⟩ :: cut scan false (z.dropWhile isBlank) := by
  obtain ⟨c, s, rfl⟩ := List.exists_cons_of_ne_nil some_
  obtain ⟨own, others⟩ := List.forall_mem_cons.mp blank
  have measured : lexemeAt c (s ++ z) = (.blank, s.length + extentWhile isBlank z + 1) := by
    rw [lexemeAt, if_pos own, extentWhile_cons own, extentWhile_append_all others]
  have other : c ≠ '\uFEFF' := by
    rintro rfl
    cases own
  have seen : scan atHead c (s ++ z) = ⟨.blank, s.length + extentWhile isBlank z, false⟩ := by
    simp [scan, measured, other]
  rw [List.cons_append, cut_cons, seen, List.take_length_add_append, List.drop_length_add_append,
    take_extentWhile, drop_extentWhile]
  rfl

/-- **With another indent behind a line feed, a text is cut the same**, but for the one piece that holds
the indent. By induction on what stands in front of the line feed: a lexeme that ends there does not look
at the indent, and one that does not goes past it. -/
theorem exists_cut_past (atHead : Bool) (v z : List Char) : ∃ front kind u w back, ∀ s, IsIndent s →
    cut scan atHead (v ++ '\n' :: (s ++ z)) = front ++ ⟨kind, u ++ '\n' :: (s ++ w)⟩ :: back := by
  induction count : v.length using Nat.strong_induction_on generalizing atHead v with
  | _ n ih =>
    match v with
    | [] =>
      refine ⟨[], .blank, [], z.takeWhile isBlank, cut scan false (z.dropWhile isBlank), fun s indent => ?_⟩
      exact cut_blanks (List.cons_ne_nil _ _) (List.forall_mem_cons.mpr ⟨by decide, indent.blank⟩) atHead z
    | c :: v =>
      by_cases short : (scan atHead c (v ++ '\n' :: z)).more ≤ v.length
      · have same : ∀ s, IsIndent s →
            scan atHead c (v ++ '\n' :: (s ++ z)) = scan atHead c (v ++ '\n' :: z) := by
          intro s indent
          have feeds : ∀ w, Feeds ('\n' :: z) ('\n' :: (s ++ z)) w := fun _ _ => .inl rfl
          exact scan_alike (alike_of_indent indent z) (feeds _) short (feeds _) fun _ =>
            ⟨fun _ _ => rfl, fun _ => .inl rfl⟩
        obtain ⟨front, kind, u, w, back, cuts⟩ := ih _ (by
          rw [← count, List.length_drop, List.length_cons]
          exact Nat.lt_succ_of_le (Nat.sub_le _ _)) false
          (v.drop (scan atHead c (v ++ '\n' :: z)).more) rfl
        refine ⟨⟨(scan atHead c (v ++ '\n' :: z)).kind, c :: v.take (scan atHead c (v ++ '\n' :: z)).more⟩ ::
          front, kind, u, w, back, fun s indent => ?_⟩
        rw [List.cons_append, cut_cons, same s indent, List.take_append_of_le_length short,
          List.drop_append_of_le_length short, state_scan, cuts s indent]
        rfl
      · have plain : ¬ (atHead ∧ c = '\uFEFF') := by
          intro mark
          simp [scan, mark] at short
        have seen : ∀ rest, scan atHead c rest = ⟨(lexemeAt c rest).1, (lexemeAt c rest).2 - 1, false⟩ := by
          intro rest
          simp [scan, plain]
        rw [seen] at short
        obtain ⟨kind, more, measured⟩ := goesPast (c := c) (v := v) (z := z) (by
          dsimp only at short
          omega)
        refine ⟨[], kind, c :: v, z.take more, cut scan false (z.drop more), fun s indent => ?_⟩
        have reach : v.length + 2 + s.length + more - 1 = v.length + (s.length + more + 1) := by omega
        rw [List.cons_append, cut_cons, seen, measured s indent]
        simp only [reach, List.take_length_add_append, List.drop_length_add_append,
          List.take_succ_cons, List.drop_succ_cons]
        rfl

/-! ## Comments -/

/-- The lines on which the comments among some pieces go on, if the first piece begins on `line`. -/
def continuations (line : Nat) : List (Lexeme TokenKind) → List LineRange
  | [] => []
  | piece :: pieces =>
    let last := line + piece.text.count '\n'
    if piece.kind == .comment then ⟨line + 1, last⟩ :: continuations last pieces
    else continuations last pieces

theorem continuations_locate (p : Position) (pieces : List (Lexeme TokenKind)) :
    ((locate p pieces).filter (·.kind == .comment)).map (·.span.continuation) =
      continuations p.line pieces := by
  induction pieces generalizing p with
  | nil => rfl
  | cons piece pieces ih =>
      have later := ih (p.after piece.text)
      rw [Position.line_after] at later
      rw [locate, continuations, List.filter_cons]
      dsimp only
      split
      next comment =>
        rw [List.map_cons, later, Span.continuation, Span.covering_finish, Position.line_after]
        rfl
      next => exact later

/-- Another piece of the same kind, over as many lines. -/
theorem continuations_reworded {piece piece' : Lexeme TokenKind} (kind : piece.kind = piece'.kind)
    (feeds : piece.text.count '\n' = piece'.text.count '\n') (line : Nat)
    (front back : List (Lexeme TokenKind)) :
    continuations line (front ++ piece :: back) = continuations line (front ++ piece' :: back) := by
  induction front generalizing line with
  | nil => simp only [List.nil_append, continuations, kind, feeds]
  | cons first front ih => simp only [List.cons_append, continuations, ih]

end Css

/-- The lines that a stylesheet's comments go on to. -/
theorem Document.commentLines_ofText (cs : List Char) :
    (Document.ofText .css cs).commentLines = Css.continuations 1 (Css.lexemes cs) := by
  rw [← show Position.start.line = 1 from rfl, ← Css.continuations_locate]
  simp only [commentLines, comments, ofText, Css.Sheet.ofText, Css.Sheet.comments, List.map_map]
  rfl

namespace Css

variable {s s' z front : List Char}

/-- Spacing at the beginning of a text. -/
theorem continuations_head (indent : IsIndent s) (mark : s = [] → z.head? ≠ some '\uFEFF') :
    continuations 1 (lexemes (s ++ z)) =
      continuations (1 + (z.takeWhile isBlank).count '\n') (cut scan false (z.dropWhile isBlank)) := by
  by_cases some_ : s ++ z.takeWhile isBlank = []
  · obtain ⟨rfl, none_⟩ := List.append_eq_nil_iff.mp some_
    have solid : z.dropWhile isBlank = z := by
      have parted := List.takeWhile_append_dropWhile (p := isBlank) (l := z)
      rwa [none_, List.nil_append] at parted
    rw [none_, solid, List.nil_append, lexemes, cut_head fun c first same => mark rfl (same ▸ first)]
    rfl
  · have blank : ∀ c ∈ s ++ z.takeWhile isBlank, isBlank c := by
      intro c member
      rcases List.mem_append.mp member with front | back
      · exact indent.blank c front
      · exact List.mem_takeWhile_imp back
    have cuts := cut_blanks some_ blank true (z.dropWhile isBlank)
    have parted := List.takeWhile_append_dropWhile (p := isBlank) (l := z.dropWhile isBlank)
    rw [List.dropWhile_idempotent, List.append_left_eq_self] at parted
    rw [List.append_assoc, List.takeWhile_append_dropWhile, List.dropWhile_idempotent, parted,
      List.append_nil] at cuts
    rw [lexemes, cuts]
    simp [continuations, List.count_eq_zero_of_not_mem indent.newline_notMem]

/-- **With another indent, comments begin and end on the same lines**, unless a byte order mark comes to
stand first. -/
theorem continuations_reindented (begins : front = [] ∨ front.getLast? = some '\n') (indent : IsIndent s)
    (indent' : IsIndent s') (mark : front = [] → s = [] ∨ s' = [] → z.head? ≠ some '\uFEFF') :
    continuations 1 (lexemes (front ++ (s ++ z))) = continuations 1 (lexemes (front ++ (s' ++ z))) := by
  rcases begins with rfl | feed
  · rw [List.nil_append, List.nil_append,
      continuations_head indent fun none_ => mark rfl (.inl none_),
      continuations_head indent' fun none_ => mark rfl (.inr none_)]
  · obtain ⟨v, rfl⟩ := List.getLast?_eq_some_iff.mp feed
    obtain ⟨before, kind, u, w, back, cuts⟩ := exists_cut_past true v z
    rw [List.append_assoc, List.append_assoc, List.singleton_append, List.singleton_append, lexemes,
      lexemes, cuts s indent, cuts s' indent']
    refine continuations_reworded (by rfl) ?_ 1 before back
    simp only [List.count_append, List.count_cons_self,
      List.count_eq_zero_of_not_mem indent.newline_notMem,
      List.count_eq_zero_of_not_mem indent'.newline_notMem]

end Css

end PageLint
