/-
# PageLint.Proofs.Css.Lookahead — how far a lexeme looks beyond its end

A lexeme of a stylesheet ends where it does because of what follows it: a name ends before what is no
part of a name, a sign because the next two or three characters make nothing longer of it, and `url(`
because a quote comes next after white space. `Alike x y` says that `y` holds nothing which a lexeme
in front of it would take in, unless `x` does. Each measure of the lexer that ends before `x` then
answers the same before `y`, and so does the lexeme (`lexemeAt_alike`).

Three lexemes end because of what comes first in `x`, whatever the rest looks like: white space before
what is none, and a broken string or a lone backslash before a line feed. `EndsBefore` says that the
last lexeme in front is none of these, or that `y` ends it too. Then all that stands in front is cut as
before (`cut_alike`).
-/
import PageLint.Proofs.Css.Draft
import PageLint.Proofs.Css.Lexer
import PageLint.Proofs.Html.Lookahead

namespace PageLint.Css

set_option autoImplicit false

open Text

variable {x y cs rest : List Char} {c d : Char}

/-! ## What is looked at -/

/-- The signs of several characters, without their first ones. -/
def signTails : List (List Char) := ["*", "!--", "--", "-", "->", ">"]

/-- Whatever a lexeme would take in, or go on with, where `y` follows it, it would where `x` does. A
number that has come to its fraction does not stand in front of a digit. -/
structure Alike (x y : List Char) : Prop where
  some_ : x ≠ []
  name : y.head?.any isNameChar → x.head?.any isNameChar
  escape : startsEscape y → startsEscape x
  ident : startsIdent y → startsIdent x
  dashed : startsIdent ('-' :: y) → startsIdent ('-' :: x)
  digit : startsDigit y → startsDigit x
  signed : startsDigit (y.drop (signExtent y)) → startsDigit (x.drop (signExtent x))
  fraction : startsDigit x = false → fractionExtent x = 0 → fractionExtent y = 0
  exponent : exponentExtent x = 0 → exponentExtent y = 0
  sign : ∀ c ∈ ['%', '('], y.head? = some c → x.head? = some c
  tail : ∀ part ∈ signTails, part <+: y → part <+: x
  quote : (trimStart x).head?.any isQuote → (trimStart y).head?.any isQuote

/-- What a number would take in, or go on with, where `y` follows it, it would where `x` does. -/
structure NumbersAlike (x y : List Char) : Prop where
  digit : startsDigit y → startsDigit x
  signed : startsDigit (y.drop (signExtent y)) → startsDigit (x.drop (signExtent x))
  fraction : startsDigit x = false → fractionExtent x = 0 → fractionExtent y = 0
  exponent : exponentExtent x = 0 → exponentExtent y = 0

theorem Alike.numbers (alike : Alike x y) : NumbersAlike x y :=
  ⟨alike.digit, alike.signed, alike.fraction, alike.exponent⟩

/-- No backslash at the end of `v` looks at a line feed that is gone. -/
def Feeds (x y v : List Char) : Prop :=
  x.head? = some '\n' → y.head? = some '\n' ∨ v ∉ [['\\'], ['-', '\\']]

/-- A lexeme that ends before `x` for its first character ends before `y` as well. -/
structure EndsBefore (x y : List Char) (piece : Lexeme TokenKind) : Prop where
  blank : piece.kind = .blank → y.head?.any isBlank → x.head?.any isBlank
  line : x.head? = some '\n' → y.head? = some '\n' ∨ piece.kind ≠ .badString ∧ piece.text ≠ ['\\']

/-! ## Measures that end before a text -/

/-- A measure that ends within a part of the text answers the same whichever text follows. -/
def Settled (m : List Char → Nat) (x y cs : List Char) : Prop :=
  m (cs ++ x) ≤ cs.length → m (cs ++ y) = m (cs ++ x)

/-- One measure after the other. -/
theorem Settled.then {m k : List Char → Nat} (first : Settled m x y cs)
    (next : m (cs ++ x) ≤ cs.length → Settled k x y (cs.drop (m (cs ++ x)))) :
    Settled (fun cs => m cs + k (cs.drop (m cs))) x y cs := by
  intro within
  dsimp only at within ⊢
  have short : m (cs ++ x) ≤ cs.length := (Nat.le_add_right _ _).trans within
  rw [List.drop_append_of_le_length short] at within
  rw [first short, List.drop_append_of_le_length short, List.drop_append_of_le_length short,
    next short (by rw [List.length_drop]; omega)]

theorem settled_extentWhile {p : Char → Bool} (stops : y.head?.any p → x.head?.any p)
    (cs : List Char) : Settled (extentWhile p) x y cs := by
  intro within
  rcases Nat.lt_or_eq_of_le within with inside | whole
  · exact extentWhile_within inside y
  · obtain ⟨all, ends⟩ := extentWhile_eq_length whole
    rw [whole]
    refine extentWhile_append_stop all fun c first => ?_
    by_contra holds
    obtain ⟨z, rfl⟩ := List.head?_eq_some_iff.mp first
    have goes := stops (by simpa using holds)
    cases x with
    | nil => cases goes
    | cons d x => simp [ends d rfl] at goes

/-! ## Names -/

theorem startsEscape_cons (c d : Char) (cs : List Char) :
    startsEscape (c :: d :: cs) = (c == '\\' && d != '\n') := by
  unfold startsEscape
  split
  next same =>
    obtain ⟨rfl, rfl, rfl⟩ : c = '\\' ∧ d = _ ∧ cs = _ := by simpa using same
    simp
  next other =>
    have backslash : c ≠ '\\' := fun same => other d cs (by rw [same])
    simp [backslash]

theorem startsEscape_of_ne (other : c ≠ '\\') (cs : List Char) : startsEscape (c :: cs) = false := by
  unfold startsEscape
  split
  next same => exact absurd (List.cons.inj same).1 other
  next => rfl

/-- No name begins before what is neither in a name nor an escape. -/
theorem nameExtent_eq_zero : nameExtent cs = 0 ↔
    cs.head?.any isNameChar = false ∧ startsEscape cs = false := by
  match cs with
  | [] => simp [nameExtent, startsEscape]
  | [c] => by_cases name : isNameChar c <;> simp [nameExtent, startsEscape, name]
  | c :: d :: cs =>
      rw [nameExtent, startsEscape_cons]
      by_cases name : isNameChar c
      · simp [name]
      · by_cases escape : (c == '\\' && d != '\n') = true <;> simp [name, escape]

/-- A name ends where no name goes on. -/
theorem nameExtent_drop (cs : List Char) : nameExtent (cs.drop (nameExtent cs)) = 0 := by
  fun_induction nameExtent cs with
  | case1 => rfl
  | case2 c name => simp [nameExtent]
  | case3 c other => simp [nameExtent, other]
  | case4 c d cs name ih => rwa [Nat.add_comm, List.drop_succ_cons]
  | case5 c d cs other escape ih => rwa [Nat.add_comm]
  | case6 c d cs other plain => simp [nameExtent, other, plain]

theorem Alike.nameExtent_eq_zero (alike : Alike x y) (none_ : nameExtent x = 0) : nameExtent y = 0 := by
  rw [Css.nameExtent_eq_zero] at none_ ⊢
  refine ⟨?_, ?_⟩
  · by_contra name
    simp [alike.name (by simpa using name)] at none_
  · by_contra escape
    simp [alike.escape (by simpa using escape)] at none_

/-- Behind a backslash only a line feed begins no escape. -/
theorem startsEscape_backslash (some_ : x ≠ []) : startsEscape ('\\' :: x) = !(x.head? == some '\n') := by
  cases x with
  | nil => exact absurd rfl some_
  | cons d x => simp [startsEscape_cons, bne]

/-- A name, by induction on it: what ends it in front of `x` ends it in front of `y`. -/
theorem nameExtent_alike (alike : Alike x y) : ∀ cs, nameExtent (cs ++ x) ≤ cs.length →
    Feeds x y (cs.drop (nameExtent (cs ++ x))) → nameExtent (cs ++ y) = nameExtent (cs ++ x)
  | [], within, _ => by
      have none_ : nameExtent x = 0 := Nat.le_zero.mp within
      rw [List.nil_append, List.nil_append, alike.nameExtent_eq_zero none_, none_]
  | [c], within, feeds => by
      rw [List.singleton_append, List.singleton_append] at *
      by_cases name : isNameChar c
      · rw [nameExtent_cons name, List.length_singleton] at within
        have none_ : nameExtent x = 0 := by omega
        rw [nameExtent_cons name, nameExtent_cons name, alike.nameExtent_eq_zero none_, none_]
      · have plain : ∀ z : List Char, (c :: z).head?.any isNameChar = false := by simp [name]
        have none_ : nameExtent (c :: x) = 0 := by
          by_contra some_
          have escape : startsEscape (c :: x) = true := by
            by_contra plain'
            exact some_ (nameExtent_eq_zero.mpr ⟨plain x, by simpa using plain'⟩)
          obtain ⟨d, more, rfl⟩ := List.exists_cons_of_ne_nil alike.some_
          rw [startsEscape_cons] at escape
          rw [nameExtent, if_neg name, if_pos escape, List.length_singleton] at within
          omega
        rw [none_, List.drop_zero] at feeds
        rw [none_, nameExtent_eq_zero]
        refine ⟨plain y, ?_⟩
        by_cases backslash : c = '\\'
        · subst backslash
          have feed := (nameExtent_eq_zero.mp none_).2
          rw [startsEscape_backslash alike.some_] at feed
          rcases feeds (by simpa using feed) with same | other
          · cases y with
            | nil => rfl
            | cons d y => simpa [startsEscape_cons] using same
          · exact absurd List.mem_cons_self other
        · exact startsEscape_of_ne backslash y
  | c :: d :: cs, within, feeds => by
      simp only [List.cons_append, List.length_cons] at within feeds ⊢
      by_cases name : isNameChar c
      · have later := nameExtent_alike alike (d :: cs)
        simp only [List.cons_append, List.length_cons] at later
        rw [nameExtent_cons name] at within feeds ⊢
        rw [nameExtent_cons name, later (by omega) feeds]
      · rw [nameExtent, if_neg name] at within feeds ⊢
        rw [nameExtent, if_neg name]
        split_ifs at within feeds ⊢ with escape
        · rw [Nat.add_comm] at feeds
          rw [nameExtent_alike alike cs (by omega) feeds]
        · rfl

theorem startsIdent_dash (rest : List Char) : startsIdent ('-' :: rest) =
    (startsEscape rest || rest.head?.any fun d => isNameStart d || d == '-') := by
  unfold startsIdent
  cases rest <;> rfl

theorem startsIdent_cons (other : c ≠ '-') (rest : List Char) :
    startsIdent (c :: rest) = (isNameStart c || startsEscape (c :: rest)) := by
  rw [startsIdent]
  exact other

/-- An escape begins in front of `y` where it does in front of `x`, if a line feed that a backslash
looks at is still there. -/
theorem startsEscape_alike (some_ : cs ≠ [])
    (feed : cs = ['\\'] → x.head? = some '\n' ∧ y.head? = some '\n') :
    startsEscape (cs ++ y) = startsEscape (cs ++ x) := by
  match cs, some_ with
  | [c], _ =>
      by_cases backslash : c = '\\'
      · subst backslash
        obtain ⟨old, new⟩ := feed rfl
        obtain ⟨more, rfl⟩ := List.head?_eq_some_iff.mp old
        obtain ⟨more', rfl⟩ := List.head?_eq_some_iff.mp new
        rfl
      · exact (startsEscape_of_ne backslash y).trans (startsEscape_of_ne backslash x).symm
  | c :: d :: cs, _ => exact (startsEscape_cons c d _).trans (startsEscape_cons c d _).symm

/-- A lone `-` is a name but no identifier. -/
theorem one_lt_nameExtent_dash (starts : startsIdent ('-' :: x)) : 1 < nameExtent ('-' :: x) := by
  rw [nameExtent_cons (by decide)]
  by_contra short
  obtain ⟨name, escape⟩ := nameExtent_eq_zero.mp (show nameExtent x = 0 by omega)
  rw [startsIdent_dash, escape, Bool.false_or] at starts
  cases x with
  | nil => cases starts
  | cons d x =>
      have part : isNameStart d ∨ d = '-' := by simpa using starts
      rcases part with start | rfl
      · simp [isNameChar_of_isNameStart start] at name
      · cases name

/-- An identifier begins in front of `y` where it does in front of `x`, if it does not reach into
`x`. -/
theorem startsIdent_alike (alike : Alike x y) (cs : List Char)
    (feeds : startsIdent (cs ++ x) = false → Feeds x y cs)
    (within : startsIdent (cs ++ x) → nameExtent (cs ++ x) ≤ cs.length) :
    startsIdent (cs ++ y) = startsIdent (cs ++ x) := by
  -- Where a backslash comes last, only a line feed keeps the name from reaching into `x`.
  have feed : cs ∈ [['\\'], ['-', '\\']] → x.head? = some '\n' ∧ y.head? = some '\n' := by
    intro last
    obtain ⟨d, more, rfl⟩ := List.exists_cons_of_ne_nil alike.some_
    have line : d = '\n' := by
      by_contra other
      simp only [List.mem_cons, List.not_mem_nil, or_false] at last
      rcases last with rfl | rfl
      · have short := within (by simp [startsIdent, startsEscape, other])
        simp [nameExtent, isNameChar, isNameStart, other] at short
        omega
      · have short := within (by simp [startsIdent, startsEscape, other])
        simp [nameExtent, isNameChar, isNameStart, other] at short
        omega
    subst line
    refine ⟨rfl, (feeds ?_ rfl).resolve_right (not_not_intro last)⟩
    simp only [List.mem_cons, List.not_mem_nil, or_false] at last
    rcases last with rfl | rfl <;> rfl
  cases cs with
  | nil =>
      have none_ : startsIdent x = false := by
        by_contra starts
        have some_ : 0 < nameExtent x := nameExtent_pos (by simpa using starts)
        have short := within (by simpa using starts)
        rw [List.nil_append, List.length_nil] at short
        omega
      rw [List.nil_append, List.nil_append, none_]
      by_contra starts
      simp [alike.ident (by simpa using starts)] at none_
  | cons c cs =>
      by_cases dash : c = '-'
      · subst dash
        cases cs with
        | nil =>
            have none_ : startsIdent ('-' :: x) = false := by
              by_contra starts
              have long := one_lt_nameExtent_dash (by simpa using starts)
              have short := within (by simpa using starts)
              rw [List.singleton_append, List.length_singleton] at short
              omega
            rw [List.singleton_append, List.singleton_append, none_]
            by_contra starts
            simp [alike.dashed (by simpa using starts)] at none_
        | cons d cs =>
            have escape := startsEscape_alike (List.cons_ne_nil d cs) fun same =>
              feed (by simp [same])
            have dash := startsIdent_dash (d :: cs ++ y)
            rw [escape] at dash
            exact dash.trans (startsIdent_dash (d :: cs ++ x)).symm
      · have escape := startsEscape_alike (List.cons_ne_nil c cs) fun same => feed (by simp [same])
        rw [List.cons_append] at escape
        rw [List.cons_append, List.cons_append, startsIdent_cons dash, startsIdent_cons dash, escape]
        rfl

/-! ## Numbers -/

theorem startsDigit_eq (cs : List Char) : startsDigit cs = cs.head?.any Char.isDigit := by
  cases cs <;> rfl

theorem startsDigit_iff : startsDigit cs ↔ 0 < digitsExtent cs := by
  refine ⟨digitsExtent_pos, fun some_ => ?_⟩
  cases cs with
  | nil => cases some_
  | cons c cs =>
      by_contra digit
      simp only [startsDigit] at digit
      simp [digitsExtent, extentWhile, digit] at some_

theorem settled_digitsExtent (alike : NumbersAlike x y) (cs : List Char) : Settled digitsExtent x y cs :=
  settled_extentWhile (by simpa only [startsDigit_eq] using alike.digit) cs

theorem startsDigit_alike (alike : NumbersAlike x y) (short : digitsExtent (cs ++ x) ≤ cs.length) :
    startsDigit (cs ++ y) = startsDigit (cs ++ x) := by
  rw [Bool.eq_iff_iff, startsDigit_iff, startsDigit_iff, settled_digitsExtent alike cs short]

theorem settled_fractionExtent (alike : NumbersAlike x y) (cs : List Char)
    (stops : cs = [] → startsDigit x = false) : Settled fractionExtent x y cs := by
  intro within
  cases cs with
  | nil =>
      have none_ : fractionExtent x = 0 := Nat.le_zero.mp within
      rw [List.nil_append, List.nil_append, none_, alike.fraction (stops rfl) none_]
  | cons c cs =>
      simp only [fractionExtent, List.cons_append, List.head?_cons, List.drop_one, List.tail_cons,
        List.length_cons] at within ⊢
      by_cases short : digitsExtent (cs ++ x) ≤ cs.length
      · rw [startsDigit_alike alike short, settled_digitsExtent alike cs short]
      · have digit : startsDigit (cs ++ x) := startsDigit_iff.mpr (by omega)
        have other : c ≠ '.' := by
          rintro rfl
          rw [if_pos ⟨rfl, digit⟩] at within
          omega
        simp [other]

theorem signExtent_alike (some_ : cs ≠ []) : signExtent (cs ++ y) = signExtent (cs ++ x) := by
  cases cs with
  | nil => exact absurd rfl some_
  | cons c cs => rfl

theorem signExtent_append_le (some_ : cs ≠ []) : signExtent (cs ++ x) ≤ cs.length := by
  cases cs with
  | nil => exact absurd rfl some_
  | cons c cs =>
      rw [signExtent, List.length_cons]
      split <;> omega

theorem exponentExtent_cons (c : Char) (cs : List Char) : exponentExtent (c :: cs) =
    if (c = 'e' ∨ c = 'E') ∧ startsDigit (cs.drop (signExtent cs)) then
      1 + signExtent cs + digitsExtent (cs.drop (signExtent cs)) else 0 := by
  simp only [exponentExtent, List.head?_cons, Option.some.injEq, Nat.add_comm 1,
    List.drop_succ_cons, List.drop_zero, ite_and]

theorem settled_exponentExtent (alike : NumbersAlike x y) (cs : List Char) :
    Settled exponentExtent x y cs := by
  intro within
  cases cs with
  | nil =>
      have none_ : exponentExtent x = 0 := Nat.le_zero.mp within
      rw [List.nil_append, List.nil_append, none_, alike.exponent none_]
  | cons c cs =>
      rw [List.cons_append, exponentExtent_cons, List.length_cons] at within
      rw [List.cons_append, List.cons_append, exponentExtent_cons, exponentExtent_cons]
      rcases eq_or_ne cs [] with rfl | some_
      · -- What the exponent would go on with lies in `x` and `y`.
        have none_ : ¬ ((c = 'e' ∨ c = 'E') ∧ startsDigit (x.drop (signExtent x))) := by
          intro exponent
          have some_ := startsDigit_iff.mp exponent.2
          rw [List.nil_append, if_pos exponent, List.length_nil] at within
          omega
        rw [List.nil_append, List.nil_append, if_neg none_,
          if_neg fun exponent => none_ (exponent.imp_right alike.signed)]
      · have sign := signExtent_append_le (x := x) some_
        have room := List.length_drop (l := cs) (i := signExtent (cs ++ x))
        rw [List.drop_append_of_le_length sign] at within
        rw [signExtent_alike some_, List.drop_append_of_le_length sign,
          List.drop_append_of_le_length sign]
        by_cases short : digitsExtent (cs.drop (signExtent (cs ++ x)) ++ x) ≤
            (cs.drop (signExtent (cs ++ x))).length
        · rw [startsDigit_alike alike short, settled_digitsExtent alike _ short]
        · have digit := startsDigit_iff.mpr (Nat.zero_lt_of_lt (Nat.lt_of_not_le short))
          have other : ¬ (c = 'e' ∨ c = 'E') := by
            intro letter
            rw [if_pos ⟨letter, digit⟩] at within
            omega
          rw [if_neg (fun exponent => other exponent.1), if_neg (fun exponent => other exponent.1)]

/-- Number of characters of the digits and the fraction of a number. -/
def mantissaExtent (cs : List Char) : Nat :=
  digitsExtent cs + fractionExtent (cs.drop (digitsExtent cs))

/-- Number of characters of a number behind its sign. -/
def unsignedExtent (cs : List Char) : Nat :=
  mantissaExtent cs + exponentExtent (cs.drop (mantissaExtent cs))

theorem numberExtent_eq (cs : List Char) :
    numberExtent cs = signExtent cs + unsignedExtent (cs.drop (signExtent cs)) := by
  simp only [numberExtent, unsignedExtent, mantissaExtent, List.drop_drop, Nat.add_assoc]

theorem settled_mantissaExtent (alike : NumbersAlike x y) (cs : List Char) :
    Settled mantissaExtent x y cs := by
  refine (settled_digitsExtent alike cs).then fun short => settled_fractionExtent alike _ fun none_ => ?_
  obtain ⟨-, stops⟩ := extentWhile_eq_length (p := Char.isDigit)
    (le_antisymm short (List.drop_eq_nil_iff.mp none_))
  rw [startsDigit_eq]
  cases x with
  | nil => rfl
  | cons d x => simpa using stops d rfl

theorem settled_unsignedExtent (alike : NumbersAlike x y) (cs : List Char) :
    Settled unsignedExtent x y cs :=
  (settled_mantissaExtent alike cs).then fun _ => settled_exponentExtent alike _

theorem startsUnsigned_iff : startsUnsigned cs ↔ 0 < mantissaExtent cs := by
  refine ⟨unsigned_pos, fun some_ => ?_⟩
  by_cases digit : startsDigit cs
  · simp [startsUnsigned, digit]
  · have none_ : digitsExtent cs = 0 := by
      by_contra digits
      exact digit (startsDigit_iff.mpr (Nat.pos_of_ne_zero digits))
    rw [mantissaExtent, none_, Nat.zero_add, List.drop_zero, fractionExtent] at some_
    split at some_
    next point => simp only [startsUnsigned, point, beq_self_eq_true, Bool.and_self, Bool.or_true]
    next => cases some_

theorem startsNumber_eq (cs : List Char) :
    startsNumber cs = startsUnsigned (cs.drop (signExtent cs)) := by
  by_cases sign : cs.head? = some '+' ∨ cs.head? = some '-'
  · have none_ : startsUnsigned cs = false := by
      cases cs with
      | nil => rfl
      | cons c cs =>
          rw [List.head?_cons, Option.some.injEq, Option.some.injEq] at sign
          rcases sign with rfl | rfl <;> simp [startsUnsigned, startsDigit]
    rw [startsNumber, none_, signExtent, if_pos sign]
    simpa using fun _ => sign
  · have none_ : (cs.head? == some '+' || cs.head? == some '-') = false := by simpa using sign
    rw [startsNumber, none_, signExtent, if_neg sign]
    simp

theorem startsNumber_iff : startsNumber cs ↔ 0 < mantissaExtent (cs.drop (signExtent cs)) := by
  rw [startsNumber_eq, startsUnsigned_iff]

/-- A number begins in front of `y` where it does in front of `x`, if it does not reach into `x`. -/
theorem startsNumber_alike (alike : NumbersAlike x y) (some_ : cs ≠ [])
    (within : startsNumber (cs ++ x) → numberExtent (cs ++ x) ≤ cs.length) :
    startsNumber (cs ++ y) = startsNumber (cs ++ x) := by
  have sign := signExtent_append_le (x := x) some_
  have room := List.length_drop (l := cs) (i := signExtent (cs ++ x))
  have starts : startsNumber (cs ++ x) ↔
      0 < mantissaExtent (cs.drop (signExtent (cs ++ x)) ++ x) := by
    rw [startsNumber_iff, List.drop_append_of_le_length sign]
  by_cases short : mantissaExtent (cs.drop (signExtent (cs ++ x)) ++ x) ≤
      (cs.drop (signExtent (cs ++ x))).length
  · rw [Bool.eq_iff_iff, starts, startsNumber_iff, signExtent_alike some_,
      List.drop_append_of_le_length sign, settled_mantissaExtent alike _ short]
  · have long := within (starts.mpr (Nat.zero_lt_of_lt (Nat.lt_of_not_le short)))
    rw [numberExtent_eq, List.drop_append_of_le_length sign, unsignedExtent] at long
    omega

theorem numberExtent_alike (alike : NumbersAlike x y) (some_ : cs ≠ [])
    (within : numberExtent (cs ++ x) ≤ cs.length) :
    numberExtent (cs ++ y) = numberExtent (cs ++ x) := by
  have sign := signExtent_append_le (x := x) some_
  have room := List.length_drop (l := cs) (i := signExtent (cs ++ x))
  rw [numberExtent_eq, List.drop_append_of_le_length sign] at within
  rw [numberExtent_eq, numberExtent_eq, signExtent_alike some_, List.drop_append_of_le_length sign,
    List.drop_append_of_le_length sign, settled_unsignedExtent alike _ (by omega)]

/-! ## Lexemes -/

/-- A lexeme of that kind and extent ends within `here`, which `x` follows, and `y` would end it
too. -/
structure Within (x y here : List Char) (found : TokenKind × Nat) : Prop where
  short : found.2 ≤ here.length
  feeds : Feeds x y (here.drop found.2)
  last : here.drop found.2 = [] → EndsBefore x y ⟨found.1, here⟩

/-- A sign ends the word in front of it where `x` follows, unless `y` begins with it as well. -/
theorem head_alike (alike : Alike x y) (cs : List Char) {sign : Char} (member : sign ∈ ['%', '('])
    (within : (cs ++ x).head? = some sign → cs ≠ []) :
    (cs ++ y).head? = some sign ↔ (cs ++ x).head? = some sign := by
  cases cs with
  | nil =>
      have none_ : x.head? ≠ some sign := fun first => within first rfl
      exact iff_of_false (fun first => none_ (alike.sign sign member first)) none_
  | cons c cs => rfl

theorem numberExtent_le_numeric (cs : List Char) : numberExtent cs ≤ (numeric cs).2 := by
  simp only [numeric]
  split_ifs <;> dsimp only <;> omega

/-- A number with its unit. -/
theorem numeric_alike (alike : Alike x y) (some_ : cs ≠ [])
    (within : Within x y cs (numeric (cs ++ x))) : numeric (cs ++ y) = numeric (cs ++ x) := by
  have number := (numberExtent_le_numeric (cs ++ x)).trans within.short
  obtain ⟨short, feeds, -⟩ := within
  have room := List.length_drop (l := cs) (i := numberExtent (cs ++ x))
  have unit := startsIdent_alike alike (cs.drop (numberExtent (cs ++ x)))
  have name := nameExtent_alike alike (cs.drop (numberExtent (cs ++ x)))
  simp only [numeric, numberExtent_alike alike.numbers some_ number,
    List.drop_append_of_le_length number] at short feeds ⊢
  have percent : (cs.drop (numberExtent (cs ++ x)) ++ y).head? = some '%' ↔
      (cs.drop (numberExtent (cs ++ x)) ++ x).head? = some '%' := by
    refine head_alike alike _ (by simp) fun first none_ => ?_
    rw [if_pos first] at short
    rw [none_, List.length_nil] at room
    dsimp only at short
    omega
  simp only [percent]
  by_cases goes : (cs.drop (numberExtent (cs ++ x)) ++ x).head? = some '%'
  · rw [if_pos goes, if_pos goes]
  · rw [if_neg goes] at short feeds ⊢
    rw [if_neg goes]
    rw [unit]
    · split_ifs at short feeds ⊢ with starts
      · rw [name (by dsimp only at short; omega) (by simpa [List.drop_drop] using feeds)]
      · rfl
    · intro none_
      simpa [none_] using feeds
    · intro starts
      rw [if_pos starts] at short
      dsimp only at short
      omega

theorem nameExtent_le_identLike (cs : List Char) : nameExtent cs ≤ (identLike cs).2 := by
  simp only [identLike]
  split
  · split_ifs <;> dsimp only <;> omega
  · exact le_rfl

/-- What follows a name decides whether it is a function, and what follows its parenthesis whether
it is a `url(...)`. -/
theorem identLike_eq (cs : List Char) : identLike cs =
    if (cs.drop (nameExtent cs)).head? = some '(' then
      if sameIgnoringCase (cs.take (nameExtent cs)) "url" then
        if (trimStart (cs.drop (nameExtent cs + 1))).head?.any isQuote then
          (.function, nameExtent cs + 1)
        else (.url, nameExtent cs + 1 + extentThrough ")" (cs.drop (nameExtent cs + 1)))
      else (.function, nameExtent cs + 1)
    else (.ident, nameExtent cs) := by
  rw [← List.tail_drop]
  simp only [identLike]
  split
  next inside left => simp [left]
  next other =>
    rw [if_neg]
    intro paren
    obtain ⟨inside, left⟩ := List.head?_eq_some_iff.mp paren
    exact other inside left

/-- A quote that comes next in front of `x` does so in front of `y`, and what comes next instead
does so too. -/
theorem quoted_alike (alike : Alike x y) (cs : List Char)
    (plain : (trimStart (cs ++ x)).head?.any isQuote = false → ∃ c ∈ cs, isBlank c = false) :
    (trimStart (cs ++ y)).head?.any isQuote = (trimStart (cs ++ x)).head?.any isQuote := by
  simp only [trimStart, trimStartBy, List.dropWhile_append] at plain ⊢
  cases left : cs.dropWhile isBlank with
  | nil =>
      rw [left] at plain
      simp only [List.isEmpty_nil, if_true] at plain ⊢
      have quote : (x.dropWhile isBlank).head?.any isQuote = true := by
        by_contra other
        obtain ⟨c, member, blank⟩ := plain (by simpa using other)
        exact absurd (List.dropWhile_eq_nil_iff.mp left c member) (by simp [blank])
      rw [quote]
      exact alike.quote quote
  | cons c left => rfl

/-- An identifier, a function or a `url(...)`. -/
theorem identLike_alike (alike : Alike x y) (within : Within x y cs (identLike (cs ++ x))) :
    identLike (cs ++ y) = identLike (cs ++ x) := by
  have name := (nameExtent_le_identLike (cs ++ x)).trans within.short
  obtain ⟨short, feeds, -⟩ := within
  have room := List.length_drop (l := cs) (i := nameExtent (cs ++ x))
  rw [identLike_eq, List.drop_append_of_le_length name] at short feeds
  have inside : (cs.drop (nameExtent (cs ++ x)) ++ x).head? = some '(' →
      nameExtent (cs ++ x) + 1 ≤ cs.length := by
    intro first
    rw [if_pos first] at short
    split_ifs at short <;> dsimp only at short <;> omega
  -- In front of a parenthesis no backslash comes last.
  have named := nameExtent_alike alike cs name (by
    by_cases first : (cs.drop (nameExtent (cs ++ x)) ++ x).head? = some '('
    · refine fun _ => .inr fun last => ?_
      simp only [List.mem_cons, List.not_mem_nil, or_false] at last
      rcases last with last | last <;> simp [last] at first
    · rwa [if_neg first] at feeds)
  have both : (cs.drop (nameExtent (cs ++ x)) ++ y).head? = some '(' ↔
      (cs.drop (nameExtent (cs ++ x)) ++ x).head? = some '(' := by
    refine head_alike alike _ (by simp) fun first none_ => ?_
    have long := inside first
    rw [none_, List.length_nil] at room
    omega
  rw [identLike_eq, identLike_eq, named, List.drop_append_of_le_length name,
    List.drop_append_of_le_length name, List.take_append_of_le_length name,
    List.take_append_of_le_length name]
  by_cases first : (cs.drop (nameExtent (cs ++ x)) ++ x).head? = some '('
  · have long := inside first
    rw [if_pos first, List.take_append_of_le_length name, List.drop_append_of_le_length long] at short
    rw [if_pos (both.mpr first), if_pos first, List.drop_append_of_le_length long, List.drop_append_of_le_length long]
    have room := List.length_drop (l := cs) (i := nameExtent (cs ++ x) + 1)
    by_cases url : sameIgnoringCase (cs.take (nameExtent (cs ++ x))) "url"
    · rw [if_pos url] at short
      have closed : (trimStart (cs.drop (nameExtent (cs ++ x) + 1) ++ x)).head?.any isQuote = false →
          ∀ more, extentThrough ")" (cs.drop (nameExtent (cs ++ x) + 1) ++ more) =
            extentThrough ")" (cs.drop (nameExtent (cs ++ x) + 1) ++ x) ∧
              ")".toList <:+: cs.drop (nameExtent (cs ++ x) + 1) := by
        intro plain more
        rw [plain] at short
        refine extentThrough_within (by decide) alike.some_ ?_ more
        simp only [Bool.false_eq_true, if_false] at short
        rw [room]
        omega
      rw [quoted_alike alike _ fun plain =>
        ⟨')', (closed plain []).2.subset List.mem_cons_self, by decide⟩]
      by_cases plain : (trimStart (cs.drop (nameExtent (cs ++ x) + 1) ++ x)).head?.any isQuote
      · rw [if_pos plain, if_pos plain]
      · rw [if_neg plain, if_neg plain, (closed (by simpa using plain) y).1]
    · rw [if_neg url, if_neg url]
  · rw [if_neg fun paren => first (both.mp paren), if_neg first]

/-! ### Where a number or a word begins -/

theorem not_isBlank_of_isDigit (digit : c.isDigit) : isBlank c = false := by
  by_contra blank
  rw [Bool.not_eq_false] at blank
  simp only [isBlank, Bool.or_eq_true, Bool.and_eq_true, decide_eq_true_eq, beq_iff_eq] at blank
  simp only [Char.isDigit, Bool.and_eq_true, decide_eq_true_eq] at digit
  simp only [Char.ext_iff, Char.le_def, UInt32.le_iff_toNat_le, ← UInt32.toNat_inj,
    UInt32.reduceToNat, Char.reduceVal] at blank digit
  omega

theorem startsUnsigned_cons (c : Char) (rest : List Char) :
    startsUnsigned (c :: rest) ↔ c.isDigit ∨ c = '.' ∧ startsDigit rest := by
  rw [startsUnsigned, startsDigit]
  simp

/-- A number begins with a digit, with a point before a digit, or with a sign before one of these. -/
theorem startsNumber_cons (c : Char) (rest : List Char) : startsNumber (c :: rest) ↔
    c.isDigit ∨ c = '.' ∧ startsDigit rest ∨ (c = '+' ∨ c = '-') ∧ startsUnsigned rest := by
  rw [startsNumber, Bool.or_eq_true, startsUnsigned_cons, or_assoc]
  simp

/-- Where a number begins, nothing else is tried. -/
theorem lexemeAt_number (starts : startsNumber (c :: rest)) : lexemeAt c rest = numeric (c :: rest) := by
  have first := (startsNumber_cons c rest).mp starts
  have solid : isBlank c = false ∧ '/' ≠ c ∧ '<' ≠ c := by
    rcases first with digit | ⟨rfl, -⟩ | ⟨rfl | rfl, -⟩
    · refine ⟨not_isBlank_of_isDigit digit, ?_, ?_⟩ <;> rintro rfl <;> cases digit
    all_goals decide
  have closes : "-->".toList.isPrefixOf (c :: rest) = false := by
    rcases first with digit | ⟨rfl, -⟩ | ⟨-, unsigned⟩
    · have other : '-' ≠ c := by
        rintro rfl
        cases digit
      simp [List.isPrefixOf, other]
    · rfl
    · -- Behind a sign there is a digit or a point, and no second dash.
      cases rest with
      | nil => cases unsigned
      | cons d rest =>
          have other : '-' ≠ d := by
            rintro rfl
            simp [startsUnsigned, startsDigit] at unsigned
          simp [List.isPrefixOf, other]
  obtain ⟨blank, slash, less⟩ := solid
  rw [lexemeAt, closes]
  simp [blank, List.isPrefixOf, slash, less, starts]

theorem not_isDigit_of_isNameStart (start : isNameStart c) : c.isDigit = false := by
  by_contra digit
  rw [Bool.not_eq_false] at digit
  have small : c.toNat < 0x80 := by
    simp only [Char.isDigit, Bool.and_eq_true, decide_eq_true_eq, UInt32.le_iff_toNat_le,
      UInt32.reduceToNat, Char.reduceVal] at digit
    exact lt_of_le_of_lt digit.2 (by decide)
  simp only [isNameStart, Bool.or_eq_true, beq_iff_eq, decide_eq_true_eq] at start
  rcases start with (letter | rfl) | large
  · simp [not_isDigit_of_isAlpha letter] at digit
  · cases digit
  · omega

/-- What begins a name or an escape begins no number. -/
theorem not_startsUnsigned_of_name (starts : startsEscape (c :: rest) ∨ isNameStart c ∨ c = '-') :
    startsUnsigned (c :: rest) = false := by
  by_contra unsigned
  rcases (startsUnsigned_cons c rest).mp (by simpa using unsigned) with digit | ⟨rfl, -⟩
  · rcases starts with escape | start | rfl
    · have other : c ≠ '\\' := by
        rintro rfl
        cases digit
      simp [startsEscape_of_ne other] at escape
    · simp [not_isDigit_of_isNameStart start] at digit
    · cases digit
  · simp [isNameStart, startsEscape] at starts

/-- No number begins where a word does. -/
theorem not_startsNumber_of_startsIdent (starts : startsIdent cs) : startsNumber cs = false := by
  rw [startsNumber_eq]
  match cs, starts with
  | c :: rest, starts =>
    by_cases dash : c = '-'
    · subst dash
      rw [startsIdent_dash] at starts
      cases rest with
      | nil => cases starts
      | cons d rest =>
          refine not_startsUnsigned_of_name ?_
          simpa using starts
    · rw [startsIdent_cons dash] at starts
      have other : c ≠ '+' := by
        rintro rfl
        simp [isNameStart, startsEscape] at starts
      have sign : signExtent (c :: rest) = 0 := by simp [signExtent, dash, other]
      rw [sign, List.drop_zero]
      refine not_startsUnsigned_of_name ?_
      simpa [dash, or_comm] using starts

/-- Where a word begins that does not close a comment of a page, nothing else is tried. -/
theorem lexemeAt_word (solid : isBlank c = false) (starts : startsIdent (c :: rest))
    (opens : ¬ "-->".toList <+: c :: rest) : lexemeAt c rest = identLike (c :: rest) := by
  have number := not_startsNumber_of_startsIdent starts
  have other : '/' ≠ c ∧ '<' ≠ c := by
    constructor <;> rintro rfl <;> simp [startsIdent, isNameStart, startsEscape] at starts
  rw [← List.isPrefixOf_iff_prefix] at opens
  rw [lexemeAt, if_neg opens]
  simp [solid, List.isPrefixOf, other, number, starts]

/-- A letter begins a name. -/
theorem lexemeAt_letter (letter : c.isAlpha) (rest : List Char) :
    lexemeAt c rest = identLike (c :: rest) := by
  have dash : c ≠ '-' := by
    rintro rfl
    cases letter
  have word : startsIdent (c :: rest) = true := by
    rw [startsIdent_cons dash]
    simp [isNameStart, letter]
  exact lexemeAt_word (not_isBlank_of_isAlpha letter) word fun opens =>
    dash (List.cons_prefix_cons.mp opens).1.symm

/-! ### Strings -/

section Strings

variable {q : Char}

theorem stringExtent_feed (q : Char) (cs : List Char) : stringExtent q ('\n' :: cs) = (0, false) := by
  cases cs <;> simp [stringExtent]

theorem stringExtent_escape (q d : Char) (cs : List Char) : stringExtent q ('\\' :: d :: cs) =
    ((stringExtent q cs).1 + 2, (stringExtent q cs).2) := by
  simp [stringExtent]

theorem stringExtent_close (quote : isQuote q) (cs : List Char) :
    stringExtent q (q :: cs) = (1, true) := by
  have plain : q ≠ '\n' ∧ q ≠ '\\' := by
    constructor <;> rintro rfl <;> cases quote
  cases cs <;> simp [stringExtent, plain]

theorem stringExtent_plain (feed : c ≠ '\n') (escape : c ≠ '\\') (other : c ≠ q) (cs : List Char) :
    stringExtent q (c :: cs) = ((stringExtent q cs).1 + 1, (stringExtent q cs).2) := by
  cases cs <;> simp [stringExtent, feed, escape, other]

/-- A string, by induction on it: a quote ends it, or a line feed that is still there. -/
theorem stringExtent_settled (some_ : x ≠ []) (quote : isQuote q) :
    ∀ cs, (stringExtent q (cs ++ x)).1 ≤ cs.length →
      (x.head? = some '\n' → y.head? = some '\n' ∨ (stringExtent q (cs ++ x)).2 ∨
        (stringExtent q (cs ++ x)).1 < cs.length) →
      stringExtent q (cs ++ y) = stringExtent q (cs ++ x)
  | [], within, line => by
      obtain ⟨d, more, rfl⟩ := List.exists_cons_of_ne_nil some_
      rw [List.nil_append] at within line ⊢
      rw [List.nil_append]
      by_cases feed : d = '\n'
      · subst feed
        rw [stringExtent_feed] at line ⊢
        have same : y.head? = some '\n' := by simpa using line rfl
        obtain ⟨more', rfl⟩ := List.head?_eq_some_iff.mp same
        exact stringExtent_feed q more'
      · have taken : 0 < (stringExtent q (d :: more)).1 := by
          cases more with
          | nil => simp [stringExtent, feed]
          | cons e more =>
              simp only [stringExtent, beq_iff_eq, feed, if_false]
              split_ifs <;> simp
        exact absurd within (by rw [List.length_nil]; omega)
  | c :: cs, within, line => by
      rw [List.cons_append] at within line ⊢
      rw [List.cons_append]
      by_cases feed : c = '\n'
      · subst feed
        rw [stringExtent_feed, stringExtent_feed]
      by_cases escape : c = '\\'
      · subst escape
        cases cs with
        | nil =>
            obtain ⟨d, more, rfl⟩ := List.exists_cons_of_ne_nil some_
            rw [List.nil_append, stringExtent_escape, List.length_singleton] at within
            dsimp only at within
            omega
        | cons d cs =>
            simp only [List.cons_append, stringExtent_escape, List.length_cons] at within line ⊢
            rw [stringExtent_settled some_ quote cs (by omega) (by simpa using line)]
      by_cases close : c = q
      · subst close
        rw [stringExtent_close quote, stringExtent_close quote]
      · simp only [stringExtent_plain feed escape close, List.length_cons] at within line ⊢
        rw [stringExtent_settled some_ quote cs (by omega) (by simpa using line)]

end Strings

/-! ### All of them -/

/-- One choice of the lexer, made alike for two texts. -/
theorem ite_alike {holds : TokenKind × Nat → Prop} {test test' : Prop} [Decidable test]
    [Decidable test'] {a a' b b' : TokenKind × Nat} (found : holds (if test then a else b))
    (same : (test → holds a) → (test' ↔ test)) (yes : test → holds a → a' = a)
    (no : ¬ test → holds b → b' = b) :
    (if test' then a' else b') = if test then a else b := by
  by_cases here : test
  · rw [if_pos here] at found ⊢
    rw [if_pos ((same fun _ => found).mpr here), yes here found]
  · rw [if_neg here] at found ⊢
    rw [if_neg (mt (same fun there => absurd there here).mp here), no here found]

/-- A sign of several characters begins in front of `y` where it does in front of `x`, if it does
not reach into `x`. -/
theorem sign_alike (alike : Alike x y) {sign : List Char} (some_ : cs ≠ [])
    (tails : ∀ part ∈ sign.tail.tails, part ≠ [] → part ∈ signTails)
    (within : sign <+: cs ++ x → sign.length ≤ cs.length) :
    sign.isPrefixOf (cs ++ y) ↔ sign.isPrefixOf (cs ++ x) := by
  by_cases short : sign.length ≤ cs.length
  · rw [isPrefixOf_alike (c := ' ') (.inl short)]
  · rw [List.isPrefixOf_iff_prefix, List.isPrefixOf_iff_prefix]
    refine iff_of_false (fun leads => ?_) fun leads => short (within leads)
    obtain ⟨part, rfl⟩ := List.prefix_of_prefix_length_le (List.prefix_append cs y) leads (by omega)
    rw [List.prefix_append_right_inj] at leads
    have some_' : part ≠ [] := by
      rintro rfl
      simp at short
    have ends : part <:+ (cs ++ part).tail := by
      rw [List.tail_append_of_ne_nil some_]
      exact List.suffix_append _ _
    have before := alike.tail part (tails part ((List.mem_tails part _).mpr ends) some_') leads
    exact short (within ((List.prefix_append_right_inj cs).mpr before))

/-- **A lexeme that ends before `x` ends before `y` as well**, if `y` holds nothing for it. -/
theorem lexemeAt_alike (alike : Alike x y) (c : Char) (rest : List Char)
    (feeds : Feeds x y (c :: rest)) (within : Within x y (c :: rest) (lexemeAt c (rest ++ x))) :
    lexemeAt c (rest ++ y) = lexemeAt c (rest ++ x) := by
  have some_ : c :: rest ≠ [] := List.cons_ne_nil c rest
  have here (z : List Char) : c :: (rest ++ z) = (c :: rest) ++ z := rfl
  simp only [lexemeAt, here] at within ⊢
  refine ite_alike within (fun _ => Iff.rfl) (fun _ within => ?_) fun _ within => ?_
  · obtain ⟨short, -, last⟩ := within
    rcases Nat.lt_or_eq_of_le short with inside | whole
    · rw [extentWhile_within inside]
    · have ends := last (List.drop_eq_nil_of_le whole.ge)
      rw [settled_extentWhile (ends.blank rfl) _ short]
  refine ite_alike within (fun comment => sign_alike alike some_ (by decide) fun leads => ?_)
    (fun comment within => ?_) fun _ within => ?_
  · have long := (comment (List.isPrefixOf_iff_prefix.mpr leads)).short
    exact (Nat.le_add_right 2 _).trans long
  · have two : 2 ≤ (c :: rest).length := (Nat.le_add_right 2 _).trans within.short
    have short := within.short
    have room := List.length_drop (l := c :: rest) (i := 2)
    rw [List.drop_append_of_le_length two] at short ⊢
    rw [List.drop_append_of_le_length two,
      (extentThrough_within (by decide) alike.some_ (by dsimp only at short; omega) y).1]
  refine ite_alike within (fun opens => sign_alike alike some_ (by decide) fun leads =>
    (opens (List.isPrefixOf_iff_prefix.mpr leads)).short) (fun _ _ => rfl) fun _ within => ?_
  refine ite_alike within (fun closes => sign_alike alike some_ (by decide) fun leads =>
    (closes (List.isPrefixOf_iff_prefix.mpr leads)).short) (fun _ _ => rfl) fun _ within => ?_
  refine ite_alike within (fun number => ?_) (fun _ => numeric_alike alike some_) fun _ within => ?_
  · rw [startsNumber_alike alike.numbers some_ fun starts =>
      (numberExtent_le_numeric _).trans (number starts).short]
  refine ite_alike within (fun word => ?_) (fun _ => identLike_alike alike) fun _ within => ?_
  · rw [startsIdent_alike alike _ (fun _ => feeds) fun starts =>
      (nameExtent_le_identLike _).trans (word starts).short]
  refine ite_alike within (fun _ => Iff.rfl) (fun quote within => ?_) fun _ within => ?_
  · obtain ⟨short, -, last⟩ := within
    rw [stringExtent_settled alike.some_ quote rest (Nat.succ_le_succ_iff.mp short) fun feed => ?_]
    rcases Nat.lt_or_eq_of_le (Nat.succ_le_succ_iff.mp short) with inside | whole
    · exact .inr (.inr inside)
    · have ends := last (List.drop_eq_nil_of_le (by rw [List.length_cons, whole]))
      refine (ends.line feed).imp_right fun closed => .inl ?_
      by_contra broken
      simp [broken] at closed
  have taken (n : Nat) : (c :: rest).drop (1 + n) = rest.drop n := by
    rw [Nat.add_comm, List.drop_succ_cons]
  have room : (c :: rest).length = rest.length + 1 := List.length_cons
  by_cases sharp : c = '#'
  · subst sharp
    have name : nameExtent (rest ++ y) = nameExtent (rest ++ x) := by
      by_cases none_ : nameExtent (rest ++ x) = 0
      · rw [if_neg (by simp [none_]), if_neg (by simp)] at within
        exact nameExtent_alike alike rest (by omega) (by simpa [none_] using within.feeds)
      · rw [if_pos (by simp [none_])] at within
        obtain ⟨short, feeds, -⟩ := within
        rw [taken] at feeds
        exact nameExtent_alike alike rest (by dsimp only at short; omega) feeds
    rw [name]
    rfl
  have plain : ∀ n : Nat, ¬ (c == '#' && n != 0) = true := by simp [sharp]
  rw [if_neg (plain _)] at within ⊢
  rw [if_neg (plain _)]
  by_cases keyword : c = '@'
  · subst keyword
    have starts : startsIdent (rest ++ y) = startsIdent (rest ++ x) := by
      refine startsIdent_alike alike rest (fun none_ => ?_) fun starts => ?_
      · rw [if_neg (by simp [none_])] at within
        simpa using within.feeds
      · rw [if_pos (by simp [starts])] at within
        have short := within.short
        dsimp only at short
        omega
    rw [starts]
    refine ite_alike within (fun _ => Iff.rfl) (fun _ within => ?_) fun _ _ => rfl
    obtain ⟨short, feeds, -⟩ := within
    rw [taken] at feeds
    rw [nameExtent_alike alike rest (by dsimp only at short; omega) feeds]
  · rw [if_neg (by simp [keyword]), if_neg (by simp [keyword])]

/-! ## Texts -/

section Texts

variable {piece : Lexeme TokenKind} {pieces later : List (Lexeme TokenKind)} {atHead : Bool}

/-- Two cuts of a text that take in as much of it are one. -/
theorem eq_of_texts {pieces' later' : List (Lexeme TokenKind)}
    (cuts : cut scan atHead cs = pieces ++ later) (cuts' : cut scan atHead cs = pieces' ++ later')
    (texts : (pieces.map Lexeme.text).flatten = (pieces'.map Lexeme.text).flatten) :
    pieces = pieces' := by
  have some_ := cut_text_ne_nil scan atHead cs
  have none_ : ∀ more : List (Lexeme TokenKind), (∀ piece ∈ more, piece.text ≠ []) →
      (more.map Lexeme.text).flatten = [] → more = [] := by
    intro more some_ empty
    cases more with
    | nil => rfl
    | cons piece more => simp_all
  rcases List.append_eq_append_iff.mp (cuts.symm.trans cuts') with ⟨more, rfl, rfl⟩ | ⟨more, rfl, rfl⟩
  · obtain rfl : more = [] := by
      refine none_ more (fun piece member => some_ piece ?_) (by simpa using texts.symm)
      rw [cuts]
      simp [member]
    rw [List.append_nil]
  · obtain rfl : more = [] := by
      refine none_ more (fun piece member => some_ piece ?_) (by simpa using texts)
      rw [cuts']
      simp [member]
    rw [List.append_nil]

/-- A backslash in front of a line feed is a lexeme of its own. -/
theorem cut_backslash (atHead : Bool) (more : List Char) :
    cut scan atHead ('\\' :: '\n' :: more) = ⟨.unknown, ['\\']⟩ :: cut scan false ('\n' :: more) := by
  rw [cut_cons]
  simp [scan, lexemeAt, isBlank, List.isPrefixOf, startsNumber, startsUnsigned, startsDigit,
    startsIdent, isNameStart, startsEscape, isQuote, signKind]

theorem cut_dash_backslash (atHead : Bool) (more : List Char) :
    cut scan atHead ('-' :: '\\' :: '\n' :: more) =
      ⟨.delim, ['-']⟩ :: ⟨.unknown, ['\\']⟩ :: cut scan false ('\n' :: more) := by
  rw [cut_cons, ← cut_backslash false]
  simp [scan, lexemeAt, isBlank, List.isPrefixOf, startsNumber, startsUnsigned, startsDigit,
    startsIdent, isNameStart, startsEscape, isQuote, signKind, isControl]

/-- What is left of a text has no backslash at its end that looks at a line feed, if its last lexeme
is no such backslash. -/
theorem feeds_of_cut {here : List Char} (cuts : cut scan atHead (here ++ x) = pieces ++ later)
    (texts : (pieces.map Lexeme.text).flatten = here)
    (last : ∀ piece ∈ pieces.getLast?, EndsBefore x y piece) : Feeds x y here := by
  intro feed
  by_contra! lost
  obtain ⟨gone, short⟩ := lost
  obtain ⟨more, rfl⟩ := List.head?_eq_some_iff.mp feed
  have ends : pieces.getLast? = some ⟨.unknown, ['\\']⟩ := by
    simp only [List.mem_cons, List.not_mem_nil, or_false] at short
    rcases short with rfl | rfl
    · have own : pieces = [⟨.unknown, ['\\']⟩] := eq_of_texts cuts (cut_backslash atHead more) texts
      rw [own]
      rfl
    · have own : pieces = [⟨.delim, ['-']⟩, ⟨.unknown, ['\\']⟩] :=
        eq_of_texts cuts (cut_dash_backslash atHead more) texts
      rw [own]
      rfl
  exact ((last _ ends).line feed).elim gone fun plain => plain.2 rfl

/-- The cut at a character, if it ends before `x`. -/
theorem scan_alike (alike : Alike x y) {rest : List Char} (feeds : Feeds x y (c :: rest))
    (short : (scan atHead c (rest ++ x)).more ≤ rest.length)
    (left : Feeds x y (rest.drop (scan atHead c (rest ++ x)).more))
    (last : rest.drop (scan atHead c (rest ++ x)).more = [] →
      EndsBefore x y ⟨(scan atHead c (rest ++ x)).kind, c :: rest⟩) :
    scan atHead c (rest ++ y) = scan atHead c (rest ++ x) := by
  by_cases first : atHead ∧ c = '\uFEFF'
  · simp [scan, first]
  · have seen (R : List Char) : scan atHead c R =
        ⟨(lexemeAt c R).1, (lexemeAt c R).2 - 1, false⟩ := by simp [scan, first]
    obtain ⟨n, extent⟩ := Nat.exists_eq_succ_of_ne_zero (lexemeAt_pos c (rest ++ x)).ne'
    simp only [seen, extent, Nat.succ_sub_one] at short left last ⊢
    rw [lexemeAt_alike alike c rest feeds, extent]
    rfl
    exact ⟨by rw [extent]; exact Nat.succ_le_succ short, by rwa [extent], fun whole =>
      last (by rwa [extent] at whole)⟩

/-- Behind its first lexeme a text is never at its head. -/
theorem state_scan (atHead : Bool) (c : Char) (rest : List Char) :
    (scan atHead c rest).state = false := by
  simp only [scan]
  split <;> rfl

/-- **What stands in front of `x` is cut the same in front of `y`**, if it is cut off before `x` and
its last lexeme ends before `y` as well. By induction on its lexemes. -/
theorem cut_alike (alike : Alike x y) (mark : atHead → pieces = [] → y.head? ≠ some '\uFEFF')
    (last : ∀ piece ∈ pieces.getLast?, EndsBefore x y piece)
    (cuts : cut scan atHead (cs ++ x) = pieces ++ later)
    (texts : (pieces.map Lexeme.text).flatten = cs) :
    cut scan atHead (cs ++ y) = pieces ++ cut scan false y := by
  induction pieces generalizing atHead cs with
  | nil =>
      obtain rfl : cs = [] := texts.symm
      cases atHead with
      | false => rfl
      | true => exact cut_head fun c first same => mark rfl rfl (same ▸ first)
  | cons piece pieces ih =>
      have some_ := cut_text_ne_nil scan atHead (cs ++ x)
      rw [cuts, List.cons_append, List.forall_mem_cons] at some_
      have feeds := feeds_of_cut cuts texts last
      rw [List.map_cons, List.flatten_cons] at texts
      have last' : ∀ piece ∈ pieces.getLast?, EndsBefore x y piece := by
        intro p member
        exact last p (by rw [List.getLast?_cons, Option.mem_def.mp member]; rfl)
      cases cs with
      | nil => exact absurd (List.append_eq_nil_iff.mp texts).1 some_.1
      | cons c rest =>
          rw [List.cons_append, cut_cons, List.cons_append, List.cons.injEq] at cuts
          obtain ⟨own, left⟩ := cuts
          have short : (scan atHead c (rest ++ x)).more ≤ rest.length := by
            have count := congrArg List.length texts
            have some_ := List.length_pos_of_ne_nil alike.some_
            simp only [← own, List.length_append, List.length_cons, List.length_take] at count
            omega
          rw [List.take_append_of_le_length short] at own
          rw [List.drop_append_of_le_length short] at left
          have inner : (pieces.map Lexeme.text).flatten =
              rest.drop (scan atHead c (rest ++ x)).more := by
            have parted := List.take_append_drop (scan atHead c (rest ++ x)).more rest
            rw [← own, List.cons_append, List.cons.injEq] at texts
            exact List.append_cancel_left (texts.2.trans parted.symm)
          have same : scan atHead c (rest ++ y) = scan atHead c (rest ++ x) := by
            refine scan_alike alike feeds short (feeds_of_cut left inner last') fun whole => ?_
            rw [whole] at inner
            obtain rfl : pieces = [] := by
              cases pieces with
              | nil => rfl
              | cons piece pieces =>
                  exact absurd (List.append_eq_nil_iff.mp inner).1 (some_.2 piece (by simp))
            have all : rest.take (scan atHead c (rest ++ x)).more = rest := by
              rw [← List.append_nil (rest.take _), ← whole, List.take_append_drop]
            rw [all] at own
            exact last _ (by rw [own]; rfl)
          have behind := state_scan atHead c (rest ++ x)
          rw [List.cons_append, cut_cons, same, List.take_append_of_le_length short, own,
            List.drop_append_of_le_length short, ih (by simp [behind]) last' left inner,
            List.cons_append]

/-- What follows some lexemes is cut by itself. -/
theorem cut_split (cuts : cut scan atHead cs = pieces ++ later) (some_ : pieces ≠ []) :
    cut scan false ((later.map Lexeme.text).flatten) = later := by
  induction pieces generalizing atHead cs with
  | nil => exact absurd rfl some_
  | cons piece pieces ih =>
      cases cs with
      | nil => simp at cuts
      | cons c rest =>
          rw [cut_cons, state_scan, List.cons_append, List.cons.injEq] at cuts
          rcases eq_or_ne pieces [] with rfl | more
          · have whole := texts_cut scan false (rest.drop (scan atHead c rest).more)
            rw [cuts.2, List.nil_append] at whole
            rw [whole, cuts.2, List.nil_append]
          · exact ih cuts.2 more

end Texts

/-! ## Texts that hold nothing for what stands in front -/

section Beginnings

variable {a b : List Char}

/-- Goes on with no lexeme, and begins nothing that one looks for. -/
def isInert (c : Char) : Bool :=
  !isNameChar c && c ∉ ['\\', '+', '.', '%', '(', '*', '!', '>']

theorem alike_of_inert (inert : isInert c) (some_ : x ≠ [])
    (quote : (trimStart x).head?.any isQuote → (trimStart (c :: b)).head?.any isQuote) :
    Alike x (c :: b) := by
  simp only [isInert, Bool.and_eq_true, Bool.not_eq_true', decide_eq_true_eq, List.mem_cons,
    List.not_mem_nil, or_false, not_or] at inert
  obtain ⟨name, backslash, plus, point, percent, paren, star, bang, greater⟩ := inert
  have start : isNameStart c = false := by
    by_contra start
    simp [isNameChar_of_isNameStart (by simpa using start)] at name
  have digit : c.isDigit = false := by
    by_contra digit
    simp [isNameChar, digit] at name
  have dash : c ≠ '-' := by
    rintro rfl
    cases name
  have letter : c ≠ 'e' ∧ c ≠ 'E' := by
    constructor <;> rintro rfl <;> cases name
  have escape : startsEscape (c :: b) = false := startsEscape_of_ne backslash b
  have sign : signExtent (c :: b) = 0 := by simp [signExtent, plus, dash]
  have other : ∀ part ∈ signTails, ¬ part <+: c :: b := by
    simp [signTails, star, bang, dash, greater, eq_comm]
  exact
    { some_ := some_
      name := by simp [name]
      escape := by simp [escape]
      ident := by simp [startsIdent_cons dash, start, escape]
      dashed := by simp [startsIdent_dash, start, escape, dash]
      digit := by simp [startsDigit, digit]
      signed := by simp [sign, startsDigit, digit]
      fraction := by simp [fractionExtent, point]
      exponent := by simp [exponentExtent_cons, letter]
      sign := by simp [percent, paren]
      tail := fun part member leads => absurd leads (other part member)
      quote := quote }

/-- Two texts that begin with the same two letters, the first of which begins no exponent. -/
theorem alike_of_letters (alpha : c.isAlpha) (letter : c ≠ 'e' ∧ c ≠ 'E') (d : Char) :
    Alike (c :: d :: a) (c :: d :: b) := by
  have plain : c ≠ '\\' ∧ c ≠ '.' ∧ c ≠ '+' ∧ c ≠ '-' ∧ c ≠ '*' ∧ c ≠ '!' ∧ c ≠ '>' := by
    refine ⟨?_, ?_, ?_, ?_, ?_, ?_, ?_⟩ <;> rintro rfl <;> cases alpha
  obtain ⟨backslash, point, plus, dash, star, bang, greater⟩ := plain
  have start : isNameStart c := by simp [isNameStart, alpha]
  have other : ∀ part ∈ signTails, ¬ part <+: c :: d :: b := by
    simp [signTails, star, bang, dash, greater, eq_comm]
  have word : trimStart (c :: d :: a) = c :: d :: a := by
    simp [trimStart, trimStartBy, not_isBlank_of_isAlpha alpha]
  have quote : isQuote c = false := by
    have other : c ≠ '"' ∧ c ≠ '\'' := by
      constructor <;> rintro rfl <;> cases alpha
    simp [isQuote, other]
  exact
    { some_ := List.cons_ne_nil _ _
      name := id
      escape := by simp [startsEscape_cons]
      ident := by simp [startsIdent_cons dash, start]
      dashed := by simp [startsIdent_dash, start]
      digit := id
      signed := by simp [signExtent, plus, dash, startsDigit]
      fraction := by simp [fractionExtent, point]
      exponent := by simp [exponentExtent_cons, letter]
      sign := fun _ _ first => first
      tail := fun part member leads => absurd leads (other part member)
      quote := by simp [word, quote] }

end Beginnings

end PageLint.Css
