/-
# PageLint.Proofs.Rules.Tokens — where rules on stylesheets find things

A rule on a stylesheet points at a token, at a part of the text of one, at neighbouring
tokens together, or at the gap between two stretches. Tokens that are read in a passage
make all of these stretches of the passage: the contents of a string and of a `url(...)`
stand inside their token (`covers_stringValue`, `covers_urlValue?`), neighbours are joined,
and a gap is only pointed at where there is something in it or where its ends are in order.

`CoversAll g found` says that all of some findings lie in the passage; it goes through
every way in which findings are put together.
-/
import PageLint.Proofs.Html.Building
import PageLint.Lint.StyleGuide

namespace PageLint.Rules

set_option autoImplicit false

open Text

/-- Every finding lies in the passage. -/
def CoversAll (g : Passage) (found : List Finding) : Prop := ∀ f ∈ found, g.Covers f.span

variable {g : Passage} {t : CssToken} {ts rest : List CssToken} {s : Span}

theorem coversAll_nil : CoversAll g [] := by simp [CoversAll]

theorem coversAll_singleton {f : Finding} (covered : g.Covers f.span) : CoversAll g [f] :=
  List.forall_mem_singleton.mpr covered

theorem CoversAll.append {found more : List Finding} (first : CoversAll g found)
    (second : CoversAll g more) : CoversAll g (found ++ more) :=
  List.forall_mem_append.mpr ⟨first, second⟩

theorem coversAll_flatMap {α : Type} {xs : List α} {find : α → List Finding}
    (each : ∀ x ∈ xs, CoversAll g (find x)) : CoversAll g (xs.flatMap find) := by
  intro f member
  obtain ⟨x, found, inside⟩ := List.mem_flatMap.mp member
  exact each x found f inside

theorem coversAll_filterMap {α : Type} {xs : List α} {find : α → Option Finding}
    (each : ∀ x ∈ xs, ∀ f ∈ find x, g.Covers f.span) : CoversAll g (xs.filterMap find) := by
  intro f member
  obtain ⟨x, found, same⟩ := List.mem_filterMap.mp member
  exact each x found f same

theorem coversAll_toList {found : Option Finding} (covered : ∀ f ∈ found, g.Covers f.span) :
    CoversAll g found.toList := by
  intro f member
  exact covered f (Option.mem_toList.mp member)

/-! ## Strings and addresses -/

theorem covers_stringValue (shown : g.Shows t.span t.text) : g.Covers (stringValue t).2 := by
  rw [stringValue]
  split
  · exact shown.covers
  next quote body text =>
    have holds := shown.1
    rw [text] at holds
    have inside := holds.tail
    dsimp only
    cases strip : stripTail [quote] body with
    | none => exact inside.covers
    | some inner => exact (inside.leading (stripTail_leads strip)).covers

/-- The address stands in its token after `url(` and the white space there. -/
theorem covers_urlValue? (shown : g.Shows t.span t.text) :
    ∀ found ∈ urlValue? t, g.Covers found.2 := by
  intro found member
  simp only [urlValue?] at member
  obtain ⟨more, whole⟩ := getD_stripTail_leads [')'] (t.text.drop 4)
  generalize (stripTail [')'] (t.text.drop 4)).getD (t.text.drop 4) = inner at member whole
  split at member
  · simp at member
  next some_ =>
    rw [← Option.some.inj member]
    have long : 4 ≤ t.text.length := by
      by_contra short
      have none_ : t.text.drop 4 = [] := List.drop_eq_nil_of_le (by omega)
      rw [none_] at whole
      have empty : inner = [] := (List.append_eq_nil_iff.mp whole).1
      exact some_ (by rw [empty]; rfl)
    have parted : t.text = (t.text.take 4 ++ inner.takeWhile isBlank) ++
        (inner.dropWhile isBlank ++ more) := by
      rw [List.append_assoc, ← List.append_assoc (inner.takeWhile isBlank),
        List.takeWhile_append_dropWhile, whole, List.take_append_drop]
    have lead : t.text.take (4 + (inner.takeWhile isBlank).length) =
        t.text.take 4 ++ inner.takeWhile isBlank := by
      conv_lhs => rw [parted]
      apply List.take_left'
      rw [List.length_append, List.length_take]
      omega
    have holds := shown.1
    rw [parted] at holds
    rw [lead]
    exact (holds.right.left.leading (trimEndBy_leads isBlank _)).covers

theorem urlArgument?_mem {arg : CssToken} (argument : urlArgument? t rest = some arg) :
    arg ∈ rest := by
  rw [urlArgument?] at argument
  split at argument
  · exact List.mem_of_find?_eq_some (Option.filter_eq_some_iff.mp argument).1
  · simp at argument

theorem covers_urlArguments (reads : g.Reads ts) :
    ∀ found ∈ urlArguments ts, g.Covers found.2 := by
  induction ts with
  | nil => simp [urlArguments]
  | cons t rest ih =>
      have tail : g.Reads rest := reads.sublist (List.sublist_cons_self _ _)
      rw [urlArguments]
      intro found member
      rcases List.mem_append.mp member with own | later
      · rw [Option.mem_toList] at own
        split at own
        · exact covers_urlValue? (reads.shows t List.mem_cons_self) found own
        · obtain ⟨arg, argument, rfl⟩ := Option.map_eq_some_iff.mp own
          exact covers_stringValue (tail.shows arg (urlArgument?_mem argument))
      · exact ih tail found later

/-! ## Neighbours -/

theorem glued?_mem {next : CssToken} (glued : glued? t rest = some next) : next ∈ rest :=
  List.mem_of_mem_head? (Option.filter_eq_some_iff.mp glued).1

theorem className?_mem {name : CssToken} (named : className? t rest = some name) :
    name ∈ rest := by
  rw [className?] at named
  split at named
  · exact glued?_mem (Option.filter_eq_some_iff.mp named).1
  · simp at named

/-- A site and the tokens after it are tokens of the list. -/
theorem sitesOutsideBrackets_sublist (inside : Bool) (before : Option CssToken)
    (ts : List CssToken) :
    ∀ site ∈ sitesOutsideBrackets inside before ts, (site.here :: site.after).Sublist ts := by
  induction ts generalizing inside before with
  | nil => simp [sitesOutsideBrackets]
  | cons t rest ih =>
      intro site member
      rw [sitesOutsideBrackets] at member
      split at member
      · exact (ih _ _ site member).trans (List.sublist_cons_self _ _)
      split at member
      · exact (ih _ _ site member).trans (List.sublist_cons_self _ _)
      split at member
      · exact (ih _ _ site member).trans (List.sublist_cons_self _ _)
      · rcases List.mem_cons.mp member with rfl | later
        · exact List.Sublist.refl _
        · exact (ih _ _ site later).trans (List.sublist_cons_self _ _)

theorem Site.reads {selector : Css.Selector} {site : Site} (reads : g.Reads selector.tokens)
    (member : site ∈ sitesOf selector) : g.Reads (site.here :: site.after) :=
  reads.sublist (sitesOutsideBrackets_sublist false none selector.tokens site member)

/-- A gap with something in it runs forward. -/
theorem covers_gap {cs : List Char} {p q : Position} (here : (Passage.whole cs).Marks p)
    (there : (Passage.whole cs).Marks q) (some_ : Source.slice ⟨cs⟩ ⟨p, q⟩ ≠ []) :
    (Passage.whole cs).Covers ⟨p, q⟩ := by
  refine here.covers there ?_
  by_contra backward
  exact some_ (Source.slice_of_lt (by simpa using backward))

end PageLint.Rules
