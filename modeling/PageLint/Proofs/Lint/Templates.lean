/-
# PageLint.Proofs.Lint.Templates — messages filled one slot after the other

A template says where texts are to be put: `fillAtOnce` puts them there, all at once. `fillTemplate`
takes the slots one after the other, and looks for each in what the ones before have left. No slot of
the template is lost by that, but new ones may come about, in what was put in and where it meets the
text around it.

What is filled one after the other is filled at once as long as that does not happen
(`Slots.Named.atOnce_iff`), and it does not if opening braces stand in the slots only
(`fillTemplate_of_tidy`).
-/
import PageLint.Lint.Rule
import PageLint.Proofs.Text.Extent
import Mathlib.Data.List.Perm.Basic
import Mathlib.Data.List.Nodup
import Mathlib.Tactic.Linarith

namespace PageLint

set_option autoImplicit false

open Text

/-- A slot of a template: the name in braces. -/
def slot (name : String) : List Char := '\x7b' :: name.toList ++ ['\x7d']

/-- A name that may stand in a slot: it holds no brace. -/
def IsSlotName (name : String) : Prop := '\x7b' ∉ name.toList ∧ '\x7d' ∉ name.toList

instance (name : String) : Decidable (IsSlotName name) := inferInstanceAs (Decidable (_ ∧ _))

/-- Fills all slots of a template at once. What is put in is not looked at again. -/
def fillAtOnce (slots : Slots) (template : List Char) : List Char :=
  match template with
  | [] => []
  | c :: rest =>
    match slots.find? fun s => (slot s.1).isPrefixOf (c :: rest) with
    | some (name, value) => value ++ fillAtOnce slots (rest.drop (name.toList.length + 1))
    | none => c :: fillAtOnce slots rest
termination_by template.length
decreasing_by all_goals (simp only [List.length_drop, List.length_cons]; omega)

/-- How often the slot of this name stands in a text. -/
def slotCount (name : String) : List Char → Nat
  | [] => 0
  | c :: rest => (if (slot name).isPrefixOf (c :: rest) then 1 else 0) + slotCount name rest

/-- The slots have names that may stand in slots, and no two of them the same. -/
structure Slots.Named (slots : Slots) : Prop where
  names : ∀ s ∈ slots, IsSlotName s.1
  distinct : (slots.map Prod.fst).Nodup

variable {slots front : Slots} {name other : String} {value text text' rest x template : List Char}
  {c : Char} {n : Nat}

/-! ## Slots in a text -/

theorem slot_append (name : String) (rest : List Char) :
    slot name ++ rest = '\x7b' :: (name.toList ++ '\x7d' :: rest) := by
  simp [slot]

theorem length_slot (name : String) : (slot name).length = name.toList.length + 2 := by
  simp [slot]

/-- At one place there is one slot only. -/
theorem eq_of_slot_leads (isName : IsSlotName name) (isName' : IsSlotName other)
    (leads : slot other <+: slot name ++ rest) : other = name := by
  obtain ⟨more, same⟩ := leads
  rw [slot_append, slot_append, List.cons.injEq] at same
  have inside : ∀ (word : String) (after : List Char), '\x7d' ∉ word.toList →
      (word.toList ++ '\x7d' :: after).takeWhile (· != '\x7d') = word.toList := by
    intro word after plain
    refine takeWhile_append_stop (fun c member => ?_) (by simp)
    rw [bne_iff_ne]
    rintro rfl
    exact plain member
  have texts := congrArg (List.takeWhile (· != '\x7d')) same.2
  rw [inside other more isName'.2, inside name rest isName.2] at texts
  exact String.toList_inj.mp texts

theorem slot_not_leads (plain : c ≠ '\x7b') : ¬ slot name <+: c :: rest := by
  rintro ⟨more, same⟩
  rw [slot_append] at same
  exact plain (List.cons.inj same).1.symm

theorem slotCount_of_not_leads (other : ¬ slot name <+: c :: rest) :
    slotCount name (c :: rest) = slotCount name rest := by
  rw [slotCount, if_neg (fun leads => other (List.isPrefixOf_iff_prefix.mp leads)), Nat.zero_add]

theorem slotCount_append (plain : '\x7b' ∉ x) : slotCount name (x ++ rest) = slotCount name rest := by
  induction x with
  | nil => rfl
  | cons c x ih =>
      rw [List.mem_cons, not_or] at plain
      rw [List.cons_append, slotCount_of_not_leads (slot_not_leads (Ne.symm plain.1)), ih plain.2]

theorem slotCount_slot (isName : IsSlotName name) (rest : List Char) :
    slotCount name (slot name ++ rest) = slotCount name rest + 1 := by
  have leads : slot name <+: slot name ++ rest := List.prefix_append _ _
  have within : slotCount name (name.toList ++ '\x7d' :: rest) = slotCount name rest := by
    rw [slotCount_append isName.1, slotCount_of_not_leads (slot_not_leads (by decide))]
  rw [slot_append] at leads ⊢
  rw [slotCount, if_pos (List.isPrefixOf_iff_prefix.mpr leads), within, Nat.add_comm]

theorem slotCount_other (isName : IsSlotName name) (isName' : IsSlotName other) (different : other ≠ name)
    (rest : List Char) : slotCount other (slot name ++ rest) = slotCount other rest := by
  have not_leads : ¬ slot other <+: slot name ++ rest := fun leads =>
    different (eq_of_slot_leads isName isName' leads)
  rw [slot_append] at not_leads ⊢
  rw [slotCount_of_not_leads not_leads, slotCount_append isName.1,
    slotCount_of_not_leads (slot_not_leads (by decide))]

/-! ## Filling at once -/

theorem Slots.Named.find?_eq_some_iff (named : slots.Named) (s : String × List Char) :
    (slots.find? fun s => (slot s.1).isPrefixOf text) = some s ↔ s ∈ slots ∧ slot s.1 <+: text := by
  have leads : ∀ {u}, (slots.find? fun s => (slot s.1).isPrefixOf text) = some u →
      slot u.1 <+: text := fun found => by simpa using List.find?_some found
  constructor
  · intro found
    exact ⟨List.mem_of_find?_eq_some found, leads found⟩
  · rintro ⟨member, own⟩
    cases found : slots.find? fun s => (slot s.1).isPrefixOf text with
    | none => exact absurd (List.isPrefixOf_iff_prefix.mpr own) (List.find?_eq_none.mp found s member)
    | some u =>
        have member' := List.mem_of_find?_eq_some found
        have own' := leads found
        obtain ⟨more, rfl⟩ := own
        have same := eq_of_slot_leads (named.names s member) (named.names u member') own'
        exact congrArg some (List.inj_on_of_nodup_map named.distinct member' member same)

/-- A slot is filled with its text. -/
theorem Slots.Named.fillAtOnce_slot (named : slots.Named) (member : (name, value) ∈ slots)
    (rest : List Char) : fillAtOnce slots (slot name ++ rest) = value ++ fillAtOnce slots rest := by
  have found := (named.find?_eq_some_iff (name, value)).mpr ⟨member, List.prefix_append (slot name) rest⟩
  rw [slot_append] at found ⊢
  rw [fillAtOnce, found]
  simp

/-- Where no slot begins the text stays. -/
theorem fillAtOnce_cons (none_ : ∀ s ∈ slots, ¬ slot s.1 <+: c :: rest) :
    fillAtOnce slots (c :: rest) = c :: fillAtOnce slots rest := by
  have found : (slots.find? fun s => (slot s.1).isPrefixOf (c :: rest)) = none := by
    refine List.find?_eq_none.mpr fun s member leads => ?_
    exact none_ s member (List.isPrefixOf_iff_prefix.mp leads)
  rw [fillAtOnce, found]

theorem fillAtOnce_append (plain : '\x7b' ∉ x) (rest : List Char) :
    fillAtOnce slots (x ++ rest) = x ++ fillAtOnce slots rest := by
  induction x with
  | nil => rfl
  | cons c x ih =>
      rw [List.mem_cons, not_or] at plain
      have none_ : ∀ s ∈ slots, ¬ slot s.1 <+: c :: (x ++ rest) := fun s _ =>
        slot_not_leads (Ne.symm plain.1)
      rw [List.cons_append, fillAtOnce_cons none_, ih plain.2, List.cons_append]

/-- The slot of another name stays. -/
theorem Slots.Named.fillAtOnce_other (named : slots.Named) (isName : IsSlotName name)
    (absent : name ∉ slots.map Prod.fst) (rest : List Char) :
    fillAtOnce slots (slot name ++ rest) = slot name ++ fillAtOnce slots rest := by
  have none_ : ∀ s ∈ slots, ¬ slot s.1 <+: slot name ++ rest := by
    intro s member leads
    have same := eq_of_slot_leads isName (named.names s member) leads
    exact absent (same ▸ List.mem_map_of_mem member)
  have close : '\x7b' ∉ ['\x7d'] := by decide
  rw [slot_append] at none_
  rw [slot_append, slot_append, fillAtOnce_cons none_, fillAtOnce_append isName.1]
  exact congrArg (_ :: name.toList ++ ·) (fillAtOnce_append close rest)

theorem fillAtOnce_nil (text : List Char) : fillAtOnce [] text = text := by
  induction text with
  | nil => rw [fillAtOnce]
  | cons c rest ih => rw [fillAtOnce_cons (by simp), ih]

/-- How a template is made up for named slots: of slots, and of signs where none begins. -/
theorem Slots.Named.induction {motive : List Char → Prop} (named : slots.Named) (nil : motive [])
    (filled : ∀ name value rest, (name, value) ∈ slots → motive rest → motive (slot name ++ rest))
    (kept : ∀ c rest, (∀ s ∈ slots, ¬ slot s.1 <+: c :: rest) → motive rest → motive (c :: rest))
    (template : List Char) : motive template := by
  fun_induction fillAtOnce slots template with
  | case1 => exact nil
  | case2 c rest name value found ih =>
      obtain ⟨member, more, whole⟩ := (named.find?_eq_some_iff (name, value)).mp found
      rw [← whole]
      refine filled name value more member ?_
      have later : rest.drop (name.toList.length + 1) = more := by
        rw [slot_append, List.cons.injEq] at whole
        rw [← whole.2]
        simp
      rwa [later] at ih
  | case3 c rest found ih =>
      refine kept c rest (fun s member leads => ?_) ih
      exact List.find?_eq_none.mp found s member (List.isPrefixOf_iff_prefix.mpr leads)

theorem Slots.Named.sublist (named : slots.Named) (fewer : front.Sublist slots) : front.Named where
  names s member := named.names s (fewer.subset member)
  distinct := named.distinct.sublist (fewer.map Prod.fst)

theorem Slots.Named.perm (named : slots.Named) (same : front.Perm slots) : front.Named where
  names s member := named.names s (same.subset member)
  distinct := (same.map Prod.fst).nodup_iff.mpr named.distinct

/-- The last name is none of those before it. -/
theorem Slots.Named.absent (named : Slots.Named (front ++ [(name, value)])) :
    name ∉ front.map Prod.fst := by
  have distinct := named.distinct
  rw [List.map_append, List.nodup_append] at distinct
  intro early
  exact distinct.2.2 name early name (by simp) rfl

/-- **The order of the slots does not matter** if they are filled at once. -/
theorem Slots.Named.fillAtOnce_perm (named : slots.Named) (same : front.Perm slots)
    (template : List Char) : fillAtOnce front template = fillAtOnce slots template := by
  induction template using named.induction with
  | nil => rw [fillAtOnce, fillAtOnce]
  | filled name value rest member ih =>
      rw [named.fillAtOnce_slot member, (named.perm same).fillAtOnce_slot (same.mem_iff.mpr member), ih]
  | kept c rest none_ ih =>
      rw [fillAtOnce_cons none_, fillAtOnce_cons fun s member => none_ s (same.subset member), ih]

/-! ## Some of the slots filled -/

/-- The second text is the first one with `n` places filled where `old` stands. -/
inductive PartlyFilled (old new : List Char) : Nat → List Char → List Char → Prop
  | nil : PartlyFilled old new 0 [] []
  | kept {n : Nat} {text text' : List Char} (c : Char) : PartlyFilled old new n text text' →
    PartlyFilled old new n (c :: text) (c :: text')
  | filled {n : Nat} {text text' : List Char} : PartlyFilled old new n text text' →
    PartlyFilled old new (n + 1) (old ++ text) (new ++ text')

namespace PartlyFilled

theorem append (x : List Char) (partly : PartlyFilled (slot name) value n text text') :
    PartlyFilled (slot name) value n (x ++ text) (x ++ text') := by
  induction x with
  | nil => exact partly
  | cons c x ih => exact ih.kept c

theorem le_slotCount (partly : PartlyFilled (slot name) value n text text') (isName : IsSlotName name) :
    n ≤ slotCount name text := by
  induction partly with
  | nil => exact le_rfl
  | kept c _ ih => exact ih.trans (Nat.le_add_left _ _)
  | filled _ ih =>
      rw [slotCount_slot isName]
      omega

/-- What is filled grows by what is put in, and shrinks by the slots. -/
theorem length_eq (partly : PartlyFilled (slot name) value n text text') :
    text'.length + n * (slot name).length = text.length + n * value.length := by
  induction partly with
  | nil => rw [Nat.zero_mul, Nat.zero_mul]
  | kept c _ ih =>
      rw [List.length_cons, List.length_cons]
      omega
  | @filled n text text' _ ih =>
      rw [List.length_append, List.length_append, Nat.add_mul, Nat.add_mul]
      omega

/-- What holds no opening brace stays at the head. -/
theorem exists_append (partly : PartlyFilled (slot name) value n (x ++ rest) text')
    (plain : '{' ∉ x) : ∃ more, text' = x ++ more := by
  induction x generalizing text' with
  | nil => exact ⟨text', rfl⟩
  | cons c x ih =>
      rw [List.mem_cons, not_or] at plain
      rw [List.cons_append] at partly
      generalize whole : c :: (x ++ rest) = text at partly
      cases partly with
      | nil => cases whole
      | kept d partly =>
          obtain ⟨rfl, rfl⟩ := List.cons.inj whole
          obtain ⟨more, rfl⟩ := ih partly plain.2
          exact ⟨more, rfl⟩
      | filled partly =>
          rw [slot_append] at whole
          exact absurd (List.cons.inj whole).1.symm plain.1

end PartlyFilled

theorem named_single (isName : IsSlotName name) (value : List Char) :
    Slots.Named [(name, value)] where
  names := by simp [isName]
  distinct := List.nodup_singleton _

/-- All places of one slot, filled. -/
theorem partlyFilled_all (isName : IsSlotName name) (value text : List Char) :
    PartlyFilled (slot name) value (slotCount name text) text (fillAtOnce [(name, value)] text) := by
  have named := named_single isName value
  induction text using named.induction with
  | nil =>
      rw [fillAtOnce]
      exact .nil
  | filled other value' rest member ih =>
      obtain ⟨rfl, rfl⟩ := Prod.mk.inj (List.mem_singleton.mp member)
      rw [slotCount_slot isName, named.fillAtOnce_slot member]
      exact ih.filled
  | kept c rest none_ ih =>
      rw [slotCount_of_not_leads (none_ _ List.mem_cons_self), fillAtOnce_cons none_]
      exact ih.kept c

namespace PartlyFilled

/-- Where all places are filled. -/
theorem eq_of_all (partly : PartlyFilled (slot name) value n text text') (isName : IsSlotName name)
    (all : slotCount name text = n) : fillAtOnce [(name, value)] text = text' := by
  have named := named_single isName value
  induction partly with
  | nil => rw [fillAtOnce]
  | @kept n text text' c partly ih =>
      have none_ : ¬ slot name <+: c :: text := by
        intro leads
        have within := partly.le_slotCount isName
        rw [slotCount, if_pos (List.isPrefixOf_iff_prefix.mpr leads)] at all
        omega
      rw [slotCount_of_not_leads none_] at all
      rw [fillAtOnce_cons (by simpa using none_), ih all]
  | @filled n text text' partly ih =>
      rw [slotCount_slot isName, Nat.add_right_cancel_iff] at all
      rw [named.fillAtOnce_slot List.mem_cons_self, ih all]

/-- Where a slot is filled with itself. -/
theorem eq_self {old : List Char} (partly : PartlyFilled old old n text text') : text' = text := by
  induction partly with
  | nil => rfl
  | kept c _ ih => rw [ih]
  | filled _ ih => rw [ih]

/-- A place that is left shows the slot where it would have been filled. -/
theorem eq_slot (partly : PartlyFilled (slot name) value n text text') (isName : IsSlotName name)
    (alike : value.length = (slot name).length) (left : n < slotCount name text)
    (same : fillAtOnce [(name, value)] text = text') : value = slot name := by
  have named := named_single isName value
  induction partly with
  | nil => cases left
  | @kept n text text' c partly ih =>
      by_cases leads : slot name <+: c :: text
      · obtain ⟨rest, whole⟩ := leads
        have tail : '\x7b' ∉ name.toList ++ ['\x7d'] := by simp [isName.1]
        rw [← whole, named.fillAtOnce_slot List.mem_cons_self] at same
        rw [slot_append, List.cons.injEq] at whole
        obtain ⟨rfl, rfl⟩ := whole
        rw [← List.singleton_append, ← List.append_assoc] at partly
        obtain ⟨more, rfl⟩ := partly.exists_append tail
        exact List.append_inj_left same alike
      · rw [slotCount_of_not_leads leads] at left
        rw [fillAtOnce_cons (by simpa using leads)] at same
        exact ih left (List.cons.inj same).2
  | @filled n text text' partly ih =>
      rw [slotCount_slot isName] at left
      rw [named.fillAtOnce_slot List.mem_cons_self] at same
      exact ih (by omega) (List.append_cancel_left same)

/-- **Filled in part is filled in full just if no place is left**, or filling it changes nothing. -/
theorem fillAtOnce_eq_iff (partly : PartlyFilled (slot name) value n text text')
    (isName : IsSlotName name) :
    fillAtOnce [(name, value)] text = text' ↔ slotCount name text = n ∨ value = slot name := by
  constructor
  · intro same
    by_cases all : slotCount name text = n
    · exact .inl all
    have within := partly.le_slotCount isName
    have length := partly.length_eq
    have length' := (partlyFilled_all isName value text).length_eq
    obtain ⟨left, count⟩ := Nat.exists_eq_add_of_le within
    rw [same, count, Nat.add_mul, Nat.add_mul] at length'
    have balanced : left * value.length = left * (slot name).length := by omega
    have alike := Nat.eq_of_mul_eq_mul_left (by omega) balanced
    exact .inr (partly.eq_slot isName alike (by omega) same)
  · rintro (all | same)
    · exact partly.eq_of_all isName all
    · subst same
      rw [partly.eq_self, (partlyFilled_all isName _ text).eq_self]

end PartlyFilled

/-! ## One slot after the other -/

/-- To replace a slot is to fill it. -/
theorem replace_slot (isName : IsSlotName name) (value text : List Char) :
    replace (slot name) value text = fillAtOnce [(name, value)] text := by
  have named := named_single isName value
  show replace.go '\x7b' (name.toList ++ ['\x7d']) value text = _
  induction text using named.induction with
  | nil => rw [replace.go, fillAtOnce]
  | filled other value' rest member ih =>
      obtain ⟨rfl, rfl⟩ := Prod.mk.inj (List.mem_singleton.mp member)
      have leads : (slot other).isPrefixOf (slot other ++ rest) :=
        List.isPrefixOf_iff_prefix.mpr (List.prefix_append _ _)
      have later : (other.toList ++ '\x7d' :: rest).drop (other.toList ++ ['\x7d']).length = rest := by
        simp
      rw [named.fillAtOnce_slot List.mem_cons_self, ← ih]
      rw [slot_append] at leads ⊢
      rw [replace.go, later]
      exact if_pos leads
  | kept c rest none_ ih =>
      have passes : ¬ (slot name).isPrefixOf (c :: rest) := fun leads =>
        none_ _ List.mem_cons_self (List.isPrefixOf_iff_prefix.mp leads)
      rw [fillAtOnce_cons none_, ← ih, replace.go]
      exact if_neg passes

theorem fillTemplate_concat (front : Slots) (name : String) (value template : List Char) :
    fillTemplate template (front ++ [(name, value)]) =
      replace (slot name) value (fillTemplate template front) := by
  rw [fillTemplate, List.foldl_append]
  rfl

/-- What is filled at once with one slot more is filled in part, in the places of the template. -/
theorem Slots.Named.partlyFilled (named : Slots.Named (front ++ [(name, value)]))
    (template : List Char) : PartlyFilled (slot name) value (slotCount name template)
      (fillAtOnce front template) (fillAtOnce (front ++ [(name, value)]) template) := by
  have isName : IsSlotName name := named.names (name, value) (by simp)
  have before := named.sublist (List.sublist_append_left front _)
  have absent := named.absent
  induction template using named.induction with
  | nil =>
      rw [fillAtOnce, fillAtOnce]
      exact .nil
  | filled other value' rest member ih =>
      rw [named.fillAtOnce_slot member]
      rcases List.mem_append.mp member with early | last
      · have different : name ≠ other := by
          rintro rfl
          exact absent (List.mem_map_of_mem early)
        have isName' := named.names _ member
        rw [slotCount_other isName' isName different, before.fillAtOnce_slot early]
        exact ih.append value'
      · obtain ⟨rfl, rfl⟩ := Prod.mk.inj (List.mem_singleton.mp last)
        rw [slotCount_slot isName, before.fillAtOnce_other isName absent]
        exact ih.filled
  | kept c rest none_ ih =>
      rw [slotCount_of_not_leads (none_ (name, value) (by simp)), fillAtOnce_cons none_,
        fillAtOnce_cons fun s member => none_ s (List.mem_append_left _ member)]
      exact ih.kept c

/-- Each slot, when its turn comes, stands where the template has it and nowhere else, or is filled with
itself. -/
def Slots.Settled (slots : Slots) (template : List Char) : Prop :=
  ∀ i, (h : i < slots.length) →
    slotCount slots[i].1 (fillAtOnce (slots.take i) template) = slotCount slots[i].1 template ∨
      slots[i].2 = slot slots[i].1

instance (slots : Slots) (template : List Char) : Decidable (slots.Settled template) :=
  inferInstanceAs (Decidable (∀ i, (h : i < slots.length) → _ ∨ _))

/-- One slot more is filled at once with those before it just if it is settled. -/
theorem Slots.Named.replace_eq_iff (named : Slots.Named (front ++ [(name, value)]))
    (template : List Char) : replace (slot name) value (fillAtOnce front template) =
        fillAtOnce (front ++ [(name, value)]) template ↔
      slotCount name (fillAtOnce front template) = slotCount name template ∨ value = slot name := by
  have isName : IsSlotName name := named.names (name, value) (by simp)
  rw [replace_slot isName]
  exact (named.partlyFilled template).fillAtOnce_eq_iff isName

/-- The slots up to one, and that one. -/
theorem Slots.take_succ (slots : Slots) {i : Nat} (h : i < slots.length) :
    slots.take (i + 1) = slots.take i ++ [(slots[i].1, slots[i].2)] :=
  List.take_succ_eq_append_getElem h

/-- **One slot after the other is all at once as long as every slot is settled.** -/
theorem Slots.Named.atOnce_iff (named : slots.Named) (template : List Char) :
    (∀ i ≤ slots.length, fillTemplate template (slots.take i) = fillAtOnce (slots.take i) template) ↔
      slots.Settled template := by
  have step : ∀ i, (h : i < slots.length) → fillTemplate template (slots.take (i + 1)) =
      replace (slot slots[i].1) slots[i].2 (fillTemplate template (slots.take i)) := by
    intro i h
    rw [slots.take_succ h]
    exact fillTemplate_concat _ _ _ _
  have next : ∀ i, (h : i < slots.length) → (replace (slot slots[i].1) slots[i].2
        (fillAtOnce (slots.take i) template) = fillAtOnce (slots.take (i + 1)) template ↔
      slotCount slots[i].1 (fillAtOnce (slots.take i) template) = slotCount slots[i].1 template ∨
        slots[i].2 = slot slots[i].1) := by
    intro i h
    have parted := slots.take_succ h
    rw [parted]
    exact (parted ▸ named.sublist (List.take_sublist (i + 1) slots)).replace_eq_iff template
  constructor
  · intro atOnce i h
    refine (next i h).mp ?_
    rw [← atOnce i h.le, ← step i h, atOnce (i + 1) h]
  · intro settled i within
    induction i with
    | zero =>
        rw [List.take_zero, fillAtOnce_nil]
        rfl
    | succ i ih =>
        rw [step i within, ih (Nat.le_of_succ_le within), (next i within).mpr (settled i within)]

/-! ## Where opening braces stand in slots only -/

/-- The same slots, to be filled with nothing. -/
def Slots.emptied (slots : Slots) : Slots := slots.map fun s => (s.1, [])

theorem Slots.Named.emptied (named : slots.Named) : slots.emptied.Named where
  names s member := by
    obtain ⟨u, original, rfl⟩ := List.mem_map.mp member
    exact named.names u original
  distinct := by
    rw [Slots.emptied, List.map_map]
    exact named.distinct

/-- Filling some slots brings no other about, if neither what is put in nor what stands around the slots
holds an opening brace. -/
theorem Slots.Named.slotCount_eq (named : slots.Named) (values : ∀ s ∈ slots, '\x7b' ∉ s.2)
    (tidy : '\x7b' ∉ fillAtOnce slots.emptied template) (fewer : front.Sublist slots)
    (member : (name, value) ∈ slots) (absent : name ∉ front.map Prod.fst) :
    slotCount name (fillAtOnce front template) = slotCount name template := by
  have isName : IsSlotName name := named.names _ member
  have before := named.sublist fewer
  induction template using named.induction with
  | nil => rw [fillAtOnce]
  | filled other value' rest found ih =>
      have isName' : IsSlotName other := named.names _ found
      rw [named.emptied.fillAtOnce_slot (List.mem_map_of_mem found)] at tidy
      by_cases early : (other, value') ∈ front
      · have different : name ≠ other := by
          rintro rfl
          exact absent (List.mem_map_of_mem early)
        rw [before.fillAtOnce_slot early, slotCount_append (values _ found),
          slotCount_other isName' isName different, ih tidy]
      · have late : other ∉ front.map Prod.fst := by
          intro among
          obtain ⟨u, inFront, same⟩ := List.mem_map.mp among
          have own : u = (other, value') :=
            List.inj_on_of_nodup_map named.distinct (fewer.subset inFront) found same
          exact early (own ▸ inFront)
        rw [before.fillAtOnce_other isName' late]
        by_cases same : name = other
        · subst same
          rw [slotCount_slot isName, slotCount_slot isName, ih tidy]
        · rw [slotCount_other isName' isName same, slotCount_other isName' isName same, ih tidy]
  | kept c rest none_ ih =>
      have emptied : ∀ s ∈ slots.emptied, ¬ slot s.1 <+: c :: rest := by
        intro s isEmptied
        obtain ⟨u, original, rfl⟩ := List.mem_map.mp isEmptied
        exact none_ u original
      rw [fillAtOnce_cons emptied, List.mem_cons, not_or] at tidy
      rw [fillAtOnce_cons fun s inFront => none_ s (fewer.subset inFront),
        slotCount_of_not_leads (slot_not_leads (Ne.symm tidy.1)),
        slotCount_of_not_leads (none_ _ member), ih tidy.2]

/-- **A tidy template is filled at once**: where opening braces stand in its slots only, and in none of
what is put in. -/
theorem fillTemplate_of_tidy (named : slots.Named) (values : ∀ s ∈ slots, '\x7b' ∉ s.2)
    (tidy : '\x7b' ∉ fillAtOnce slots.emptied template) :
    fillTemplate template slots = fillAtOnce slots template := by
  have settled : slots.Settled template := by
    intro i h
    have member : (slots[i].1, slots[i].2) ∈ slots := List.getElem_mem h
    have first := named.sublist (List.take_sublist (i + 1) slots)
    rw [slots.take_succ h] at first
    exact .inl (named.slotCount_eq values tidy (List.take_sublist i slots) member first.absent)
  have whole := (named.atOnce_iff template).mpr settled slots.length le_rfl
  rwa [List.take_length] at whole

/-! ## Templates -/

/-- **Templates are filled at once as long as no slot comes about.** What is filled one slot after the
other is, after each of them, the template with the slots so far filled at once, if and only if no slot
finds more places than the template has for it. What is filled at once does not depend on the order. -/
theorem fillTemplate_atOnce (named : slots.Named) (template : List Char) :
    ((∀ i ≤ slots.length, fillTemplate template (slots.take i) =
        fillAtOnce (slots.take i) template) ↔ slots.Settled template) ∧
      ∀ other : Slots, other.Perm slots → fillAtOnce other template = fillAtOnce slots template := by
  constructor
  · exact named.atOnce_iff template
  · intro other same
    exact named.fillAtOnce_perm same template

/-- Two slots, filled in either order. -/
theorem fillTemplate_atOnce_either :
    let template := "'\x7bname\x7d' should be '\x7bfixed\x7d'".toList
    let slots : Slots := [("name", "DIV".toList), ("fixed", "div".toList)]
    slots.Named ∧ fillTemplate template slots = "'DIV' should be 'div'".toList ∧
      fillTemplate template slots.reverse = "'DIV' should be 'div'".toList := by
  intro template slots
  have named : slots.Named := ⟨by decide, by decide⟩
  have named' : Slots.Named slots.reverse := named.perm (List.reverse_perm slots)
  have said : fillAtOnce slots template = "'DIV' should be 'div'".toList := by decide +kernel
  refine ⟨named, ?_, ?_⟩
  · have settled : slots.Settled template := by decide +kernel
    exact ((fillTemplate_atOnce named template).1.mpr settled 2 le_rfl).trans said
  · have settled : Slots.Settled slots.reverse template := by decide +kernel
    have first := (fillTemplate_atOnce named' template).1.mpr settled 2 le_rfl
    exact first.trans (((fillTemplate_atOnce named template).2 _ (List.reverse_perm slots)).trans said)

/-- **What is put in is looked at again**: it may be a slot that comes later, and then the order tells. -/
theorem fillTemplate_refills :
    let template := "\x7ba\x7d".toList
    let slots : Slots := [("a", "\x7bb\x7d".toList), ("b", "c".toList)]
    slots.Named ∧ (∀ s ∈ slots, s.1 ≠ "") ∧ fillAtOnce slots template = "\x7bb\x7d".toList ∧
      fillTemplate template slots = "c".toList ∧
      fillTemplate template slots.reverse = "\x7bb\x7d".toList := by
  intro template slots
  refine ⟨⟨by decide, by decide⟩, by decide, ?_, ?_, ?_⟩ <;> decide +kernel

end PageLint
