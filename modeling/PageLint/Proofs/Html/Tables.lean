/-
# PageLint.Proofs.Html.Tables — tables without end tags

`Draft.writeBare` writes a draft with every end tag left out. Where a draft ends, the elements on
its last branch are still open: its `spine`, innermost first. The next start tag has to end all
of them and nothing outside, and then the tree is recovered. `Draft.Bare` asks this of any two
neighbours and of every element and its children.

The invariant of the reading is `Builder.Leaves`: elements of known names are open above a
builder, and once they have ended, the builder has got just the nodes that were meant
(`Draft.Bare.readBare`). An end tag, if one comes at last, ends the rest with its element
(`Builder.Leaves.close`).

A table is such a draft: cells end at cells, rows and sections, rows at rows and sections, and
sections at the sections that may follow them (`table_recovered`).
-/
import PageLint.Proofs.Html.RoundTrip
import PageLint.Proofs.Html.Ends

namespace PageLint

set_option autoImplicit false

open Text

namespace Html

/-! ## Drafts without end tags -/

namespace Draft

mutual

/-- A draft, written out without end tags. -/
def writeBare : Draft → List Char
  | .element name attributes children => writeOpening name attributes ++ writeBareAll children
  | .text t => t
  | .comment body => writeComment body

/-- Drafts without end tags, one after the other. -/
def writeBareAll : List Draft → List Char
  | [] => []
  | d :: ds => d.writeBare ++ writeBareAll ds

end

mutual

/-- The names of the elements that a draft without end tags leaves open, innermost first. -/
def spine : Draft → List (List Char)
  | .element name _ children => spineFrom [] children ++ [name]
  | _ => []

/-- The names of the elements that are open after some drafts, the ones before them having left
open what they did. -/
def spineFrom (before : List (List Char)) : List Draft → List (List Char)
  | [] => before
  | d :: ds => spineFrom d.spine ds

end

/-- The draft begins with a start tag that ends each of these elements. -/
def EndsAll (d : Draft) (names : List (List Char)) : Prop :=
  ∀ name ∈ names, ∃ incoming ∈ d.name?, closedBy name incoming

/-- Neighbours that can be told apart: they are not both texts, and the second one ends all that
the first one leaves open. -/
structure Parted (d e : Draft) : Prop where
  apart : d.Apart e
  ends : e.EndsAll d.spine

/-- **Drafts that can be read back without their end tags.** -/
inductive Bare : Draft → Prop
  | text {t : List Char} : t ≠ [] → '<' ∉ t → Bare (.text t)
  | comment {body : List Char} : ¬ "-->".toList <:+: body → Bare (.comment body)
  | element {name : List Char} {attributes : List (List Char × List Char)}
      {children : List Draft} :
      IsTagName name → (∀ a ∈ attributes, IsAttribute a) → name ∉ voidElements →
      name ∉ unparsedElements → (∀ child ∈ children, child.Bare) → children.IsChain Parted →
      (∀ child ∈ children, ∀ incoming ∈ child.name?, closedBy name incoming = false) →
      Bare (.element name attributes children)

/-- A node says what a draft says, and no element in it has an end tag. -/
inductive ShownBare : Draft → Node → Prop
  | text {t : List Char} {u : TextNode} : u.text = t → ShownBare (.text t) (.text u)
  | comment {body : List Char} {c : Verbatim} :
      c.text = writeComment body → ShownBare (.comment body) (.comment c)
  | element {name : List Char} {attributes : List (List Char × List Char)}
      {children : List Draft} {tag : StartTag} {nodes : List Node} {span : Span} :
      tag.name = name →
      tag.attributes.map Attribute.meaning = attributes.map (fun a => (a.1, some a.2, .double)) →
      List.Forall₂ ShownBare children nodes →
      ShownBare (.element name attributes children) (.element tag nodes none span)

end Draft

/-! ## What is left open -/

namespace Builder

variable {b b' : Builder} {nodes : List Node} {names : List (List Char)} {name : List Char}
  {cap : Option Nat}

theorem closeMany_succ (n : Nat) (b : Builder) :
    closeMany (n + 1) b = (closeMany n b).closeTop none := by
  induction n generalizing b with
  | zero => rfl
  | succ n ih => rw [closeMany, ih, ← closeMany]

theorem names_foldl_append (nodes : List Node) (b : Builder) :
    (nodes.foldl append b).names = b.names := by
  induction nodes generalizing b with
  | nil => rfl
  | cons node nodes ih => rw [List.foldl_cons, ih, names, tags_append, ← names]

/-- Above `b` elements of these names are open, innermost first, and nothing is flattened; once
they have ended, `b` has got these nodes. -/
structure Leaves (b : Builder) (nodes : List Node) (open_ : List (List Char)) (b' : Builder) :
    Prop where
  flattened : b'.flattened = []
  names : b'.names = open_ ++ b.names
  settled : closeMany open_.length b' = nodes.foldl append b

theorem Leaves.nothing (none_ : b.flattened = []) : Leaves b [] [] b := ⟨none_, rfl, rfl⟩

/-- Where nothing is left open, a node is put beside the others. -/
theorem Leaves.append (leaves : Leaves b nodes [] b') (node : Node) :
    Leaves b (nodes ++ [node]) [] (b'.append node) where
  flattened := (flattened_append b' node).trans leaves.flattened
  names := by
    have same : b'.names = b.names := leaves.names
    rw [Builder.names, tags_append, ← Builder.names, same]
    rfl
  settled := by
    have same : b' = nodes.foldl Builder.append b := leaves.settled
    rw [same, List.foldl_append]
    rfl

/-- A start tag that ends all that is left open, and nothing outside, leaves the nodes alone. -/
theorem Leaves.closeImplied (leaves : Leaves b nodes names b') {incoming : List Char}
    (ends : ∀ name ∈ names, closedBy name incoming)
    (keeps : ∀ tag ∈ b.tags.head?, closedBy tag.name incoming = false) :
    b'.closeImplied incoming = nodes.foldl Builder.append b := by
  have outer : ∀ name ∈ b.names.head?, closedBy name incoming = false := by
    intro name member
    rw [Builder.names, List.head?_map] at member
    obtain ⟨tag, first, rfl⟩ := Option.map_eq_some_iff.mp member
    exact keeps tag first
  have run : (b'.names.takeWhile (closedBy · incoming)).length = names.length := by
    rw [leaves.names, takeWhile_append_stop ends outer]
  have ended : (b'.stack.takeWhile fun e => closedBy e.tag.name incoming).length = names.length := by
    rw [← run, names_eq, List.takeWhile_map, List.length_map]
    rfl
  have none_ := leaves.flattened
  obtain ⟨stack, top, flattened⟩ := b'
  cases none_
  rw [← leaves.settled, ← ended]
  rfl

/-- An element whose end tag is left out joins those that its content leaves open. -/
theorem Leaves.element {tag : StartTag} {content : List Node}
    (leaves : Leaves ((nodes.foldl Builder.append b).push tag) content names b') :
    ∃ span, Leaves b (nodes ++ [.element tag content none span]) (names ++ [tag.name]) b' := by
  let ended := OpenElement.close ⟨tag, content.reverse⟩ none
  have shape : ended = .element tag content none ended.span := by
    simp [ended, OpenElement.close, Node.span]
  refine ⟨ended.span, leaves.flattened, ?_, ?_⟩
  · have pushed : ((nodes.foldl Builder.append b).push tag).names =
        tag.name :: (nodes.foldl Builder.append b).names := rfl
    rw [leaves.names, pushed, names_foldl_append]
    simp
  · rw [← shape, List.length_append, List.length_singleton, closeMany_succ, leaves.settled,
      foldl_append_push, List.foldl_append]
    rfl

/-- **An end tag ends the element that it names with all that is left open in it**, and nothing
is wrong if these are elements whose end tag may be left out. -/
theorem Leaves.close {tag : StartTag} (leaves : Leaves (b.push tag) nodes names b')
    (named : tag.name = name) (solid : name ∉ voidElements) (isName : IsTagName name)
    (inner : ∀ other ∈ names, other ≠ name ∧ other ∈ optionalEndTag) (span : Span) :
    b'.close ⟨.tagClose, writeClosing name, span⟩ =
      (b.append (.element tag nodes (some span) ⟨tag.span.start, span.finish⟩), []) := by
  have whole : (writeClosing name).getLast? = some '>' :=
    List.getLast?_concat (l := '<' :: '/' :: name)
  have solid' : voidElements.contains name = false := by simpa using solid
  have stack : b'.stack.map (·.tag.name) = names ++ name :: b.names := by
    rw [← names_eq, leaves.names, ← named]
    rfl
  have passed : (b'.stack.takeWhile (·.tag.name != name)).map (·.tag.name) = names := by
    have run : (names ++ name :: b.names).takeWhile (· != name) = names :=
      takeWhile_append_stop (fun other member => by simpa using (inner other member).1) (by simp)
    rwa [← stack, List.takeWhile_map] at run
  have ended : (b'.stack.takeWhile (·.tag.name != name)).length = names.length := by
    rw [← passed, List.length_map]
  have more : names.length ≠ b'.stack.length := by
    have total := congrArg List.length stack
    simp only [List.length_map, List.length_append, List.length_cons] at total
    omega
  have missing : missingEnds .notClosed (b'.stack.takeWhile (·.tag.name != name)) = [] := by
    refine List.map_eq_nil_iff.mpr (List.filter_eq_nil_iff.mpr ?_)
    intro e member
    have optional := (inner e.tag.name (passed ▸ List.mem_map_of_mem member)).2
    simpa using optional
  have settled := leaves.settled
  have none_ := leaves.flattened
  simp only [Builder.close, endTagName_closing isName, whole, solid', none_, ended, more, missing]
  obtain ⟨stack', top, flattened⟩ := b'
  cases none_
  simp only [settled, foldl_append_push, closeTop, OpenElement.close, List.reverse_reverse]
  simp [Builder.append]

end Builder

/-! ## Drafts without end tags, read back -/

section ReadBare

variable {d : Draft} {ds : List Draft} {rest : List Char}

/-- What comes next may belong to the draft: it is a text, or leaves elements open. -/
def Draft.GoesOn (d : Draft) : Prop := d.IsText ∨ d.spine ≠ []

/-- **Reading a draft without end tags adds one node that shows it**, above any builder that is
ready for the draft, once what was left open there has ended; its own spine is left open. -/
def Draft.ReadBare (d : Draft) : Prop :=
  ∀ (cap : Option Nat) (b b' : Builder) (older : List Node) (before : List (List Char))
    (p : Position) (rest : List Char), b.Ready cap d → b.Leaves older before b' →
    d.EndsAll before → (d.GoesOn → AtMarkup rest) →
    ∃ node b'', d.ShownBare node ∧ b.Leaves (older ++ [node]) d.spine b'' ∧
      b'.read cap .content p (d.writeBare ++ rest) =
        b''.read cap .content (p.after d.writeBare) rest

/-- Where nothing may be left open, nothing is. -/
theorem Draft.EndsAll.nil {names : List (List Char)} (ends : d.EndsAll names)
    (unnamed : d.name? = none) : names = [] := by
  refine List.eq_nil_iff_forall_not_mem.mpr ?_
  intro name member
  obtain ⟨incoming, named, -⟩ := ends name member
  rw [unnamed] at named
  cases named

/-- All that is not a text begins with markup. -/
theorem Draft.Bare.startsMarkup (bare : d.Bare) (other : ¬ d.IsText) (rest : List Char) :
    startsMarkup (d.writeBare ++ rest) := by
  cases bare with
  | text _ _ => exact absurd trivial other
  | comment _ => rfl
  | element isName _ _ _ _ _ _ =>
      obtain ⟨c, more, rfl, letter⟩ := isName.letter
      simp [Draft.writeBare, writeOpening, Html.startsMarkup, letter]

/-- Drafts that are read back each by itself are read back one after the other, and the spine of
the last one is left open. -/
theorem readBareAll (bare : ∀ d ∈ ds, d.Bare) (each : ∀ d ∈ ds, d.ReadBare)
    (parted : ds.IsChain Draft.Parted) (ends : AtMarkup rest) {cap : Option Nat} {b b' : Builder}
    {older : List Node} {before : List (List Char)} (p : Position)
    (ready : ∀ d ∈ ds, b.Ready cap d) (leaves : b.Leaves older before b')
    (first : ∀ d ∈ ds.head?, d.EndsAll before) :
    ∃ nodes b'', List.Forall₂ Draft.ShownBare ds nodes ∧
      b.Leaves (older ++ nodes) (Draft.spineFrom before ds) b'' ∧
      b'.read cap .content p (Draft.writeBareAll ds ++ rest) =
        b''.read cap .content (p.after (Draft.writeBareAll ds)) rest := by
  induction ds generalizing b' older before p with
  | nil =>
      refine ⟨[], b', .nil, ?_, rfl⟩
      rwa [List.append_nil]
  | cons d ds ih =>
      rw [List.forall_mem_cons] at bare each ready
      have follows : d.GoesOn → AtMarkup (Draft.writeBareAll ds ++ rest) := by
        intro goesOn
        cases ds with
        | nil => exact ends
        | cons e ds =>
            have next := (List.isChain_cons_cons.mp parted).1
            have other : ¬ e.IsText := by
              intro also
              have unnamed : e.name? = none := by
                cases e with
                | text t => rfl
                | comment body => rfl
                | element name attributes children => exact also.elim
              rcases goesOn with isText | some_
              · exact next.apart ⟨isText, also⟩
              · exact some_ (next.ends.nil unnamed)
            rw [Draft.writeBareAll, List.append_assoc]
            exact .inr ((bare.2 e List.mem_cons_self).startsMarkup other _)
      obtain ⟨node, b'', shown, left, here⟩ := each.1 cap b b' older before p
        (Draft.writeBareAll ds ++ rest) ready.1 leaves (first d rfl) follows
      have next : ∀ e ∈ ds.head?, e.EndsAll d.spine := by
        intro e head
        obtain ⟨more, rfl⟩ := List.head?_eq_some_iff.mp head
        exact (List.isChain_cons_cons.mp parted).1.ends
      obtain ⟨nodes, b''', others, left', later⟩ :=
        ih bare.2 each.2 parted.tail (p.after d.writeBare) ready.2 left next
      refine ⟨node :: nodes, b''', .cons shown others, ?_, ?_⟩
      · rwa [List.append_assoc] at left'
      · rw [Draft.writeBareAll, List.append_assoc, here, later, ← Position.after_append]

/-- A builder that is ready for a draft stays so when nodes are put into it. -/
theorem Builder.Ready.foldl_append {cap : Option Nat} {b : Builder} (ready : b.Ready cap d)
    (nodes : List Node) : (nodes.foldl Builder.append b).Ready cap d := by
  induction nodes generalizing b with
  | nil => exact ready
  | cons node nodes ih => exact ih (ready.append node)

/-- **Every bare draft is read back.** The induction is on what makes it bare. -/
theorem Draft.Bare.readBare (bare : d.Bare) : d.ReadBare := by
  induction bare with
  | text some_ plain =>
      intro cap b b' older before p rest _ leaves ends stops
      obtain rfl := ends.nil rfl
      obtain ⟨raw, takes⟩ := b'.takeIn_text (t := ⟨.text, _, .covering p _⟩) (.inr rfl)
      exact ⟨_, _, .text rfl, leaves.append _,
        Builder.read_single cap (cut_text some_ plain (stops (.inl trivial))) nofun takes⟩
  | @comment body open_ =>
      intro cap b b' older before p rest _ leaves ends _
      obtain rfl := ends.nil rfl
      have takes := b'.takeIn_comment body (.covering p (writeComment body))
      exact ⟨_, _, .comment rfl, leaves.append _,
        Builder.read_single cap (cut_comment open_ rest) nofun takes⟩
  | @element name attributes children isName good solid parsed bare parted keeps ih =>
      intro cap b b' older before p rest ready leaves ends stops
      obtain ⟨tag, means, opening⟩ := Builder.read_opening isName good cap p
      have inside := ready.foldl_append older
      have ended : b'.closeImplied tag.name = older.foldl Builder.append b := by
        rw [means.name]
        refine leaves.closeImplied ?_ (ready.keeps name rfl)
        intro other member
        obtain ⟨incoming, named, closed⟩ := ends other member
        cases named
        exact closed
      have kept : (older.foldl Builder.append b).closeImplied tag.name =
          older.foldl Builder.append b := by
        rw [means.name]
        exact Builder.closeImplied_eq_self inside.flattened (inside.keeps name rfl)
      have opened : b'.openTag cap tag = ((older.foldl Builder.append b).push tag, []) := by
        rw [← inside.openTag means solid, Builder.openTag, Builder.openTag, ended, kept]
      have markup : AtMarkup rest := stops (.inr (by simp [Draft.spine]))
      obtain ⟨nodes, b'', shown, left, content⟩ := readBareAll bare ih parted markup
        (p.after (writeOpening name attributes))
        (fun child member => inside.push means solid member (keeps child member))
        (.nothing inside.flattened) (by simp [Draft.EndsAll])
      obtain ⟨span, settled⟩ := Builder.Leaves.element left
      refine ⟨.element tag nodes none span, b'', .element means.name means.attributes shown, ?_, ?_⟩
      · rwa [means.name] at settled
      · rw [Draft.writeBare, List.append_assoc, opening b' _ _ opened, modeAfterTag_parsed parsed,
          content, ← Position.after_append]

/-- **An element with an end tag whose content has none** is read back as it was meant, if what
its content leaves open may go without an end tag. -/
theorem readClosed {name : List Char} {attributes : List (List Char × List Char)}
    (isName : IsTagName name) (good : ∀ a ∈ attributes, IsAttribute a) (solid : name ∉ voidElements)
    (parsed : name ∉ unparsedElements) (bare : ∀ d ∈ ds, d.Bare) (parted : ds.IsChain Draft.Parted)
    (keeps : ∀ d ∈ ds, ∀ incoming ∈ d.name?, closedBy name incoming = false)
    (inner : ∀ other ∈ Draft.spineFrom [] ds, other ≠ name ∧ other ∈ optionalEndTag)
    {cap : Option Nat} {b : Builder} (ready : b.Ready cap (.element name attributes ds))
    (p : Position) (rest : List Char) :
    ∃ tag nodes endTag span, tag.Means name attributes ∧ List.Forall₂ Draft.ShownBare ds nodes ∧
      b.read cap .content p
          (writeOpening name attributes ++ (Draft.writeBareAll ds ++ (writeClosing name ++ rest))) =
        (b.append (.element tag nodes (some endTag) span)).read cap .content
          (((p.after (writeOpening name attributes)).after (Draft.writeBareAll ds)).after
            (writeClosing name)) rest := by
  obtain ⟨tag, means, opening⟩ := Builder.read_opening isName good cap p
  have markup : AtMarkup (writeClosing name ++ rest) := .inr rfl
  obtain ⟨nodes, b', shown, leaves, content⟩ := readBareAll bare
    (fun d member => (bare d member).readBare) parted markup (p.after (writeOpening name attributes))
    (fun d member => ready.push means solid member (keeps d member)) (.nothing ready.flattened)
    (by simp [Draft.EndsAll])
  let own : Span := .covering
    ((p.after (writeOpening name attributes)).after (Draft.writeBareAll ds)) (writeClosing name)
  have closed := leaves.close means.name solid isName inner own
  refine ⟨tag, nodes, own, ⟨tag.span.start, own.finish⟩, means, shown, ?_⟩
  rw [opening b _ _ (ready.openTag means solid), modeAfterTag_parsed parsed, content]
  exact Builder.read_single cap (cut_closing isName rest) nofun closed

/-- A page that is read without a fault is made of the nodes that were put together. -/
theorem page_of_read {cs : List Char} {nodes : List Node} {p : Position}
    (noMark : cs.head? ≠ some '\uFEFF')
    (read : Builder.empty.read (some depthCap) .content .start cs =
      (nodes.foldl Builder.append .empty).read (some depthCap) .content p []) :
    (Page.ofText cs).issues = [] ∧ (Page.ofText cs).nodes = nodes := by
  have run : Builder.empty.run (some depthCap) (Markup.ofTokens (tokenize cs)) =
      (⟨[], nodes.reverse, []⟩, []) := by
    rw [tokenize, lexemes, cut_head noMark]
    rw [Builder.read, Builder.read, cut_nil, locate, Markup.ofTokens, Builder.run, Builder.empty,
      foldl_append_top, List.append_nil] at read
    exact read
  have built : buildTree (some depthCap) (tokenize cs) = (nodes, []) := by
    simp [buildTree, run, Builder.finish, Builder.closeMany, Builder.missingEnds]
  simp only [Page.ofText, built]
  exact ⟨trivial, trivial⟩

end ReadBare

/-! ## Tables -/

/-- A cell of a table: whether it is a header, and its text. -/
structure Cell where
  header : Bool
  text : List Char

/-- The name of its element. -/
def Cell.name (c : Cell) : List Char := if c.header then "th" else "td"

/-- A table: the rows of its head, of each of its bodies and of its foot, with their cells. -/
structure Table where
  head : Option (List (List Cell))
  bodies : List (List (List Cell))
  foot : Option (List (List Cell))

namespace Table

/-- A cell holds its text, if that is not empty. -/
def cell (c : Cell) : Draft :=
  .element c.name [] (if c.text = [] then [] else [.text c.text])

/-- A row holds its cells. -/
def row (cells : List Cell) : Draft := .element "tr" [] (cells.map cell)

/-- A section holds its rows. -/
def part (name : List Char) (rows : List (List Cell)) : Draft := .element name [] (rows.map row)

/-- The sections of a table, in order. -/
def parts (t : Table) : List Draft :=
  t.head.toList.map (part "thead") ++ (t.bodies.map (part "tbody") ++ t.foot.toList.map (part "tfoot"))

/-- All cells of a table. -/
def cells (t : Table) : List Cell := (t.head.toList ++ (t.bodies ++ t.foot.toList)).flatten.flatten

/-- A table, written out with its own end tag alone. -/
def write (t : Table) : List Char :=
  writeOpening "table" [] ++ (Draft.writeBareAll t.parts ++ writeClosing "table")

/-- The names of a table and of its parts. -/
def partNames : List (List Char) := words ["table", "thead", "tbody", "tfoot", "tr", "td", "th"]

theorem isTagName_of_mem {name : List Char} (known : name ∈ partNames) :
    IsTagName name ∧ name ∉ voidElements ∧ name ∉ unparsedElements := by
  have each : ∀ name ∈ partNames, (name ≠ [] ∧ name.all Char.isAlpha ∧ lowerAscii name = name) ∧
      name ∉ voidElements ∧ name ∉ unparsedElements := by decide
  obtain ⟨⟨some_, letters, small⟩, others⟩ := each name known
  exact ⟨.of_letters some_ (List.all_eq_true.mp letters) small, others⟩

/-- What is open after some drafts was open before, or lies on the spine of one of them. -/
theorem mem_spineFrom {name : List Char} {before : List (List Char)} {ds : List Draft}
    (member : name ∈ Draft.spineFrom before ds) : name ∈ before ∨ ∃ d ∈ ds, name ∈ d.spine := by
  induction ds generalizing before with
  | nil => exact .inl member
  | cons d ds ih =>
      rw [Draft.spineFrom] at member
      rcases ih member with here | ⟨e, later, inside⟩
      · exact .inr ⟨d, List.mem_cons_self, here⟩
      · exact .inr ⟨e, List.mem_cons_of_mem _ later, inside⟩

/-- Drafts are told apart if each begins with a start tag that ends the spines of all before it. -/
theorem isChain_parted {ds : List Draft} (order : ds.Pairwise fun d e =>
    ∃ incoming ∈ e.name?, ∀ name ∈ d.spine, closedBy name incoming) :
    ds.IsChain Draft.Parted := by
  refine (order.imp ?_).isChain
  rintro d e ⟨incoming, named, ends⟩
  constructor
  · rintro ⟨-, isText⟩
    cases e with
    | text t => cases named
    | comment body => cases named
    | element name attributes children => exact isText
  · exact fun name member => ⟨incoming, named, ends name member⟩

theorem depthIn_le {ds : List Draft} {n : Nat} (each : ∀ d ∈ ds, d.depth ≤ n) :
    Draft.depthIn ds ≤ n := by
  induction ds with
  | nil => exact Nat.zero_le n
  | cons d ds ih =>
      rw [List.forall_mem_cons] at each
      exact max_le each.1 (ih each.2)

/-- The names of cells. -/
def cellNames : List (List Char) := words ["td", "th"]

/-- The names of sections. -/
def sectionNames : List (List Char) := words ["thead", "tbody", "tfoot"]

/-- A part of a table: it can be read back, nests no deeper than a bound, and both its own name
and those of the elements that it leaves open are known. -/
structure IsPart (d : Draft) (n : Nat) (first left : List (List Char)) : Prop where
  bare : d.Bare
  depth : d.depth ≤ n
  named : ∃ name ∈ first, d.name? = some name
  spine : ∀ name ∈ d.spine, name ∈ left

/-- **One level of a table**: parts of one kind, each of which ends the one before it and not the
element around them, make up a part of the next kind. -/
theorem isPart_element {name : List Char} {ds : List Draft} {n : Nat} {first left : List (List Char)}
    (known : name ∈ partNames) (each : ∀ d ∈ ds, IsPart d n first left)
    (ends : ∀ incoming ∈ first, ∀ other ∈ left, closedBy other incoming)
    (keeps : ∀ incoming ∈ first, closedBy name incoming = false) :
    IsPart (.element name [] ds) (n + 1) [name] (left ++ [name]) where
  bare := by
    obtain ⟨isName, solid, parsed⟩ := isTagName_of_mem known
    refine .element isName (by simp) solid parsed (fun d member => (each d member).bare) ?_ ?_
    · refine isChain_parted (List.pairwise_of_forall_mem_list ?_)
      intro d member e member'
      obtain ⟨incoming, among, named⟩ := (each e member').named
      exact ⟨incoming, named, fun other open_ =>
        ends incoming among other ((each d member).spine other open_)⟩
    · intro d member incoming named
      obtain ⟨own, among, named'⟩ := (each d member).named
      cases named.symm.trans named'
      exact keeps incoming among
  depth := by
    rw [Draft.depth]
    split
    next => exact Nat.zero_le _
    next => exact Nat.succ_le_succ (depthIn_le fun d member => (each d member).depth)
  named := ⟨name, List.mem_singleton_self name, rfl⟩
  spine := by
    intro other member
    rw [Draft.spine, List.mem_append] at member
    refine List.mem_append.mpr (member.imp_left ?_)
    intro inside
    rcases mem_spineFrom inside with none_ | ⟨d, found, open_⟩
    · cases none_
    · exact (each d found).spine other open_

theorem cellName_mem (c : Cell) : c.name ∈ cellNames := by
  rw [Cell.name]
  split <;> decide

theorem isPart_cell {c : Cell} (plain : '<' ∉ c.text) : IsPart (cell c) 1 cellNames cellNames := by
  have known : ∀ name ∈ cellNames, name ∈ partNames := by decide
  obtain ⟨isName, solid, parsed⟩ := isTagName_of_mem (known c.name (cellName_mem c))
  refine ⟨.element isName (by simp) solid parsed ?_ ?_ ?_, ?_, ⟨_, cellName_mem c, rfl⟩, ?_⟩
  · split
    next => simp
    next some_ => exact List.forall_mem_singleton.mpr (.text some_ plain)
  · split <;> simp
  · split <;> simp [Draft.name?]
  · rw [cell, Draft.depth_solid solid]
    split <;> simp [Draft.depthIn, Draft.depth]
  · intro name member
    have own : (cell c).spine = [c.name] := by
      by_cases none_ : c.text = [] <;> simp [cell, none_, Draft.spine, Draft.spineFrom]
    rw [own, List.mem_singleton] at member
    rw [member]
    exact cellName_mem c

theorem isPart_row {cells : List Cell} (plain : ∀ c ∈ cells, '<' ∉ c.text) :
    IsPart (row cells) 2 ["tr".toList] (cellNames ++ ["tr".toList]) := by
  have each : ∀ d ∈ cells.map cell, IsPart d 1 cellNames cellNames := by
    intro d member
    obtain ⟨c, found, rfl⟩ := List.mem_map.mp member
    exact isPart_cell (plain c found)
  exact isPart_element (by decide) each (by decide) (by decide)

theorem isPart_part {name : List Char} {rows : List (List Cell)} (known : name ∈ sectionNames)
    (plain : ∀ cells ∈ rows, ∀ c ∈ cells, '<' ∉ c.text) :
    IsPart (part name rows) 3 [name] (cellNames ++ ["tr".toList] ++ [name]) := by
  have named : ∀ name ∈ sectionNames, name ∈ partNames := by decide
  have keeps : ∀ name ∈ sectionNames, closedBy name "tr".toList = false := by decide
  have each : ∀ d ∈ rows.map row, IsPart d 2 ["tr".toList] (cellNames ++ ["tr".toList]) := by
    intro d member
    obtain ⟨cells, found, rfl⟩ := List.mem_map.mp member
    exact isPart_row (plain cells found)
  exact isPart_element (named name known) each (by decide)
    (List.forall_mem_singleton.mpr (keeps name known))

section Whole

variable {t : Table} (plain : ∀ c ∈ t.cells, '<' ∉ c.text)
include plain

/-- A section of a table is a part, by whatever name. -/
theorem isPart_section {rows : List (List Cell)}
    (found : rows ∈ t.head.toList ++ (t.bodies ++ t.foot.toList)) {name : List Char}
    (known : name ∈ sectionNames) :
    IsPart (part name rows) 3 [name] (cellNames ++ ["tr".toList] ++ [name]) := by
  refine isPart_part known fun cells inside c member => plain c ?_
  exact List.mem_flatten.mpr ⟨cells, List.mem_flatten.mpr ⟨rows, found, inside⟩, member⟩

theorem isPart_parts : ∀ d ∈ t.parts, ∃ name ∈ sectionNames,
    IsPart d 3 [name] (cellNames ++ ["tr".toList] ++ [name]) := by
  intro d member
  simp only [parts, List.mem_append, List.mem_map] at member
  rcases member with ⟨rows, found, rfl⟩ | ⟨rows, found, rfl⟩ | ⟨rows, found, rfl⟩
  · exact ⟨_, by decide, isPart_section plain (by simp [found]) (by decide)⟩
  · exact ⟨_, by decide, isPart_section plain (by simp [found]) (by decide)⟩
  · exact ⟨_, by decide, isPart_section plain (by simp [found]) (by decide)⟩

/-- **The sections of a table end one another**: a head ends at a body or a foot, and so does a
body. -/
theorem isChain_parts : t.parts.IsChain Draft.Parted := by
  have ends : ∀ {first next : List Char} {rows rows' : List (List Cell)},
      rows ∈ t.head.toList ++ (t.bodies ++ t.foot.toList) →
      (∀ name ∈ cellNames ++ ["tr".toList] ++ [first], closedBy name next) →
      first ∈ sectionNames →
      ∃ incoming ∈ (part next rows').name?, ∀ name ∈ (part first rows).spine,
        closedBy name incoming := by
    intro first next rows rows' found closes known
    exact ⟨next, rfl, fun name member =>
      closes name ((isPart_section plain found known).spine name member)⟩
  have single : ∀ {α : Type} {R : α → α → Prop} (o : Option α), o.toList.Pairwise R := by
    intro α R o
    cases o <;> simp
  apply isChain_parted
  rw [parts, List.pairwise_append, List.pairwise_append]
  refine ⟨(single _).map _ fun _ _ => id, ⟨?_, (single _).map _ fun _ _ => id, ?_⟩, ?_⟩
  · refine List.pairwise_map.mpr (List.pairwise_of_forall_mem_list ?_)
    exact fun rows found rows' _ => ends (by simp [found]) (by decide) (by decide)
  · intro d member e member'
    obtain ⟨rows, found, rfl⟩ := List.mem_map.mp member
    obtain ⟨rows', -, rfl⟩ := List.mem_map.mp member'
    exact ends (by simp [found]) (by decide) (by decide)
  · intro d member e member'
    obtain ⟨rows, found, rfl⟩ := List.mem_map.mp member
    rcases List.mem_append.mp member' with body | foot
    · obtain ⟨rows', -, rfl⟩ := List.mem_map.mp body
      exact ends (by simp [found]) (by decide) (by decide)
    · obtain ⟨rows', -, rfl⟩ := List.mem_map.mp foot
      exact ends (by simp [found]) (by decide) (by decide)

end Whole

/-- **Tables without end tags are recovered.** Take any table none of whose cells holds a `<` in
its text. Written with start tags, texts and its own end tag alone, it is read without a fault,
as one element that has just the sections, rows, cells and texts of the table in it, none of
them with an end tag. -/
theorem table_recovered {t : Table} (plain : ∀ c ∈ t.cells, '<' ∉ c.text) :
    (Page.ofText t.write).issues = [] ∧ ∃ tag nodes endTag span,
      (Page.ofText t.write).nodes = [.element tag nodes (some endTag) span] ∧
        tag.name = "table".toList ∧ tag.attributes = [] ∧
          List.Forall₂ Draft.ShownBare t.parts nodes := by
  have named : "table".toList ∈ partNames := by decide
  obtain ⟨isName, solid, parsed⟩ := isTagName_of_mem named
  have known := isPart_parts plain
  have ready : Builder.empty.Ready (some depthCap) (.element "table" [] t.parts) := by
    refine ⟨rfl, ?_, nofun⟩
    rintro n ⟨⟩
    have low : Draft.depthIn t.parts ≤ 3 := by
      refine depthIn_le fun d member => ?_
      obtain ⟨name, -, isPart⟩ := known d member
      exact isPart.depth
    have cap : depthCap = 512 := rfl
    have none_ : Builder.empty.tags.length = 0 := rfl
    rw [Draft.depth_solid solid]
    omega
  have keeps : ∀ d ∈ t.parts, ∀ incoming ∈ d.name?, closedBy "table".toList incoming = false := by
    intro d _ incoming _
    rfl
  have inner : ∀ other ∈ Draft.spineFrom [] t.parts,
      other ≠ "table".toList ∧ other ∈ optionalEndTag := by
    intro other member
    have each : ∀ name ∈ sectionNames, ∀ other ∈ cellNames ++ ["tr".toList] ++ [name],
        other ≠ "table".toList ∧ other ∈ optionalEndTag := by decide
    rcases mem_spineFrom member with none_ | ⟨d, found, open_⟩
    · cases none_
    · obtain ⟨name, among, isPart⟩ := known d found
      exact each name among other (isPart.spine other open_)
  have bare : ∀ d ∈ t.parts, d.Bare := by
    intro d member
    obtain ⟨name, -, isPart⟩ := known d member
    exact isPart.bare
  obtain ⟨tag, nodes, endTag, span, means, shown, read⟩ := readClosed isName (by simp) solid parsed
    bare (isChain_parts plain) keeps inner ready .start []
  rw [List.append_nil] at read
  have built : (Page.ofText t.write).issues = [] ∧
      (Page.ofText t.write).nodes = [.element tag nodes (some endTag) span] :=
    page_of_read nofun read
  exact ⟨built.1, tag, nodes, endTag, span, built.2, means.name,
    List.map_eq_nil_iff.mp means.attributes, shown⟩

/-- A table with an empty cell, an empty row and an empty section. -/
theorem table_recovered_small :
    let t : Table :=
      ⟨some [[⟨true, "a"⟩, ⟨true, ""⟩]], [[[⟨false, "b>c"⟩], []], []], some [[⟨false, "d"⟩]]⟩
    t.write = "<table><thead><tr><th>a<th><tbody><tr><td>b>c<tr><tbody><tfoot><tr><td>d</table>".toList ∧
      (∀ c ∈ t.cells, '<' ∉ c.text) ∧ (Page.ofText t.write).issues = [] ∧
        ∃ tag nodes endTag span,
          (Page.ofText t.write).nodes = [.element tag nodes (some endTag) span] ∧
            tag.name = "table".toList ∧ tag.attributes = [] ∧
              List.Forall₂ Draft.ShownBare t.parts nodes := by
  intro t
  have plain : ∀ c ∈ t.cells, '<' ∉ c.text := by
    simp only [t, cells]
    decide
  exact ⟨by decide, plain, table_recovered plain⟩

end Table

end Html

end PageLint
