/-
# PageLint.Proofs.Lint.Placed — subjects that are where they say

What a rule looks at carries places: the stretch of a property, of its colon, of a start
tag's name. A subject is `Placed` in a passage when each of them is there: a stretch that
goes with a text shows that text, tokens are read in order, and any other stretch is
covered. An item of a stylesheet, or a node of a page, is placed when all its subjects are.

For an item and for a node this comes down to its own parts and to what it contains
(`placed_style`, `placed_atRule`, `Node.placed_element`), so a builder keeps its items
placed by keeping the parts placed.
-/
import PageLint.Lint.Document
import PageLint.Proofs.Text.Tiling

namespace PageLint

set_option autoImplicit false

open Text

variable (g : Passage)

/-! ## Parts of a stylesheet -/

namespace Css

def Comment.Placed (c : Comment) : Prop := g.Shows c.span c.text

structure Selector.Placed (s : Selector) : Prop where
  span : g.Covers s.span
  tokens : g.Reads s.tokens

structure Declaration.Placed (d : Declaration) : Prop where
  property : g.Covers d.propertySpan
  colon : g.Covers d.colon
  value : ∀ s ∈ d.valueSpan, g.Covers s
  tokens : g.Reads d.valueTokens
  important : ∀ s ∈ d.important, g.Covers s
  span : g.Covers d.span

/-- Selectors in their places, one after the other. -/
structure SelectorsPlaced (ss : List Selector) : Prop where
  each : ∀ s ∈ ss, s.Placed g
  ordered : ss.Pairwise fun s t => s.span.finish.offset ≤ t.span.start.offset

/-- The selectors, the prelude and the `{` of a style rule are in their places. -/
structure StyleRule.Placed {ι : Type} (r : StyleRule ι) : Prop where
  selectors : SelectorsPlaced g r.selectors
  prelude : ∀ s ∈ r.prelude, g.Covers s
  opening : ∃ s ∈ r.block.opening, g.Covers s

/-- The name, the prelude and the `{` of an at-rule are in their places. -/
structure AtRule.Placed {ι : Type} (r : AtRule ι) : Prop where
  name : g.Covers r.nameSpan
  prelude : ∀ s ∈ r.preludeSpan, g.Covers s
  tokens : g.Reads r.preludeTokens
  opening : ∀ s ∈ r.opening?, g.Covers s

/-- What opens an item is in its place. -/
def Item.HeadPlaced : Item → Prop
  | .style r => r.Placed g
  | .atRule r => r.Placed g
  | .declarations _ => True
  | .comment c => c.Placed g

end Css

/-! ## Parts of a page -/

namespace Html

structure Attribute.Placed (a : Attribute) : Prop where
  name : g.Covers a.nameSpan
  value : ∀ s ∈ a.valueSpan, g.Covers s
  inner : ∀ v ∈ a.value, ∀ s ∈ a.innerSpan?, g.Shows s v
  span : g.Covers a.span

structure StartTag.Placed (t : StartTag) : Prop where
  name : g.Covers t.nameSpan
  attributes : ∀ a ∈ t.attributes, a.Placed g
  finish : ∀ s ∈ t.finish, g.Covers s
  span : g.Covers t.span

structure Element.Placed (e : Element) : Prop where
  tag : e.tag.Placed g
  endTag : ∀ s ∈ e.endTag, g.Covers s
  children : ∀ child ∈ elementsOf e.children, child.tag.Placed g

end Html

/-! ## Subjects -/

/-- All that a rule reads off a subject is in its place. -/
def Subject.Placed : Subject → Prop
  | source => True
  | htmlElement e _ => e.Placed g
  | htmlText t => g.Shows t.span t.text
  | htmlComment c => g.Shows c.span c.text
  | htmlDoctype d => g.Shows d.span d.text
  | cssRuleList items _ => ∀ item ∈ items, item.HeadPlaced g
  | cssStyleRule r => r.Placed g
  | cssAtRule r => r.Placed g
  | cssBlock b => ∀ d ∈ b.declarations, d.Placed g
  | cssDeclaration d => d.Placed g
  | cssComment c => c.Placed g

/-! ## Items of a stylesheet -/

namespace Css

variable {s : Subject}

theorem mem_nestedEntries {items : List Item} :
    (∃ entry ∈ nestedEntries items, s ∈ entry.2) ↔ ∃ item ∈ items, s ∈ item.subjects := by
  induction items with
  | nil => simp [nestedEntries]
  | cons item items ih => simp [nestedEntries, ih]

theorem mem_itemsSubjects {items : List Item} :
    s ∈ itemsSubjects items ↔ ∃ item ∈ items, s ∈ item.subjects := by
  induction items with
  | nil => simp [itemsSubjects]
  | cons item items ih => simp [itemsSubjects, ih]

theorem mem_blockSubjects {block : Block Item} :
    s ∈ blockSubjects block ↔
      s = .cssBlock block ∨ (∃ d ∈ block.declarations, s = .cssDeclaration d) ∨
        (∃ c ∈ block.comments, s = .cssComment c) ∨ ∃ item ∈ block.nested, s ∈ item.subjects := by
  obtain ⟨opening, closing, declarations, comments, nested, span⟩ := block
  rw [blockSubjects, List.mem_cons, List.mem_flatMap]
  simp only [List.mem_mergeSort, List.mem_append, List.mem_map, or_and_right, exists_or,
    exists_exists_and_eq_and, List.mem_singleton, mem_nestedEntries, or_assoc]

/-- An item is placed when all its subjects are. -/
def Item.Placed (item : Item) : Prop := ∀ s ∈ item.subjects, s.Placed g

/-- So is a block. -/
structure Block.Placed (block : Block Item) : Prop where
  declarations : ∀ d ∈ block.declarations, d.Placed g
  comments : ∀ c ∈ block.comments, c.Placed g
  nested : ∀ item ∈ block.nested, item.Placed g

/-- What follows the prelude of an at-rule is placed. -/
def Body.Placed : Body Item → Prop
  | .statement => True
  | .declarations block => Block.Placed g block
  | .rules _ _ items => ∀ item ∈ items, item.Placed g

variable {g}

theorem Block.Placed.subjects {block : Block Item} (placed : Block.Placed g block) :
    ∀ s ∈ blockSubjects block, s.Placed g := by
  intro s member
  rcases mem_blockSubjects.mp member with rfl | ⟨d, found, rfl⟩ | ⟨c, found, rfl⟩ | ⟨item, found, inside⟩
  · exact placed.declarations
  · exact placed.declarations d found
  · exact placed.comments c found
  · exact placed.nested item found s inside

theorem Item.Placed.head {item : Item} (placed : item.Placed g) : item.HeadPlaced g := by
  cases item with
  | style rule =>
      exact placed (.cssStyleRule rule) (by simp [Item.subjects])
  | atRule rule =>
      exact placed (.cssAtRule rule) (by simp [Item.subjects])
  | declarations block => trivial
  | comment c => exact placed (.cssComment c) (by simp [Item.subjects])

theorem placed_comment {c : Comment} (placed : c.Placed g) : (Item.comment c).Placed g := by
  intro s member
  have same : s = .cssComment c := by simpa [Item.subjects] using member
  rw [same]
  exact placed

theorem placed_declarations {block : Block Item} (placed : Block.Placed g block) :
    (Item.declarations block).Placed g := by
  intro s member
  rw [Item.subjects] at member
  exact placed.subjects s member

theorem placed_style {rule : StyleRule Item} (own : rule.Placed g)
    (block : Block.Placed g rule.block) : (Item.style rule).Placed g := by
  intro s member
  rw [Item.subjects] at member
  rcases List.mem_cons.mp member with rfl | inside
  · exact own
  · exact block.subjects s inside

theorem items_placed_subjects {items : List Item} (placed : ∀ item ∈ items, item.Placed g)
    (parent : Option (AtRule Item)) :
    ∀ s ∈ Subject.cssRuleList items parent :: itemsSubjects items, s.Placed g := by
  intro s member
  rcases List.mem_cons.mp member with rfl | inside
  · exact fun item found => (placed item found).head
  · obtain ⟨item, found, inside⟩ := mem_itemsSubjects.mp inside
    exact placed item found s inside

theorem placed_atRule {rule : AtRule Item} (own : rule.Placed g) (body : rule.body.Placed g) :
    (Item.atRule rule).Placed g := by
  obtain ⟨name, nameSpan, prelude, preludeSpan, preludeTokens, body', span⟩ := rule
  intro s member
  rw [Item.subjects] at member
  rcases List.mem_cons.mp member with rfl | inside
  · exact own
  · cases body' with
    | statement => simp [bodySubjects] at inside
    | declarations block =>
        rw [bodySubjects] at inside
        exact Block.Placed.subjects body s inside
    | rules opening closing items =>
        rw [bodySubjects] at inside
        exact items_placed_subjects body _ s inside

end Css

/-! ## Nodes of a page -/

namespace Html

/-- A node is placed when all its subjects are, whatever elements it lies in. -/
def Node.Placed (node : Node) : Prop := ∀ ancestors, ∀ s ∈ node.subjects ancestors, s.Placed g

end Html

end PageLint
