/-
# PageLint.Proofs.Html.Outline — the nodes of a page are its tokens

Every node of a page is made of one token: an element of the token that opens its start tag,
any other node of the token that it shows. `preorderIn` lists the nodes with parents before
their children, and `page_nodes_tokens` says that this list and the tokens of these kinds
correspond one to one and in order: the tree loses no token, doubles none and moves none.

`Entry` is what a node shows of itself, without its content and its end. A builder has the
entries of an element as soon as it is open, and closing it changes none of them
(`entries_closeTop`), however many elements end at once and by whatever means. So one piece
of markup adds its own entries at the end and does nothing else (`entries_step`).

No white space of a start tag is ever taken for text: what follows a start tag that is broken
off is read in content again, and there no such token begins (`formed_ofTokens`).
-/
import PageLint.Proofs.Html.Stylesheets

namespace PageLint.Html

set_option autoImplicit false

open Text

/-! ## Nodes in order -/

mutual

/-- A node and all that it contains, parents first. -/
def Node.preorder : Node → List Node
  | .element tag children endTag span =>
    .element tag children endTag span :: preorderIn children
  | .text t => [.text t]
  | .comment c => [.comment c]
  | .doctype d => [.doctype d]

/-- Nodes in order, each with all that it contains. -/
def preorderIn : List Node → List Node
  | [] => []
  | node :: nodes => node.preorder ++ preorderIn nodes

end

theorem preorderIn_append (nodes more : List Node) :
    preorderIn (nodes ++ more) = preorderIn nodes ++ preorderIn more := by
  induction nodes with
  | nil => rfl
  | cons node nodes ih => rw [List.cons_append, preorderIn, preorderIn, ih, List.append_assoc]

theorem preorderIn_concat (nodes : List Node) (node : Node) :
    preorderIn (nodes ++ [node]) = preorderIn nodes ++ node.preorder := by
  rw [preorderIn_append, preorderIn, preorderIn, List.append_nil]

/-- What a node shows of itself: all but its content and its end. -/
inductive Entry where
  | element (tag : StartTag) (start : Position)
  | text (text : TextNode)
  | comment (comment : Verbatim)
  | doctype (doctype : Verbatim)

/-- Where the node begins. -/
def Entry.start : Entry → Position
  | element _ start => start
  | text t => t.span.start
  | comment c => c.span.start
  | doctype d => d.span.start

/-- What the node shows of itself. -/
def Node.entry : Node → Entry
  | .element tag _ _ span => .element tag span.start
  | .text t => .text t
  | .comment c => .comment c
  | .doctype d => .doctype d

@[simp] theorem Node.start_entry (node : Node) : node.entry.start = node.span.start := by
  cases node <;> rfl

/-- A node is made of a token: an element of the one that opens its start tag, with the place
and the written name of that; any other node of the one that it shows, with its text and span. -/
def Entry.MadeOf : Entry → Token TokenKind → Prop
  | element tag start, t =>
    t.kind = .tagOpen ∧ t.text = '<' :: tag.rawName ∧ start = t.span.start
  | text u, t =>
    (if u.raw then t.kind = .rawText ∨ t.kind = .cdata else t.kind = .text) ∧
      u.text = t.text ∧ u.span = t.span
  | comment c, t => t.kind = .comment ∧ c.text = t.text ∧ c.span = t.span
  | doctype d, t => t.kind = .doctype ∧ d.text = t.text ∧ d.span = t.span

theorem Entry.MadeOf.start {entry : Entry} {t : Token TokenKind} (made : entry.MadeOf t) :
    entry.start = t.span.start := by
  cases entry with
  | element tag start => exact made.2.2
  | text u => exact congrArg Span.start made.2.2
  | comment c => exact congrArg Span.start made.2.2
  | doctype d => exact congrArg Span.start made.2.2

/-- Tokens of which nodes are made. -/
def makesNode (t : Token TokenKind) : Bool :=
  [TokenKind.tagOpen, .text, .rawText, .cdata, .comment, .doctype].contains t.kind

/-! ## What the pieces of a page are -/

/-- The next character stands inside a start tag. -/
def Mode.InTag : Mode → Prop
  | .tag _ => True
  | _ => False

theorem scanContent_inTag {c : Char} {rest : List Char}
    (inTag : (scanContent c rest).state.InTag) : (scanContent c rest).kind = .tagOpen := by
  cases leaves_scanContent .content c rest with
  | opens kind _ => exact kind
  | ends name same _ _ => cases same
  | raw name same _ _ => cases same
  | inside name same _ _ => cases same
  | plain state _ => rw [state] at inTag; exact inTag.elim

theorem scanContent_ne_blank (c : Char) (rest : List Char) :
    (scanContent c rest).kind ≠ .blank := by
  simp only [scanContent]
  repeat' split
  all_goals simp

/-- Only a part of a start tag leaves the lexer in the tag. -/
theorem scanTag_inTag {name : List Char} {c : Char} {rest : List Char}
    (inTag : (scanTag name c rest).state.InTag) :
    (scanTag name c rest).kind ∈ [TokenKind.blank, .attr, .unknown] := by
  revert inTag
  simp only [scanTag]
  split
  · simp
  split
  · intro inTag
    unfold modeAfterTag at inTag
    split_ifs at inTag <;> exact inTag.elim
  split
  · exact False.elim
  split
  · simp
  split
  · simp
  · simp

variable {mode : Mode} {c : Char} {rest : List Char} {t : Token TokenKind}
  {ts : List (Token TokenKind)}

theorem scan_inTag (text : mode.HoldsText) (inTag : (scan mode c rest).state.InTag) :
    (scan mode c rest).kind = .tagOpen ∨
      mode.InTag ∧ (scan mode c rest).kind ∈ [TokenKind.blank, .attr, .unknown] := by
  cases mode with
  | head =>
      revert inTag
      rw [scan]
      split
      · exact False.elim
      · exact fun inTag => .inl (scanContent_inTag inTag)
  | content => exact .inl (scanContent_inTag inTag)
  | tag name =>
      revert inTag
      rw [scan]
      split
      · exact fun inTag => .inl (scanContent_inTag inTag)
      · exact fun inTag => .inr ⟨trivial, scanTag_inTag inTag⟩
  | raw name kind =>
      revert inTag
      rw [scan]
      split
      · exact fun inTag => .inl (scanContent_inTag inTag)
      · exact False.elim

/-- White space is a token of its own only inside a start tag. -/
theorem scan_ne_blank (text : mode.HoldsText) (outside : ¬ mode.InTag) :
    (scan mode c rest).kind ≠ .blank := by
  cases mode with
  | head =>
      rw [scan]
      split
      · simp
      · exact scanContent_ne_blank c rest
  | content => exact scanContent_ne_blank c rest
  | tag name => exact absurd trivial outside
  | raw name kind =>
      rw [scan]
      split
      · exact scanContent_ne_blank c rest
      · rcases text with rfl | rfl <;> simp

theorem isTagPart_iff : isTagPart t ↔ t.kind ∈ [TokenKind.blank, .attr, .unknown] := by
  simp [isTagPart, or_assoc]

/-- The tokens are read outside start tags, or the first one is no part of one. -/
def Aside (ts : List (Token TokenKind)) : Prop :=
  ∃ mode, Lexed mode ts ∧ (mode.InTag → ∀ t ∈ ts.head?, isTagPart t = false)

theorem Lexed.aside (lexed : Lexed mode ts) (outside : ¬ mode.InTag) : Aside ts :=
  ⟨mode, lexed, fun inTag => absurd inTag outside⟩

theorem Aside.ne_blank (aside : Aside (t :: ts)) : t.kind ≠ .blank := by
  obtain ⟨mode, lexed, first⟩ := aside
  by_cases inTag : mode.InTag
  · intro blank
    have part := first inTag t rfl
    simp [isTagPart, blank] at part
  · obtain ⟨c, rest, kind, -, -⟩ := lexed.step
    rw [kind]
    exact scan_ne_blank lexed.1 inTag

theorem Aside.tail (aside : Aside (t :: ts)) (other : t.kind ≠ .tagOpen) : Aside ts := by
  obtain ⟨mode, lexed, first⟩ := aside
  obtain ⟨c, rest, kind, -, later⟩ := lexed.step
  refine later.aside ?_
  intro inTag
  rcases scan_inTag lexed.1 inTag with opens | ⟨within, part⟩
  · exact other (kind.trans opens)
  · rw [← kind, ← isTagPart_iff, first within t rfl] at part
    cases part

/-- What is left of a start tag after its parts begins with none. -/
theorem Lexed.aside_dropWhile (lexed : Lexed mode ts) : Aside (ts.dropWhile isTagPart) := by
  obtain ⟨next, left⟩ := lexed.dropWhile isTagPart
  refine ⟨next, left, ?_⟩
  intro _ t head
  have stops := List.head?_dropWhile_not isTagPart ts
  rw [Option.mem_def.mp head] at stops
  exact stops

/-- A piece of markup as the grouping of a page's tokens makes it: a start tag of a name, of
parts and of the sign that ends it, or a token that is neither the name of a tag nor the white
space in one. -/
def Markup.Formed : Markup → Prop
  | .tag head parts close =>
    head.kind = .tagOpen ∧ Opens head ∧ (∀ t ∈ parts, isTagPart t) ∧ ∀ t ∈ close, isTagEnd t
  | .single t => t.kind ≠ .tagOpen ∧ t.kind ≠ .blank

/-- **The pieces of a page are well formed.** The induction follows the grouping of the tokens. -/
theorem formed_ofTokens (aside : Aside ts) (opening : ∀ t ∈ ts, Opens t) :
    ∀ piece ∈ Markup.ofTokens ts, piece.Formed := by
  fun_induction Markup.ofTokens ts with
  | case1 => simp
  | case2 t ts opens parts ended =>
      refine List.forall_mem_singleton.mpr ⟨opens, opening t List.mem_cons_self, ?_, by simp⟩
      intro u member
      exact List.mem_takeWhile_imp member
  | case3 t ts opens parts e rest left closes ih =>
      obtain ⟨mode, lexed, -⟩ := aside
      obtain ⟨next, tail⟩ := lexed.tail
      have after := tail.aside_dropWhile
      have within : ∀ u ∈ e :: rest, Opens u := by
        intro u member
        rw [← left] at member
        exact opening u (List.mem_cons_of_mem _ ((List.dropWhile_sublist _).subset member))
      rw [left] at after
      have ending : e.kind ≠ .tagOpen := by
        intro opens
        simp [isTagEnd, opens] at closes
      refine List.forall_mem_cons.mpr ⟨⟨opens, opening t List.mem_cons_self, ?_, ?_⟩, ?_⟩
      · intro u member
        exact List.mem_takeWhile_imp member
      · rintro u ⟨⟩
        exact closes
      · exact ih (after.tail ending) fun u member => within u (List.mem_cons_of_mem _ member)
  | case4 t ts opens parts e rest left other ih =>
      obtain ⟨mode, lexed, -⟩ := aside
      obtain ⟨next, tail⟩ := lexed.tail
      have after := tail.aside_dropWhile
      rw [left] at after
      refine List.forall_mem_cons.mpr ⟨⟨opens, opening t List.mem_cons_self, ?_, by simp⟩, ?_⟩
      · intro u member
        exact List.mem_takeWhile_imp member
      · refine ih after fun u member => ?_
        rw [← left] at member
        exact opening u (List.mem_cons_of_mem _ ((List.dropWhile_sublist _).subset member))
  | case5 t ts other ih =>
      rw [List.forall_mem_cons] at opening
      exact List.forall_mem_cons.mpr ⟨⟨other, aside.ne_blank⟩, ih (aside.tail other) opening.2⟩

theorem formed_tokenize (cs : List Char) :
    ∀ piece ∈ Markup.ofTokens (tokenize cs), piece.Formed :=
  formed_ofTokens ((lexed_tokenize cs).aside id) (opens_tagOpen cs)

/-! ## What a piece adds -/

/-- What the nodes that a piece of markup makes show of themselves. -/
def Markup.entries : Markup → List Entry
  | .tag head parts close =>
    let tag := (StartTag.ofTokens head parts close).1
    [.element tag tag.span.start]
  | .single t =>
    match t.kind with
    | .doctype => [.doctype ⟨t.text, t.span⟩]
    | .comment => [.comment ⟨t.text, t.span⟩]
    | .cdata | .rawText => [.text ⟨t.text, true, t.span⟩]
    | .text | .blank => [.text ⟨t.text, false, t.span⟩]
    | _ => []

theorem Markup.Formed.entries {piece : Markup} (formed : piece.Formed) :
    List.Forall₂ Entry.MadeOf piece.entries (piece.tokens.filter makesNode) := by
  cases piece with
  | tag head parts close =>
      obtain ⟨kind, opens, parts_, close_⟩ := formed
      obtain ⟨name, text⟩ := opens kind
      have noParts : parts.filter makesNode = [] := by
        refine List.filter_eq_nil_iff.mpr ?_
        intro t member
        have part := isTagPart_iff.mp (parts_ t member)
        simp only [List.mem_cons, List.not_mem_nil, or_false] at part
        rcases part with part | part | part <;> simp [makesNode, part]
      have noClose : close.toList.filter makesNode = [] := by
        refine List.filter_eq_nil_iff.mpr ?_
        intro t member
        have ends := close_ t (by simpa using member)
        simp only [isTagEnd, Bool.or_eq_true, beq_iff_eq] at ends
        rcases ends with ends | ends <;> simp [makesNode, ends]
      have own : makesNode head := by simp [makesNode, kind]
      simp only [Markup.tokens, List.cons_append, List.filter_cons, own, if_true,
        List.filter_append, noParts, noClose, List.append_nil]
      refine .cons ⟨kind, ?_, rfl⟩ .nil
      rw [text]
      simp [StartTag.ofTokens, text]
  | single t =>
      obtain ⟨notOpen, notBlank⟩ := formed
      simp only [Markup.tokens, List.filter_singleton, Markup.entries, makesNode]
      cases kind : t.kind
      case tagOpen => exact absurd kind notOpen
      case blank => exact absurd kind notBlank
      all_goals simp [Entry.MadeOf, kind]

/-! ## What the builder holds -/

namespace Builder

variable {b : Builder} {node : Node} {cap : Option Nat}

/-- What the nodes show of themselves that the builder holds so far, open elements among them,
in document order. -/
def entries (b : Builder) : List Entry :=
  (preorderIn b.top.reverse).map Node.entry ++
    b.stack.reverse.flatMap fun e =>
      .element e.tag e.tag.span.start :: (preorderIn e.children.reverse).map Node.entry

@[simp] theorem entries_append (b : Builder) (node : Node) :
    (b.append node).entries = b.entries ++ node.preorder.map Node.entry := by
  obtain ⟨stack, top, flattened⟩ := b
  cases stack with
  | nil => simp [append, entries, preorderIn_concat]
  | cons e outer => simp [append, entries, preorderIn_concat]

/-- **Closing an element loses, doubles and moves nothing**: it stands already where it will be,
with all that it contains. -/
@[simp] theorem entries_closeTop (b : Builder) (endTag : Option Span) :
    (b.closeTop endTag).entries = b.entries := by
  obtain ⟨stack, top, flattened⟩ := b
  cases stack with
  | nil => rfl
  | cons e outer =>
      rw [closeTop, entries_append]
      simp [entries, OpenElement.close, Node.preorder, Node.entry]

@[simp] theorem entries_closeMany (n : Nat) (b : Builder) :
    (closeMany n b).entries = b.entries :=
  closeMany_keeps (P := fun b' => b'.entries = b.entries)
    (fun b' same => (entries_closeTop b' none).trans same) rfl n

@[simp] theorem entries_closeImplied (b : Builder) (incoming : List Char) :
    (b.closeImplied incoming).entries = b.entries :=
  closeImplied_keeps (P := fun b' => b'.entries = b.entries)
    (fun b' same => (entries_closeTop b' none).trans same) (fun _ _ same => same) rfl incoming

/-- A start tag adds its element, whether it opens, is whole by itself, or lies too deep. -/
theorem entries_openTag (b : Builder) (cap : Option Nat) (tag : StartTag) :
    (b.openTag cap tag).1.entries = b.entries ++ [.element tag tag.span.start] := by
  have whole : ∀ b' : Builder, (b'.append (.element tag [] none tag.span)).entries =
      b'.entries ++ [.element tag tag.span.start] := by
    intro b'
    rw [entries_append]
    rfl
  have implied := entries_closeImplied b tag.name
  simp only [openTag]
  split
  · rw [whole, implied]
  split
  · rw [← implied]
    exact whole _
  · rw [← implied]
    simp [entries, preorderIn]

theorem entries_close (b : Builder) (t : Token TokenKind) : (b.close t).1.entries = b.entries := by
  simp only [close]
  split
  · rfl
  split
  · rfl
  split
  · rfl
  · rw [entries_closeTop, entries_closeMany]
    rfl

/-- **A piece of markup adds its own nodes at the end.** -/
theorem entries_step (b : Builder) (cap : Option Nat) (piece : Markup) :
    (b.step cap piece).1.entries = b.entries ++ piece.entries := by
  cases piece with
  | tag head parts close => exact entries_openTag b cap _
  | single t =>
      simp only [step, takeIn, Markup.entries]
      cases t.kind
      case tagClose => exact (entries_close b t).trans (List.append_nil _).symm
      all_goals simp [Node.preorder, Node.entry]

theorem entries_run (b : Builder) (cap : Option Nat) (pieces : List Markup) :
    (b.run cap pieces).1.entries = b.entries ++ pieces.flatMap Markup.entries := by
  induction pieces generalizing b with
  | nil => simp [run]
  | cons piece pieces ih =>
      show ((b.step cap piece).1.run cap pieces).1.entries = _
      rw [ih, entries_step, List.flatMap_cons, List.append_assoc]

end Builder

/-! ## Pages -/

/-- The nodes of a tree show of themselves what the pieces of its markup add. -/
theorem entries_buildTree (cap : Option Nat) (ts : List (Token TokenKind)) :
    (preorderIn (buildTree cap ts).1).map Node.entry =
      (Markup.ofTokens ts).flatMap Markup.entries := by
  have run := Builder.entries_run .empty cap (Markup.ofTokens ts)
  have closed := Builder.stack_finish (Builder.empty.run cap (Markup.ofTokens ts)).1
  have done : (Builder.empty.run cap (Markup.ofTokens ts)).1.finish.1.entries =
      (Builder.empty.run cap (Markup.ofTokens ts)).1.entries := Builder.entries_closeMany _ _
  rw [run, Builder.entries, closed] at done
  simp only [List.reverse_nil, List.flatMap_nil, List.append_nil] at done
  exact done

/-- The pieces of markup add nodes for the tokens that make some, in order. -/
theorem forall₂_entries {pieces : List Markup} (formed : ∀ piece ∈ pieces, piece.Formed) :
    List.Forall₂ Entry.MadeOf (pieces.flatMap Markup.entries)
      ((pieces.flatMap Markup.tokens).filter makesNode) := by
  induction pieces with
  | nil => exact .nil
  | cons piece pieces ih =>
      rw [List.forall_mem_cons] at formed
      rw [List.flatMap_cons, List.flatMap_cons, List.filter_append]
      exact List.rel_append formed.1.entries (ih formed.2)

theorem map_eq_map_of_forall₂ {α β γ : Type} {R : α → β → Prop} {f : α → γ} {g : β → γ}
    {xs : List α} {ys : List β} (related : List.Forall₂ R xs ys) (same : ∀ x y, R x y → f x = g y) :
    xs.map f = ys.map g := by
  induction related with
  | nil => rfl
  | cons first _ ih => rw [List.map_cons, List.map_cons, same _ _ first, ih]

theorem exists_of_mem_forall₂ {α β : Type} {R : α → β → Prop} {xs : List α} {ys : List β}
    (related : List.Forall₂ R xs ys) {x : α} (member : x ∈ xs) : ∃ y ∈ ys, R x y := by
  induction related with
  | nil => cases member
  | @cons first other xs ys here _ ih =>
      rcases List.mem_cons.mp member with rfl | later
      · exact ⟨other, List.mem_cons_self, here⟩
      · obtain ⟨y, inside, found⟩ := ih later
        exact ⟨y, List.mem_cons_of_mem _ inside, found⟩

/-- What the nodes of a page show of themselves is made of its tokens, in order. -/
theorem Page.entries_madeOf (cs : List Char) :
    List.Forall₂ Entry.MadeOf ((preorderIn (Page.ofText cs).nodes).map Node.entry)
      ((tokenize cs).filter makesNode) := by
  have made := forall₂_entries (formed_tokenize cs)
  rwa [Markup.flatMap_tokens_ofTokens, ← entries_buildTree (some depthCap)] at made

theorem Page.children_root (cs : List Char) :
    (Page.ofText cs).root.children = (buildTree (some depthCap) (tokenize cs)).1 := rfl

/-- **The tree of a page is its tokens, in order.** Its nodes, parents before their children,
correspond one to one to the tokens that make nodes; so each begins after the one before. -/
theorem page_nodes_tokens (cs : List Char) :
    List.Forall₂ (fun node t => node.entry.MadeOf t) (preorderIn (Page.ofText cs).root.children)
        ((tokenize cs).filter makesNode) ∧
      (preorderIn (Page.ofText cs).root.children).Pairwise
        fun a b => a.span.start.offset < b.span.start.offset := by
  rw [Page.children_root]
  have made := forall₂_entries (formed_tokenize cs)
  rw [Markup.flatMap_tokens_ofTokens, ← entries_buildTree (some depthCap)] at made
  have starts := map_eq_map_of_forall₂ made fun _ _ => Entry.MadeOf.start
  rw [List.map_map] at starts
  refine ⟨List.forall₂_map_left_iff.mp made, ?_⟩
  have ascending : ((tokenize cs).filter makesNode).Pairwise
      fun t u => t.span.start.offset < u.span.start.offset := by
    refine ((Page.reads_tokens cs).sublist List.filter_sublist).ordered.imp_of_mem ?_
    intro t u member _ before
    have nonempty := offset_lt_of_mem_tokenize cs t (List.mem_of_mem_filter member)
    omega
  have places := List.pairwise_map (f := fun t : Token TokenKind => t.span.start)
    (R := fun p q => p.offset < q.offset) |>.mpr ascending
  rw [← starts, List.pairwise_map] at places
  simpa using places

end PageLint.Html
