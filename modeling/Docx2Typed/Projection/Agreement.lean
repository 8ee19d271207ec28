import Docx2Typed.Projection.Segments
import Docx2Typed.Prose.Leaves

/-!
# Inventory and projection, paragraph by paragraph

The inventory (`extract_paragraph`) and the projection (`SegmentWalker`) read a paragraph with two
walks.  Both meet the same runs in the same order, and within a run the same texts; they differ in
where the style of a text comes from.  The inventory carries the rPr read last, in whatever run;
the projection takes the first rPr of the text's own run, and the default where there is none.

So text, editability and order always agree, and the styles agree exactly when, at every text, the
rPr carried there has the style of the text's own run.
-/

namespace Docx2Typed

open Library.Utf8 (decodeLossy)
open List

/-! ## The texts of a paragraph -/

/-- One non-empty text: whether it is a deletion's, the rPr carried there, and its own run's
style. -/
structure RunText where
  text : Text
  isDeleted : Bool
  carriedRpr : Text
  ownStyle : String

/-- The runs one child of a paragraph stands for. -/
def childRuns (recurse : ElementNode → List ElementNode) (child : ElementNode) :
    List ElementNode :=
  if child.name = "r" then [child] else if isTransparent child.name then recurse child else []

/-- The runs of a paragraph in document order. -/
def runsOf (nodes : List ElementNode) : Nat → ElementNode → List ElementNode
  | 0, _ => []
  | fuel + 1, node => (nodesAt nodes node.children).flatMap (childRuns (runsOf nodes fuel))

/-- The rPr carried past some children of a run. -/
def carryRpr (xml : Bytes) (carried : Bytes) (children : List ElementNode) : Bytes :=
  children.foldl (fun carried child =>
    if child.name = "rPr" then slice xml child.openStart child.stop else carried) carried

def isTextName (name : String) : Bool := name == "t" || name == "delText"

/-- The texts of one run. -/
def runTexts (xml : Bytes) (ownStyle : String) : Bytes → List ElementNode → List RunText
  | _, [] => []
  | carried, child :: rest =>
    let texts := runTexts xml ownStyle (carryRpr xml carried [child]) rest
    if isTextName child.name then
      let range := textRange child
      let text := decodedText (slice xml range.1 range.2)
      if text = [] then texts
      else ⟨text, child.name == "delText", decodeLossy carried, ownStyle⟩ :: texts
    else texts

/-- The texts of some runs, the first of which is entered with `carried`. -/
def textsOf (tree : PartTree) : Bytes → List ElementNode → List RunText
  | _, [] => []
  | carried, run :: rest =>
    let children := nodesAt tree.nodes run.children
    runTexts tree.xml (runStyleId tree run) carried children ++
      textsOf tree (carryRpr tree.xml carried children) rest

/-- The rPr carried past some runs. -/
def carryRuns (tree : PartTree) (carried : Bytes) (runs : List ElementNode) : Bytes :=
  runs.foldl (fun carried run => carryRpr tree.xml carried (nodesAt tree.nodes run.children)) carried

theorem carryRuns_append (tree : PartTree) (carried : Bytes) (xs ys : List ElementNode) :
    carryRuns tree carried (xs ++ ys) = carryRuns tree (carryRuns tree carried xs) ys :=
  foldl_append

theorem textsOf_append (tree : PartTree) : ∀ (carried : Bytes) (xs ys : List ElementNode),
    textsOf tree carried (xs ++ ys) =
      textsOf tree carried xs ++ textsOf tree (carryRuns tree carried xs) ys
  | _, [], _ => rfl
  | carried, x :: xs, ys => by
    rw [cons_append, textsOf, textsOf, textsOf_append tree _ xs ys, append_assoc]
    rfl

/-! ## The inventory's walk -/

/-- What the comparison reads of the non-empty leaves. -/
def leafViews (leaves : List ProseLeaf) : List (Text × Bool × Text) :=
  (leaves.filter (·.text ≠ [])).map fun leaf => (leaf.text, leaf.editable, leaf.rpr)

def carriedViews (texts : List RunText) : List (Text × Bool × Text) :=
  texts.map fun text => (text.text, !text.isDeleted, text.carriedRpr)

theorem leafViews_append (xs ys : List ProseLeaf) :
    leafViews (xs ++ ys) = leafViews xs ++ leafViews ys := by
  rw [leafViews, filter_append, map_append]
  rfl

theorem carryRpr_cons (xml carried : Bytes) (child : ElementNode) (rest : List ElementNode) :
    carryRpr xml carried (child :: rest) = carryRpr xml (carryRpr xml carried [child]) rest := rfl

theorem carryRpr_of_ne {xml carried : Bytes} {child : ElementNode} (h : child.name ≠ "rPr") :
    carryRpr xml carried [child] = carried := by
  simp [carryRpr, h]

section Inventory

variable (ctx : ParagraphContext)

theorem processRunChildren_views (run : ElementNode) (inGap : Bool) (own : String) :
    ∀ (children : List ElementNode) (s : RunState),
      let done := children.foldl (processRunChild ctx run inGap) s
      leafViews done.paragraph.leaves = leafViews s.paragraph.leaves ++
          carriedViews (runTexts ctx.xml own s.paragraph.rprBytes children) ∧
        done.paragraph.rprBytes = carryRpr ctx.xml s.paragraph.rprBytes children
  | [], s => by simp [runTexts, carriedViews, carryRpr]
  | child :: rest, s => by
    have ih := processRunChildren_views run inGap own rest (processRunChild ctx run inGap s child)
    rw [foldl_cons, carryRpr_cons]
    refine ⟨ih.1.trans ?_, ih.2.trans ?_⟩
    · rw [runTexts]
      by_cases hrpr : child.name = "rPr"
      · simp [processRunChild, hrpr, isTextName, carryRpr]
      · rw [carryRpr_of_ne hrpr]
        by_cases htext : child.name = "t" ∨ child.name = "delText"
        · have hname : isTextName child.name = true := by simpa [isTextName] using htext
          simp only [processRunChild, if_neg hrpr, if_pos htext, hname, if_true, leafViews_append,
            append_assoc]
          by_cases hempty : decodedText (slice ctx.xml (textRange child).1 (textRange child).2) = []
          · simp [leafViews, hempty]
          · by_cases hdel : child.name = "delText"
            · simp [leafViews, carriedViews, hempty, hdel]
            · simp [leafViews, carriedViews, hempty, hdel]
        · have hname : ¬ isTextName child.name = true := by simpa [isTextName] using htext
          rw [processRunChild, if_neg hrpr, if_neg htext, if_neg hname]
          split <;> rfl
    · by_cases hrpr : child.name = "rPr"
      · simp [processRunChild, hrpr, carryRpr]
      · rw [carryRpr_of_ne hrpr]
        congr 1
        rw [processRunChild, if_neg hrpr]
        split
        · rfl
        · split <;> rfl

theorem processRun_views (inGap : Bool) (own : String) (s : ExtractState) (run : ElementNode) :
    leafViews (processRun ctx inGap s run).leaves = leafViews s.leaves ++
        carriedViews (runTexts ctx.xml own s.rprBytes (nodesAt ctx.nodes run.children)) ∧
      (processRun ctx inGap s run).rprBytes =
        carryRpr ctx.xml s.rprBytes (nodesAt ctx.nodes run.children) := by
  have h := processRunChildren_views ctx run inGap own (nodesAt ctx.nodes run.children)
    { paragraph := s }
  rw [processRun]
  split
  · exact h
  · exact h

/-- The walk over a container meets the texts of its runs. -/
theorem processContainer_views :
    ∀ (fuel : Nat) (inGap : Bool) (s : ExtractState) (node : ElementNode),
      leafViews (processContainer ctx fuel inGap s node).leaves = leafViews s.leaves ++
          carriedViews (textsOf ctx.toPartTree s.rprBytes (runsOf ctx.nodes fuel node)) ∧
        (processContainer ctx fuel inGap s node).rprBytes =
          carryRuns ctx.toPartTree s.rprBytes (runsOf ctx.nodes fuel node)
  | 0, inGap, s, node => by simp [processContainer, runsOf, textsOf, carriedViews, carryRuns]
  | fuel + 1, inGap, s, node => by
    rw [processContainer, runsOf]
    -- child by child, in the order of the tree
    generalize nodesAt ctx.nodes node.children = children
    induction children generalizing s with
    | nil => simp [textsOf, carriedViews, carryRuns]
    | cons child rest ih =>
      rw [foldl_cons, flatMap_cons, textsOf_append, carryRuns_append]
      have hchild : leafViews (processChild ctx (processContainer ctx fuel) inGap s child).leaves =
            leafViews s.leaves ++ carriedViews
              (textsOf ctx.toPartTree s.rprBytes (childRuns (runsOf ctx.nodes fuel) child)) ∧
          (processChild ctx (processContainer ctx fuel) inGap s child).rprBytes =
            carryRuns ctx.toPartTree s.rprBytes (childRuns (runsOf ctx.nodes fuel) child) := by
        rw [processChild, childRuns]
        by_cases hrun : child.name = "r"
        · rw [if_pos hrun, if_pos hrun]
          have := processRun_views ctx inGap (runStyleId ctx.toPartTree child) s child
          simpa [textsOf, carryRuns] using this
        · rw [if_neg hrun, if_neg hrun]
          by_cases htransparent : isTransparent child.name = true
          · rw [if_pos htransparent, if_pos htransparent]
            exact processContainer_views fuel _ s child
          · rw [if_neg htransparent, if_neg htransparent]
            split <;> simp [textsOf, carriedViews, carryRuns]
      obtain ⟨hviews, hrpr⟩ := hchild
      obtain ⟨ihviews, ihrpr⟩ :=
        ih (processChild ctx (processContainer ctx fuel) inGap s child)
      rw [hviews, hrpr] at ihviews
      rw [hrpr] at ihrpr
      refine ⟨?_, ihrpr⟩
      rw [ihviews, carriedViews, carriedViews, carriedViews, map_append, append_assoc]

end Inventory

/-! ## The projection's walk -/

/-- What the comparison reads of the segments. -/
def segmentViews (segments : List Segment) : List (Text × Bool × String) :=
  segments.map fun segment => (segment.text, segment.editable, segment.styleId)

def ownViews (editable : Bool) (texts : List RunText) : List (Text × Bool × String) :=
  texts.map fun text => (text.text, editable && !text.isDeleted, text.ownStyle)

/-- The segments cover `[start, stop)` one after the other, none of them empty. -/
def Tiles : Nat → List Segment → Nat → Prop
  | start, [], stop => start = stop
  | start, segment :: rest, stop =>
    segment.start = start ∧ segment.stop = start + segment.text.length ∧ segment.text ≠ [] ∧
      Tiles segment.stop rest stop

theorem Tiles.concat {segment : Segment} : ∀ {start : Nat} {segments : List Segment} {stop : Nat},
    Tiles start segments stop → segment.start = stop →
      segment.stop = stop + segment.text.length → segment.text ≠ [] →
      Tiles start (segments ++ [segment]) segment.stop
  | _, [], _, h, hstart, hstop, hne => by
    cases h
    exact ⟨hstart, hstop, hne, rfl⟩
  | _, _ :: _, _, ⟨h1, h2, h3, h⟩, hstart, hstop, hne =>
    ⟨h1, h2, h3, h.concat hstart hstop hne⟩

/-- Tiles end where the lengths of their texts add up. -/
theorem Tiles.stop_eq : ∀ {start : Nat} {segments : List Segment} {stop : Nat},
    Tiles start segments stop → stop = start + (segments.flatMap (·.text)).length
  | _, [], _, h => by simpa [Tiles, eq_comm] using h
  | _, segment :: rest, _, ⟨_, h2, _, h⟩ => by
    rw [h.stop_eq, h2, flatMap_cons, length_append]
    omega

section Projection

variable (ctx : WalkerContext)

/-- What a walk adds to the walker's state, given the texts it meets. -/
structure Adds (texts : List RunText) (s s' : WalkerState) : Prop where
  views : segmentViews s'.segments =
    segmentViews s.segments ++ ownViews ctx.paragraphEditable texts
  tiles : Tiles 0 s.segments s.offset → Tiles 0 s'.segments s'.offset

variable {ctx}

theorem Adds.none {s s' : WalkerState} (hsegments : s'.segments = s.segments)
    (hoffset : s'.offset = s.offset) : Adds ctx [] s s' where
  views := by rw [hsegments, ownViews, map_nil, append_nil]
  tiles := by rw [hsegments, hoffset]; exact id

theorem Adds.trans {xs ys : List RunText} {s s' s'' : WalkerState} (h : Adds ctx xs s s')
    (h' : Adds ctx ys s' s'') : Adds ctx (xs ++ ys) s s'' where
  views := by
    rw [h'.views, h.views, append_assoc]
    congr 1
    rw [ownViews, ownViews, ownViews, map_append]
  tiles := h'.tiles ∘ h.tiles

variable (ctx)

/-- A text element with element children has no text. -/
theorem decodedText_textRange_of_children {xml : Bytes} {node : ElementNode}
    (h : node.children ≠ []) : decodedText (slice xml (textRange node).1 (textRange node).2) = [] := by
  have hempty : slice xml (textRange node).1 (textRange node).2 = [] := by
    rw [textRange, if_neg h, slice]
    exact drop_eq_nil_of_le (by simp)
  rw [hempty]
  rfl

theorem textRange_of_no_children {node : ElementNode} (h : node.children = []) :
    textRange node = (node.openEnd, node.closeStart) := by
  rw [textRange, if_pos h]

theorem emitText_adds (own : String) (carried : Bytes) (s : WalkerState) (node : ElementNode)
    (hname : isTextName node.name = true) :
    Adds ctx (runTexts ctx.xml own carried [node]) s (emitText ctx own s node) := by
  simp only [runTexts, hname, if_true]
  by_cases hchildren : node.children = []
  · rw [textRange_of_no_children hchildren]
    simp only [emitText, hchildren, ne_eq, not_true_eq_false, if_false]
    by_cases hempty : decodedText (slice ctx.xml node.openEnd node.closeStart) = []
    · simp only [hempty, if_true]
      exact .none rfl rfl
    · simp only [hempty, if_false]
      constructor
      · simp [segmentViews, ownViews, bne]
      · exact fun h => h.concat rfl rfl hempty
  · simp only [decodedText_textRange_of_children hchildren, if_true, emitText, ne_eq, hchildren,
      not_false_eq_true]
    exact .none rfl rfl

theorem runTexts_cons (xml carried : Bytes) (own : String) (child : ElementNode)
    (rest : List ElementNode) :
    runTexts xml own carried (child :: rest) =
      runTexts xml own carried [child] ++ runTexts xml own (carryRpr xml carried [child]) rest := by
  rw [runTexts, runTexts]
  split
  · simp only [runTexts]
    split <;> rfl
  · rfl

theorem runTexts_of_not_text {xml carried : Bytes} {own : String} {child : ElementNode}
    (h : ¬ isTextName child.name = true) : runTexts xml own carried [child] = [] := by
  rw [runTexts, if_neg h, runTexts]

theorem visitRun_adds (carried : Bytes) (s : WalkerState) (run : ElementNode) :
    Adds ctx (runTexts ctx.xml (runStyleId ctx.toPartTree run) carried (nodesAt ctx.nodes run.children)) s
      (visitRun ctx s run) := by
  have hwalk : ∀ (children : List ElementNode) (carried : Bytes) (s : WalkerState),
      Adds ctx (runTexts ctx.xml (runStyleId ctx.toPartTree run) carried children) s
        ((children.filter fun child => child.name = "t" ∨ child.name = "delText").foldl
          (emitText ctx (runStyleId ctx.toPartTree run)) s) := by
    intro children
    induction children with
    | nil => exact fun _ _ => .none rfl rfl
    | cons child rest ih =>
      intro carried s
      rw [runTexts_cons]
      by_cases htext : isTextName child.name = true
      · rw [filter_cons_of_pos (by simpa [isTextName] using htext), foldl_cons]
        exact (emitText_adds ctx _ carried s child htext).trans (ih _ _)
      · rw [filter_cons_of_neg (by simpa [isTextName] using htext),
          runTexts_of_not_text htext]
        exact ih _ _
  rw [visitRun]
  split
  · have hstyle : Adds ctx [] s
        { s with styles := ensureStyle s.styles (runStyleId ctx.toPartTree run) } := .none rfl rfl
    exact hstyle.trans (hwalk _ carried _)
  · exact hwalk _ carried _

theorem visitChild_adds {recurse : WalkerState → ElementNode → WalkerState}
    {runs : ElementNode → List ElementNode}
    (hrecurse : ∀ (carried : Bytes) (s : WalkerState) (node : ElementNode),
      Adds ctx (textsOf ctx.toPartTree carried (runs node)) s (recurse s node))
    (carried : Bytes) (s : WalkerState) (child : ElementNode) :
    Adds ctx (textsOf ctx.toPartTree carried (childRuns runs child)) s (visitChild ctx recurse s child) := by
  have hother : ∀ {name : String}, child.name = name → name ≠ "r" → isTransparent name = false →
      childRuns runs child = [] := by
    intro name hname hr ht
    rw [childRuns, hname, if_neg hr, ht]
    rfl
  have hinner : isTransparent child.name = true → child.name ≠ "r" →
      childRuns runs child = runs child := by
    intro ht hr
    rw [childRuns, if_neg hr, if_pos ht]
  rw [visitChild]
  by_cases hstart : child.name = "commentRangeStart"
  · rw [if_pos hstart, hother hstart (by decide) (by decide)]
    exact .none rfl rfl
  rw [if_neg hstart]
  by_cases hend : child.name = "commentRangeEnd"
  · rw [if_pos hend, hother hend (by decide) (by decide)]
    split
    · exact .none rfl rfl
    · exact .none rfl rfl
  rw [if_neg hend]
  by_cases hrun : child.name = "r"
  · rw [if_pos hrun, childRuns, if_pos hrun, textsOf, textsOf, append_nil]
    exact visitRun_adds ctx carried s child
  rw [if_neg hrun]
  by_cases hrev : child.name = "ins" ∨ child.name = "del" ∨ child.name = "moveFrom" ∨
      child.name = "moveTo"
  · rw [if_pos hrev, hinner (by rcases hrev with h | h | h | h <;> rw [h] <;> decide) hrun]
    split
    next kind key _ _ =>
      have h := hrecurse carried { s with revStack := (key, kind) :: s.revStack } child
      exact ⟨h.views, h.tiles⟩
    next => exact hrecurse carried s child
  rw [if_neg hrev]
  by_cases hlink : child.name = "hyperlink"
  · rw [if_pos hlink, hinner (by rw [hlink]; decide) hrun]
    exact hrecurse carried s child
  · rw [if_neg hlink, hother rfl hrun]
    · exact .none rfl rfl
    · simp only [not_or] at hrev
      simp [isTransparent, hlink, hrev]

/-- The walk over a container meets the texts of its runs, whatever rPr is carried into it. -/
theorem visitContainer_adds : ∀ (fuel : Nat) (carried : Bytes) (s : WalkerState)
    (node : ElementNode),
    Adds ctx (textsOf ctx.toPartTree carried (runsOf ctx.nodes fuel node)) s (visitContainer ctx fuel s node)
  | 0, _, _, _ => .none rfl rfl
  | fuel + 1, carried, s, node => by
    rw [visitContainer, runsOf]
    generalize nodesAt ctx.nodes node.children = children
    induction children generalizing s carried with
    | nil => exact .none rfl rfl
    | cons child rest ih =>
      rw [foldl_cons, flatMap_cons, textsOf_append]
      exact (visitChild_adds ctx (visitContainer_adds fuel) carried s child).trans (ih _ _)

end Projection

/-! ## One paragraph -/

/-- A leaf and a segment that show the same text, with the same rights and the same style. -/
structure Matches (crates : Crates) (leaf : ProseLeaf) (segment : Segment) : Prop where
  text : segment.text = leaf.text
  editable : segment.editable = leaf.editable
  style : styleIdForRpr crates leaf.rpr = .ok segment.styleId

/-- The rPr carried to a text has the style of the text's own run. -/
def StyleCarried (crates : Crates) (text : RunText) : Prop :=
  styleIdForRpr crates text.carriedRpr = .ok text.ownStyle

instance (crates : Crates) (text : RunText) : Decidable (StyleCarried crates text) :=
  inferInstanceAs (Decidable (_ = _))

/-- The texts of a paragraph; no rPr is carried into it. -/
def paragraphTexts (tree : PartTree) (node : ElementNode) : List RunText :=
  textsOf tree [] (runsOf tree.nodes tree.nodes.length node)

section Paragraph

variable (ctx : ParagraphContext) (node : ElementNode)

theorem extractParagraph_views :
    leafViews (extractParagraph ctx node).1 =
      (paragraphTexts ctx.toPartTree node).map fun text =>
        (text.text, decide ((extractParagraph ctx node).2 = []) && !text.isDeleted,
          text.carriedRpr) := by
  have h := (processContainer_views ctx ctx.nodes.length false {} node).1
  rw [show leafViews ({} : ExtractState).leaves = [] from rfl, nil_append] at h
  simp only [extractParagraph]
  by_cases hlocked : (processContainer ctx ctx.nodes.length false {} node).opaques = []
  · simpa [hlocked, carriedViews, paragraphTexts] using h
  · -- a locked paragraph: only the right to edit changes
    have hlock : ∀ leaves : List ProseLeaf,
        leafViews (leaves.map fun leaf => { leaf with editable := false }) =
          (leafViews leaves).map fun view => (view.1, false, view.2.2) := by
      intro leaves
      simp [leafViews, filter_map, Function.comp_def]
    simp only [hlocked, if_false, decide_false, Bool.false_and]
    rw [hlock, h, carriedViews, map_map]
    rfl

/-- The visible text is that of the non-empty leaves, one after the other. -/
theorem visibleText_eq {leaves : List ProseLeaf} (h : ∀ leaf ∈ leaves, Reads ctx leaf) :
    (leaves.filter fun leaf => leaf.textStart != leaf.textEnd).flatMap (·.text) =
      (leafViews leaves).flatMap (·.1) := by
  induction leaves with
  | nil => rfl
  | cons leaf rest ih =>
    have ih := ih fun leaf hleaf => h leaf (mem_cons_of_mem _ hleaf)
    have hempty := (h leaf mem_cons_self).text_eq_nil
    simp only [leafViews] at ih ⊢
    by_cases htext : leaf.text = []
    · by_cases hrange : leaf.textStart = leaf.textEnd
      · simpa [htext, hrange] using ih
      · simpa [htext, hrange] using ih
    · have hrange : leaf.textStart ≠ leaf.textEnd := fun heq => htext (hempty heq)
      simpa [htext, hrange] using ih

/-- The walker of the paragraph, as the projection sets it up. -/
structure WalksParagraph (walker : WalkerContext) : Prop where
  tree : walker.toPartTree = ctx.toPartTree
  editable : walker.paragraphEditable = decide ((extractParagraph ctx node).2 = [])

variable {ctx node}

section Walked

variable {walker : WalkerContext} (hwalker : WalksParagraph ctx node walker)
  {s : WalkerState} (hsegments : s.segments = []) (hoffset : s.offset = 0)

include hwalker hsegments

theorem visitContainer_views :
    segmentViews (visitContainer walker walker.nodes.length s node).segments =
      (paragraphTexts ctx.toPartTree node).map fun text =>
        (text.text, decide ((extractParagraph ctx node).2 = []) && !text.isDeleted,
          text.ownStyle) := by
  have h := (visitContainer_adds walker walker.nodes.length [] s node).views
  rw [h, hsegments, ownViews, hwalker.tree, hwalker.editable]
  simp only [segmentViews, map_nil, nil_append, paragraphTexts]

/-- Leaves and segments correspond exactly when every style is carried right. -/
theorem matches_iff (crates : Crates) :
    List.Forall₂ (Matches crates) ((extractParagraph ctx node).1.filter (·.text ≠ []))
        (visitContainer walker walker.nodes.length s node).segments ↔
      ∀ text ∈ paragraphTexts ctx.toPartTree node, StyleCarried crates text := by
  -- both sides through what the comparison reads of them
  have hviews : ∀ (leaves : List ProseLeaf) (segments : List Segment),
      List.Forall₂ (Matches crates) leaves segments ↔
        List.Forall₂ (fun (x : Text × Bool × Text) (y : Text × Bool × String) =>
            y.1 = x.1 ∧ y.2.1 = x.2.1 ∧ styleIdForRpr crates x.2.2 = .ok y.2.2)
          (leaves.map fun leaf => (leaf.text, leaf.editable, leaf.rpr))
          (segmentViews segments) := by
    intro leaves segments
    rw [segmentViews, List.forall₂_map_left_iff, List.forall₂_map_right_iff]
    constructor
    · exact fun h => h.imp fun _ _ h => ⟨h.text, h.editable, h.style⟩
    · exact fun h => h.imp fun _ _ h => ⟨h.1, h.2.1, h.2.2⟩
  have hleaves := extractParagraph_views ctx node
  rw [leafViews] at hleaves
  rw [hviews, hleaves, visitContainer_views hwalker hsegments, List.forall₂_map_left_iff,
    List.forall₂_map_right_iff, List.forall₂_same]
  exact ⟨fun h text htext => (h text htext).2.2, fun h text htext => ⟨rfl, rfl, h text htext⟩⟩

include hoffset

/-- The segments tile the visible text, whatever the styles. -/
theorem visitContainer_tiles :
    Tiles 0 (visitContainer walker walker.nodes.length s node).segments
      (((extractParagraph ctx node).1.filter fun leaf =>
        leaf.textStart != leaf.textEnd).flatMap (·.text)).length := by
  have htiles := (visitContainer_adds walker walker.nodes.length [] s node).tiles
    (by rw [hsegments, hoffset]; rfl)
  have htexts : ((visitContainer walker walker.nodes.length s node).segments.flatMap (·.text)) =
      (leafViews (extractParagraph ctx node).1).flatMap (·.1) := by
    have h := congrArg (List.flatMap (·.1)) (visitContainer_views hwalker hsegments)
    rw [segmentViews, flatMap_map] at h
    rw [extractParagraph_views, flatMap_map]
    simpa [flatMap_map] using h
  rw [visibleText_eq ctx (extractParagraph_reads ctx node), ← htexts]
  have hstop := htiles.stop_eq
  rw [Nat.zero_add] at hstop
  rw [← hstop]
  exact htiles

end Walked

end Paragraph

end Docx2Typed
