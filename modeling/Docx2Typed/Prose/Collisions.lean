import Docx2Typed.Prose.Edits
import Docx2Typed.Prose.Decoding
import Docx2Typed.Prose.Leaves
import Docx2Typed.XmlWalker.Tree
import Docx2Typed.Library.Splice
import Docx2Typed.Zip.Stored

/-!
# Do the splices of a run collide?

The edits of one part become byte splices of the part as it was, sorted by their start and applied
from the last one to the first.  That is the simultaneous replacement of the ranges as long as
they lie apart, and nothing checks that they do.

Shares of different text elements, and a share and a start tag, always lie apart.  So the splices
of a part lie apart exactly when no two shares of one text element overlap, no start tag is
rewritten twice, and no run that a tracked edit rewrites meets anything else.
-/

namespace Docx2Typed

open Library List

/-- What an edit writes to: a share of a text element, an element's start tag, or a run.  A text
element is named by the end of its start tag. -/
inductive Target where
  | share (element start stop : Nat)
  | startTag (element start : Nat)
  | run (start stop : Nat)
  deriving DecidableEq, Repr

def Target.range : Target → Nat × Nat
  | .share _ start stop => (start, stop)
  | .startTag element start => (start, element)
  | .run start stop => (start, stop)

def Overlap (a b : Nat × Nat) : Prop := a.1 < b.2 ∧ b.1 < a.2

instance (a b : Nat × Nat) : Decidable (Overlap a b) := inferInstanceAs (Decidable (_ ∧ _))

/-- Two targets that must not both be written. -/
def Target.Collide : Target → Target → Prop
  | .share element start stop, .share element' start' stop' =>
    element = element' ∧ Overlap (start, stop) (start', stop')
  | .startTag element _, .startTag element' _ => element = element'
  | .share _ _ _, .startTag _ _ => False
  | .startTag _ _, .share _ _ _ => False
  | .run start stop, target => Overlap (start, stop) target.range
  | target, .run start stop => Overlap target.range (start, stop)

section Part

variable (part : Bytes) (inventory : ProseInventory) (partKey : String)

/-- The targets of a direct edit. -/
def shareTargets (edit : IslandEdit) : Bool → List SpanCover → List Target
  | _, [] => []
  | isFirst, cover :: rest =>
    if cover.covered = [] then shareTargets edit false rest
    else
      match resolveLeaf inventory partKey edit.paragraphId cover.leafIndex with
      | .error _ => []
      | .ok leaf =>
        match findOldByteRange part leaf.textStart leaf.textEnd cover.covered with
        | .ok (some (start, stop)) =>
          .share leaf.openEnd start stop ::
            ((if isFirst ∧ needsXmlSpace edit.new then
              (maybeInjectXmlSpace part leaf.openEnd).toList.map fun splice =>
                .startTag leaf.openEnd splice.start
            else []) ++ shareTargets edit false rest)
        | _ => []

/-- The targets of an edit. -/
def editTargets (edit : IslandEdit) : List Target :=
  match matchLeafSpanAt inventory partKey edit.paragraphId edit.leafIndex edit.old edit.charStart with
  | .ok (some span) =>
    if edit.tracked then
      match coveredRuns part inventory partKey edit.paragraphId span.covers [] with
      | .ok runs => runs.map fun run => .run run.start run.stop
      | .error _ => []
    else shareTargets part inventory partKey edit true span.covers
  | _ => []

/-- No two targets of some edits collide. -/
def TargetsApart (edits : List IslandEdit) : Prop :=
  (edits.flatMap (editTargets part inventory partKey)).Pairwise fun a b => ¬ a.Collide b

end Part

/-- In every step of the run, no two targets collide. -/
def RunTargetsApart (crates : Crates) : Bytes → Nat → List (String × List IslandEdit) → Prop
  | _, _, [] => True
  | current, nextId, group :: rest =>
    (∀ part inventory, readPartBytes crates current (partPath group.1) = .ok part →
      enumeratePackage crates current = .ok inventory →
        TargetsApart part inventory group.1 group.2) ∧
    ∀ log current' nextId', applyPart crates current nextId group = .ok (log, current', nextId') →
      RunTargetsApart crates current' nextId' rest

/-! ## The ranges of a plan -/

/-- The range a splice replaces. -/
def Splice.range (splice : Splice) : Nat × Nat := (splice.start, splice.stop)

def Splice.cut (splice : Splice) : Cut UInt8 :=
  ⟨splice.start, splice.stop, splice.replacement.bytes⟩

variable {nextId nextId' : Nat} {splices : List Splice}

section Part

variable {part : Bytes} {inventory : ProseInventory} {partKey : String}

theorem maybeInjectXmlSpace_stop {openEnd : Nat} {splice : Splice}
    (h : maybeInjectXmlSpace part openEnd = some splice) :
    splice.stop = openEnd ∧ ∃ start, splice.start = start ∧
      findLast (fun rest => rest.head? == some (byte '<')) (part.take openEnd) = some start := by
  rw [maybeInjectXmlSpace] at h
  split at h
  · cases h
  next start hstart =>
    simp only at h
    split at h
    · cases h
    · obtain rfl := Option.some.inj h
      exact ⟨rfl, start, rfl, hstart⟩

theorem ranges_directSplices {edit : IslandEdit} : ∀ {covers : List SpanCover} {isFirst : Bool}
    {splices : List Splice},
    directSplices part inventory partKey edit isFirst covers = .ok splices →
      splices.map Splice.range =
        (shareTargets part inventory partKey edit isFirst covers).map Target.range
  | [], _, splices, h => by
    obtain rfl := Except.ok.inj h
    rfl
  | cover :: rest, isFirst, splices, h => by
    rw [shareTargets]
    by_cases hcovered : cover.covered = []
    · rw [directSplices, if_pos hcovered] at h
      rw [if_pos hcovered]
      exact ranges_directSplices h
    obtain ⟨leaf, start, stop, others, hleaf, hfound, hothers, rfl⟩ :=
      directSplices_cons_eq_ok hcovered h
    rw [if_neg hcovered]
    simp only [hleaf, hfound]
    rw [map_append, ranges_directSplices hothers]
    cases isFirst with
    | false => simp [Splice.range, Target.range]
    | true =>
      have htag : ∀ splice ∈ (maybeInjectXmlSpace part leaf.openEnd).toList,
          splice.range = (splice.start, leaf.openEnd) := by
        intro splice hsplice
        rw [Splice.range, (maybeInjectXmlSpace_stop (Option.mem_toList.mp hsplice)).1]
      by_cases hspace : needsXmlSpace edit.new = true
      · simp only [if_true, hspace, and_self, map_cons, map_append, map_map,
          cons_append]
        refine congrArg₂ List.cons rfl (congrArg₂ (· ++ ·) ?_ rfl)
        exact map_congr_left htag
      · simp [hspace, Splice.range, Target.range]

theorem ranges_runSplices (edit : IslandEdit) (span : LeafSpanMatch) (insertRpr : Text)
    (deleteId : Nat) : ∀ (isFirst : Bool) (runs : List CoveredRun),
    (runSplices edit span insertRpr deleteId isFirst runs).map Splice.range =
      runs.map fun run => (run.start, run.stop)
  | _, [] => rfl
  | isFirst, run :: rest => by
    rw [runSplices, map_cons, map_cons, ranges_runSplices]
    rfl

theorem ranges_planEdit {edit : IslandEdit}
    (h : planEdit part inventory partKey nextId edit = .ok (splices, nextId')) :
    splices.map Splice.range = (editTargets part inventory partKey edit).map Target.range := by
  obtain ⟨span, hspan, hcase⟩ := planEdit_eq_ok h
  rcases hcase with ⟨htracked, -, run, rest, hruns, rfl⟩ | ⟨hdirect, -, hsplices⟩
  · simp only [editTargets, hspan, htracked, if_true, hruns]
    rw [ranges_runSplices, map_map]
    rfl
  · simp only [editTargets, hspan, hdirect, Bool.false_eq_true, if_false]
    exact ranges_directSplices hsplices

theorem ranges_planEdits : ∀ {edits : List IslandEdit} {nextId nextId' : Nat}
    {splices : List Splice},
    planEdits part inventory partKey nextId edits = .ok (splices, nextId') →
      splices.map Splice.range =
        (edits.flatMap (editTargets part inventory partKey)).map Target.range
  | [], _, _, _, h => by
    obtain ⟨rfl, rfl⟩ := Prod.mk.inj (Except.ok.inj h)
    rfl
  | edit :: rest, nextId, nextId', splices, h => by
    obtain ⟨here, middle, others, hhere, hothers, rfl⟩ := planEdits_cons_eq_ok h
    rw [map_append, ranges_planEdit hhere, ranges_planEdits hothers, flatMap_cons,
      map_append]

end Part

/-! ## Where the targets lie -/

theorem findLast_eq_some {p : Bytes → Bool} : ∀ {l : Bytes} {i : Nat}, findLast p l = some i →
    i < l.length ∧ ∀ j, j < l.length → p (l.drop j) = true → j ≤ i
  | [], _, h => by cases h
  | b :: rest, i, h => by
    rw [findLast] at h
    split at h
    next k hk =>
      obtain rfl := Option.some.inj h
      obtain ⟨hlt, hlast⟩ := findLast_eq_some hk
      refine ⟨Nat.succ_lt_succ hlt, fun j hj hp => ?_⟩
      cases j with
      | zero => exact Nat.zero_le _
      | succ j => exact Nat.succ_le_succ (hlast j (Nat.lt_of_succ_lt_succ hj) hp)
    next hnone =>
      split at h
      · obtain rfl := Option.some.inj h
        refine ⟨Nat.succ_pos _, fun j hj hp => ?_⟩
        cases j with
        | zero => exact Nat.le_refl _
        | succ j =>
          -- a later place would have been found
          have hlater : ∀ {l : Bytes} {j : Nat}, j < l.length → p (l.drop j) = true →
              findLast p l ≠ none := by
            intro l
            induction l with
            | nil => intro j hj; cases hj
            | cons b rest ih =>
              intro j hj hp hnone
              rw [findLast] at hnone
              split at hnone
              · cases hnone
              next hrest =>
                cases j with
                | zero =>
                  rw [drop_zero] at hp
                  simp [hp] at hnone
                | succ j => exact ih (Nat.lt_of_succ_lt_succ hj) hp hrest
          exact absurd hnone (hlater (Nat.lt_of_succ_lt_succ hj) hp)
      · cases h

variable {leaf : ProseLeaf} {part : Bytes}

/-- The range of a run is one of the part. -/
theorem runRangeForLeaf_inside {start stop : Nat} {rpr : Text}
    (h : runRangeForLeaf part leaf = .ok (start, stop, rpr)) :
    start < stop ∧ stop ≤ part.length := by
  rw [runRangeForLeaf] at h
  simp only at h
  split at h
  · exact (refuse_ne_ok h).elim
  next runStart hstart =>
    split at h
    · exact (refuse_ne_ok h).elim
    next runEnd hend =>
      split at h
      · exact (refuse_ne_ok h).elim
      next hcount =>
        obtain ⟨rfl, rfl, -⟩ : _ ∧ _ ∧ _ := by simpa [pure, Except.pure] using h
        have hle := findSub_add_length_le hend
        rw [show (bytes "</w:r>").length = 6 by decide, length_drop] at hle
        refine ⟨?_, by omega⟩
        by_contra hge
        have hempty : slice part runStart (min leaf.textEnd part.length + runEnd + 6) = [] := by
          rw [slice]
          refine drop_eq_nil_of_le ?_
          rw [length_take]
          omega
        rw [hempty] at hcount
        exact hcount (.inr (by decide))

/-- Where a target lies in its part. -/
def Target.Placed (part : Bytes) : Target → Prop
  | .share element start stop => ∃ nodes node, buildTree (scanTags part) = .ok nodes ∧
      node ∈ nodes ∧ node.openEnd = element ∧ node.children = [] ∧ element ≤ start ∧
      start < stop ∧ stop ≤ node.closeStart
  | .startTag element start => ∃ nodes node, buildTree (scanTags part) = .ok nodes ∧
      node ∈ nodes ∧ node.openEnd = element ∧ node.openStart ≤ start ∧ start < element
  | .run start stop => start < stop ∧ stop ≤ part.length

theorem of_mem_pushRun {P : CoveredRun → Prop} {runs : List CoveredRun} {run : CoveredRun}
    (hkeep : ∀ a b : CoveredRun, a.start = b.start → a.stop = b.stop → P a → P b)
    (hruns : ∀ r ∈ runs, P r) (hrun : P run) : ∀ r ∈ pushRun runs run, P r := by
  rw [pushRun]
  split
  next previous hprevious =>
    have hmem : previous ∈ runs := mem_of_getLast? hprevious
    split
    · refine forall_mem_append.mpr ⟨fun r hr => hruns r (mem_of_mem_dropLast hr), ?_⟩
      intro r hr
      obtain rfl := mem_singleton.mp hr
      exact hkeep previous _ rfl rfl (hruns _ hmem)
    · exact forall_mem_append.mpr ⟨hruns, by simpa using hrun⟩
  · simpa using hrun

theorem resolveLeaf_eq_ok {inventory : ProseInventory} {partKey paragraphId : String}
    {leafIndex : Nat} (h : resolveLeaf inventory partKey paragraphId leafIndex = .ok leaf) :
    leaf ∈ inventory.leaves ∧ leaf.partKey = partKey ∧ leaf.paragraphId = paragraphId ∧
      leaf.leafIndex = leafIndex ∧ leaf.editable = true := by
  rw [resolveLeaf] at h
  split at h
  · exact (refuse_ne_ok h).elim
  next found hfound =>
    split at h
    next heditable =>
      obtain rfl := Except.ok.inj h
      have hmatch := find?_some hfound
      simp only [decide_eq_true_eq] at hmatch
      exact ⟨mem_of_find?_eq_some hfound, hmatch.1, hmatch.2.1, hmatch.2.2, heditable⟩
    · exact (refuse_ne_ok h).elim

section Placed

variable {crates : Crates} (hnames : crates.IndexesByName) {package part : Bytes}
  {inventory : ProseInventory} {partKey : String}
  (hpart : readPartBytes crates package (partPath partKey) = .ok part)
  (hinventory : enumeratePackage crates package = .ok inventory)

include hnames hpart hinventory

/-- A leaf of the part is read from one of its text elements. -/
theorem leaf_element (hleaf : leaf ∈ inventory.leaves) (hkey : leaf.partKey = partKey) :
    ∃ nodes, buildTree (scanTags part) = .ok nodes ∧
      Reads ⟨⟨crates, part, nodes⟩, leaf.partKey, leaf.paragraphId⟩ leaf := by
  obtain ⟨parts, hparts, hinventory⟩ := bind_eq_ok hinventory
  split at hinventory
  · cases hinventory
  obtain ⟨xml, nodes, hxml, hnodes, hreads⟩ := enumerateParts_leaf hinventory hleaf
  rw [hkey] at hxml
  obtain rfl := readPartBytes_eq hnames hparts hxml hpart
  exact ⟨nodes, hnodes, hreads⟩

theorem placed_shareTargets (edit : IslandEdit) : ∀ (isFirst : Bool) (covers : List SpanCover),
    ∀ target ∈ shareTargets part inventory partKey edit isFirst covers, target.Placed part
  | _, [] => by simp [shareTargets]
  | isFirst, cover :: rest => by
    have ih := placed_shareTargets edit false rest
    rw [shareTargets]
    split
    · exact ih
    · split
      · simp
      next leaf hleaf =>
        obtain ⟨hmem, hkey, -⟩ := resolveLeaf_eq_ok hleaf
        obtain ⟨nodes, hnodes, hreads⟩ := leaf_element hnames hpart hinventory hmem hkey
        obtain ⟨node, hnode, hopen, hrange⟩ := hreads.element
        obtain ⟨hstart, hstop⟩ := Prod.mk.inj hrange
        split
        next start stop hfound =>
          obtain ⟨hge, hlt, hle, -⟩ := findOldByteRange_inside hfound
          rw [hstart, ← hopen] at hge
          rw [hstop] at hle
          have hchildren : node.children = [] := by
            by_contra hne
            rw [if_neg hne, ← hopen] at hle
            omega
          rw [if_pos hchildren] at hle
          have hlies := (buildTree_geometry hnodes).1 node hnode
          refine forall_mem_cons.mpr ⟨?_, forall_mem_append.mpr ⟨?_, ih⟩⟩
          · exact ⟨nodes, node, hnodes, hnode, hopen.symm, hchildren, hge, hlt, hle⟩
          · split
            · intro target htarget
              obtain ⟨splice, hsplice, rfl⟩ := mem_map.mp htarget
              obtain ⟨-, place, hplace, hlast⟩ :=
                maybeInjectXmlSpace_stop (Option.mem_toList.mp hsplice)
              obtain ⟨hin, hlatest⟩ := findLast_eq_some hlast
              rw [length_take] at hin hlatest
              -- the element's own `<` is not behind the one found
              have hhead : ((part.take leaf.openEnd).drop node.openStart).head? = some (byte '<') := by
                rw [List.drop_take, head?_take, head_drop_openStart hnodes hnode,
                  if_neg (by have := hlies.openTag; omega)]
              have hfirst := hlatest node.openStart
                (by have := hlies.openTag; have := hlies.content; have := hlies.closeTag
                    have := hlies.stop; omega)
                (by rw [hhead]; simp)
              exact ⟨nodes, node, hnodes, hnode, hopen.symm, by omega, by omega⟩
            · simp
        · simp

theorem placed_editTargets (edit : IslandEdit) :
    ∀ target ∈ editTargets part inventory partKey edit, target.Placed part := by
  rw [editTargets]
  split
  next span _ =>
    split
    · split
      next runs hruns =>
        have hall : ∀ (covers : List SpanCover) (runs runs' : List CoveredRun),
            coveredRuns part inventory partKey edit.paragraphId covers runs = .ok runs' →
              (∀ run ∈ runs, run.start < run.stop ∧ run.stop ≤ part.length) →
                ∀ run ∈ runs', run.start < run.stop ∧ run.stop ≤ part.length := by
          intro covers
          induction covers with
          | nil =>
            intro runs runs' h hin
            obtain rfl := Except.ok.inj h
            exact hin
          | cons cover rest ih =>
            intro runs runs' h hin
            rw [coveredRuns] at h
            split at h
            · exact ih _ _ h hin
            · obtain ⟨leaf, -, h⟩ := bind_eq_ok h
              obtain ⟨⟨start, stop, rpr⟩, hrange, h⟩ := bind_eq_ok h
              refine ih _ _ h (of_mem_pushRun ?_ hin (runRangeForLeaf_inside hrange))
              intro a b hstart hstop hin
              rwa [← hstart, ← hstop]
        intro target htarget
        obtain ⟨run, hrun, rfl⟩ := mem_map.mp htarget
        exact hall _ _ _ hruns (by simp) run hrun
      · simp
    · exact placed_shareTargets hnames hpart hinventory edit _ _
  · simp

end Placed

/-! ## Apart and colliding -/

/-- The ranges of two targets are apart. -/
def RangesApart (a b : Nat × Nat) : Prop := a.2 ≤ b.1 ∨ b.2 ≤ a.1

theorem rangesApart_iff {a b : Nat × Nat} : RangesApart a b ↔ ¬ Overlap a b := by
  unfold RangesApart Overlap
  omega

theorem Overlap.symm {a b : Nat × Nat} (h : Overlap a b) : Overlap b a := ⟨h.2, h.1⟩

theorem Target.Placed.range_lt : ∀ {target : Target}, target.Placed part →
    target.range.1 < target.range.2 ∧ target.range.2 ≤ part.length
  | .share _ _ _, ⟨_, node, hnodes, hnode, _, _, _, hlt, hle⟩ => by
    have hlies := (buildTree_geometry hnodes).1 node hnode
    have := hlies.closeTag
    have := hlies.stop
    exact ⟨hlt, by simp only [Target.range]; omega⟩
  | .startTag _ _, ⟨_, node, hnodes, hnode, hopen, _, hlt⟩ => by
    have hlies := (buildTree_geometry hnodes).1 node hnode
    have := hlies.content
    have := hlies.closeTag
    have := hlies.stop
    exact ⟨hlt, by simp only [Target.range]; omega⟩
  | .run _ _, h => h

/-- Two elements of a part: one and the same, or one before the other. -/
theorem before_or_eq {nodes : List ElementNode} (hnodes : buildTree (scanTags part) = .ok nodes)
    {a b : ElementNode} (ha : a ∈ nodes) (hb : b ∈ nodes) : a = b ∨ a.Before b ∨ b.Before a := by
  obtain ⟨i, hi, rfl⟩ := mem_iff_getElem.mp ha
  obtain ⟨j, hj, rfl⟩ := mem_iff_getElem.mp hb
  have hbefore := pairwise_iff_getElem.mp (buildTree_geometry hnodes).2
  rcases Nat.lt_trichotomy i j with h | h | h
  · exact .inr (.inl (hbefore i j hi hj h))
  · subst h
    exact .inl rfl
  · exact .inr (.inr (hbefore j i hj hi h))

theorem openEnd_ne_of_before {a b : ElementNode} {lo hi : Nat} (ha : a.Lies lo hi) (hb : b.Lies lo hi)
    (h : a.Before b) : a.openEnd < b.openEnd := by
  have := ha.content
  have := ha.closeTag
  have := hb.openTag
  rcases h with h | ⟨-, h, -⟩
  · omega
  · omega

/-- A share does not reach into a start tag. -/
theorem Target.Placed.not_overlap {element start stop element' start' : Nat}
    (ha : (Target.share element start stop).Placed part)
    (hb : (Target.startTag element' start').Placed part) :
    ¬ Overlap (start, stop) (start', element') := by
  obtain ⟨nodes, node, hnodes, hnode, hopen, hchildren, hge, hlt, hle⟩ := ha
  obtain ⟨nodes', node', hnodes', hnode', hopen', hge', hlt'⟩ := hb
  obtain rfl := Except.ok.inj (hnodes.symm.trans hnodes')
  have hlies := (buildTree_geometry hnodes).1 node hnode
  have := hlies.closeTag
  rintro ⟨h₁, h₂⟩
  simp only at h₁ h₂
  rcases before_or_eq hnodes hnode hnode' with rfl | h | h
  · omega
  · rcases h with h | ⟨h, -⟩
    · omega
    · exact absurd hchildren h
  · have := openEnd_ne_of_before ((buildTree_geometry hnodes).1 node' hnode') hlies h
    omega

/-- Placed targets are apart unless they collide. -/
theorem Target.Placed.apart_iff {a b : Target} (ha : a.Placed part) (hb : b.Placed part) :
    RangesApart a.range b.range ↔ ¬ a.Collide b := by
  rw [rangesApart_iff, not_iff_not]
  cases a with
  | run start stop => rfl
  | share element start stop =>
    cases b with
    | run start' stop' => rfl
    | share element' start' stop' =>
      obtain ⟨nodes, node, hnodes, hnode, hopen, hchildren, hge, hlt, hle⟩ := ha
      obtain ⟨nodes', node', hnodes', hnode', hopen', hchildren', hge', hlt', hle'⟩ := hb
      obtain rfl := Except.ok.inj (hnodes.symm.trans hnodes')
      have hlies := (buildTree_geometry hnodes).1 node hnode
      have hlies' := (buildTree_geometry hnodes).1 node' hnode'
      have := hlies.openTag
      have := hlies.closeTag
      have := hlies'.openTag
      have := hlies'.closeTag
      refine ⟨fun h => ⟨?_, h⟩, fun h => h.2⟩
      obtain ⟨h₁, h₂⟩ : start < stop' ∧ start' < stop := h
      rcases before_or_eq hnodes hnode hnode' with rfl | h | h
      · exact hopen.symm.trans hopen'
      · rcases h with h | ⟨h, -⟩
        · omega
        · exact absurd hchildren h
      · rcases h with h | ⟨h, -⟩
        · omega
        · exact absurd hchildren' h
    | startTag element' start' => exact iff_of_false (ha.not_overlap hb) id
  | startTag element start =>
    cases b with
    | run start' stop' => rfl
    | share element' start' stop' => exact iff_of_false (fun h => hb.not_overlap ha h.symm) id
    | startTag element' start' =>
      obtain ⟨nodes, node, hnodes, hnode, hopen, hge, hlt⟩ := ha
      obtain ⟨nodes', node', hnodes', hnode', hopen', hge', hlt'⟩ := hb
      obtain rfl := Except.ok.inj (hnodes.symm.trans hnodes')
      have hlies := (buildTree_geometry hnodes).1 node hnode
      have hlies' := (buildTree_geometry hnodes).1 node' hnode'
      have := hlies.content
      have := hlies.closeTag
      have := hlies'.content
      have := hlies'.closeTag
      constructor
      · intro h
        obtain ⟨h₁, h₂⟩ : start < element' ∧ start' < element := h
        rcases before_or_eq hnodes hnode hnode' with rfl | h | h
        · exact hopen.symm.trans hopen'
        · rcases h with h | ⟨-, h, -⟩
          · omega
          · omega
        · rcases h with h | ⟨-, h, -⟩
          · omega
          · omega
      · intro h
        have h : element = element' := h
        exact ⟨by simp only [Target.range]; omega, by simp only [Target.range]; omega⟩

/-! ## All at once -/

/-- The splices of a part lie apart in it, and the new part is the simultaneous replacement. -/
structure PartLog.Simultaneous (log : PartLog) : Prop where
  inside : ∀ splice ∈ log.splices, splice.start ≤ splice.stop ∧ splice.stop ≤ log.original.length
  apart : log.splices.Pairwise fun a b => RangesApart a.range b.range
  patched : log.patched = replaceAll log.original
    ((log.splices.map Splice.cut).insertionSort fun a b => a.start ≤ b.start)

/-- The splices applied one after the other, as long as none is out of range. -/
theorem foldlM_spliceBytes : ∀ {splices : List Splice} {part patched : Bytes},
    splices.foldlM spliceBytes part = .ok patched →
      patched = (splices.map Splice.cut).foldl (fun xs cut => cut.apply xs) part
  | [], _, _, h => by
    obtain rfl := Except.ok.inj h
    rfl
  | splice :: rest, part, patched, h => by
    rw [foldlM_cons] at h
    obtain ⟨middle, hmiddle, h⟩ := bind_eq_ok h
    rw [spliceBytes] at hmiddle
    split at hmiddle
    · obtain rfl := Except.ok.inj hmiddle
      have ih := foldlM_spliceBytes h
      exact ih
    · cases hmiddle

theorem map_insertionSort_cut : ∀ splices : List Splice,
    (splices.insertionSort fun a b => a.start ≤ b.start).map Splice.cut =
      (splices.map Splice.cut).insertionSort fun a b => a.start ≤ b.start := by
  intro splices
  exact map_insertionSort _ _ _ _ (fun _ _ _ _ => Iff.rfl)

theorem applySplices_eq {part patched : Bytes} (h : applySplices part splices = .ok patched) :
    patched = applyCuts part ((splices.map Splice.cut).insertionSort fun a b => a.start ≤ b.start) := by
  rw [foldlM_spliceBytes h, map_reverse, foldl_reverse, map_insertionSort_cut]
  rfl

section Run

variable {crates : Crates} (hnames : crates.IndexesByName)

include hnames

/-- The splices of one part are simultaneous exactly when its targets are apart. -/
theorem applyPart_simultaneous_iff {current current' : Bytes} {group : String × List IslandEdit}
    {log : PartLog} (h : applyPart crates current nextId group = .ok (log, current', nextId')) :
    log.Simultaneous ↔ ∀ part inventory, readPartBytes crates current (partPath group.1) = .ok part →
      enumeratePackage crates current = .ok inventory →
        TargetsApart part inventory group.1 group.2 := by
  obtain ⟨part, inventory, splices, patched, hpart, hinventory, hplan, hpatched, rfl⟩ :=
    applyPart_eq_ok h
  have hranges := ranges_planEdits hplan
  have hplaced : ∀ target ∈ group.2.flatMap (editTargets part inventory group.1),
      target.Placed part := by
    intro target htarget
    obtain ⟨edit, -, htarget⟩ := mem_flatMap.mp htarget
    exact placed_editTargets hnames hpart hinventory edit target htarget
  have hapart : (splices.Pairwise fun a b => RangesApart a.range b.range) ↔
      TargetsApart part inventory group.1 group.2 := by
    have hmap : (splices.Pairwise fun a b => RangesApart a.range b.range) ↔
        (splices.map Splice.range).Pairwise RangesApart := pairwise_map.symm
    rw [hmap, hranges, pairwise_map, TargetsApart]
    constructor
    · exact fun h => h.imp_of_mem fun ha hb hab => ((hplaced _ ha).apart_iff (hplaced _ hb)).mp hab
    · exact fun h => h.imp_of_mem fun ha hb hab => ((hplaced _ ha).apart_iff (hplaced _ hb)).mpr hab
  have hinside : ∀ splice ∈ splices, splice.start < splice.stop ∧ splice.stop ≤ part.length := by
    intro splice hsplice
    have hmem : splice.range ∈ splices.map Splice.range := mem_map_of_mem hsplice
    rw [hranges] at hmem
    obtain ⟨target, htarget, hrange⟩ := mem_map.mp hmem
    have := (hplaced target htarget).range_lt
    rwa [hrange] at this
  constructor
  · intro hlog part' inventory' hpart' hinventory'
    obtain rfl := Except.ok.inj (hpart.symm.trans hpart')
    obtain rfl := Except.ok.inj (hinventory.symm.trans hinventory')
    exact hapart.mp hlog.apart
  · intro htargets
    have hsplices := hapart.mpr (htargets part inventory hpart hinventory)
    refine ⟨fun splice hsplice => ?_, hsplices, ?_⟩
    · exact ⟨(hinside splice hsplice).1.le, (hinside splice hsplice).2⟩
    · rw [applySplices_eq hpatched]
      refine applyCuts_eq_replaceAll (ordered_insertionSort ?_ ?_) ?_
      · exact pairwise_map.mpr hsplices
      · intro cut hcut
        obtain ⟨splice, hsplice, rfl⟩ := mem_map.mp hcut
        exact (hinside splice hsplice).1
      · intro cut hcut
        rw [mem_insertionSort] at hcut
        obtain ⟨splice, hsplice, rfl⟩ := mem_map.mp hcut
        exact ⟨(hinside splice hsplice).1.le, (hinside splice hsplice).2⟩

theorem applyParts_simultaneous_iff : ∀ {groups : List (String × List IslandEdit)}
    {current final : Bytes} {nextId : Nat} {logs : List PartLog},
    applyParts crates current nextId groups = .ok (logs, final) →
      ((∀ log ∈ logs, log.Simultaneous) ↔ RunTargetsApart crates current nextId groups)
  | [], _, _, _, _, h => by
    obtain ⟨rfl, rfl⟩ := Prod.mk.inj (Except.ok.inj h)
    simp [RunTargetsApart]
  | group :: rest, current, final, nextId, logs, h => by
    obtain ⟨log, current', middle, others, hpart, hothers, rfl⟩ := applyParts_cons_eq_ok h
    rw [forall_mem_cons, applyPart_simultaneous_iff hnames hpart,
      applyParts_simultaneous_iff hothers, RunTargetsApart]
    refine and_congr_right fun _ => ⟨?_, fun h => h _ _ _ hpart⟩
    -- the step is the one the run has taken
    intro hrest log' current'' nextId' hpart'
    obtain ⟨rfl, rfl, rfl⟩ : _ ∧ _ ∧ _ := by simpa using Except.ok.inj (hpart.symm.trans hpart')
    exact hrest

end Run

instance Target.decidableCollide (a b : Target) : Decidable (a.Collide b) := by
  cases a <;> cases b <;> unfold Target.Collide <;> infer_instance

/-- A direct edit of the first paragraph. -/
def directEdit (old new : String) : IslandEdit where
  part := "document"
  paragraphId := "P0"
  leafIndex := 0
  old := old.toList
  new := new.toList

end Docx2Typed
