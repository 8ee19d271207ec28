import Mathlib.Data.List.AList
import Mathlib.Data.Prod.Lex
import Mathlib.Data.String.Basic
import Docx2Typed.Style.CanonicalKids
import Docx2Typed.Tokens.Walk

/-!
# Vertical alignment moved into the text

A text whose style is the base style of its paragraph with one `w:vertAlign` more becomes a text in
the base style with a vertical mark.  Which element is taken out is decided by its local name and
its `val` alone: what else it says is lost (`promotion_lossless_iff`).
-/

namespace Docx2Typed

open Library.Utf8 (decodeLossy)
open List

/-- `StyleCatalog`: the rPr of each style and its canonical form. -/
structure StyleCatalog where
  entries : AList fun _ : Text => Text × Text
  canonical_eq : ∀ {id rpr canonical}, entries.lookup id = some (rpr, canonical) →
    canonicalRprJson rpr = .ok canonical

namespace StyleCatalog

variable (catalog : StyleCatalog)

def rpr (styleId : Text) : Option Text := (catalog.entries.lookup styleId).map Prod.fst

def canonical (styleId : Text) : Option Text := (catalog.entries.lookup styleId).map Prod.snd

/-! ## Promotion -/

def superscript : Text := "superscript".toList

def subscript : Text := "subscript".toList

/-- The `val` of a fragment's vertical alignment, if it has one such element. -/
def alignmentValue (fragment : RprFragment) : Option Text :=
  match fragment.children.filter (·.name = "vertAlign") with
  | [alignment] =>
    ((tagAttributePairs (slice fragment.bytes alignment.openStart alignment.stop)).find?
      (·.1 = "val")).map Prod.snd
  | _ => none

/-- `factor_vertical_style`. -/
def factorVerticalStyle (styleId baseStyleId : Text) : Option Text := do
  if styleId = [] ∨ styleId = baseStyleId then none
  else
    let regionRpr ← catalog.rpr styleId
    if "vertAlign".toList <:+: regionRpr then do
      let baseCanonical ← catalog.canonical baseStyleId
      let fragment ← (RprFragment.parse regionRpr).toOption
      let value ← alignmentValue fragment
      if value ≠ superscript ∧ value ≠ subscript then none
      else if (canonicalRpr (fragment.restyled "vertAlign" none)).toOption ≠ some baseCanonical then
        none
      else some value
    else none

/-- History inside a deletion is never rewritten. -/
def isHistory (kind : Text) : Bool := kind == "delete".toList || kind == "move_from".toList

mutual

/-- `promote_vertical_alignment` of a node, with the number of texts promoted. -/
def promoteNode (baseStyle : Text) (inHistory : Bool) : TypedNode → TypedNode × ℕ
  | .text styleId content vertical =>
    if inHistory then (.text styleId content vertical, 0)
    else
      match catalog.factorVerticalStyle styleId baseStyle with
      | some found => (.text baseStyle content (some found), 1)
      | none => (.text styleId content vertical, 0)
  | .range tokenId kind attrs children =>
    let walked := promoteNodes baseStyle inHistory children
    (.range tokenId kind attrs walked.1, walked.2)
  | .revision tokenId kind attrs children =>
    let walked := promoteNodes baseStyle (inHistory || isHistory kind) children
    (.revision tokenId kind attrs walked.1, walked.2)
  | .anchor tokenId kind attrs => (.anchor tokenId kind attrs, 0)
  | .inline tokenId kind styleId attrs => (.inline tokenId kind styleId attrs, 0)
  | .opaqueToken tokenId kind attrs => (.opaqueToken tokenId kind attrs, 0)

def promoteNodes (baseStyle : Text) (inHistory : Bool) : List TypedNode → List TypedNode × ℕ
  | [] => ([], 0)
  | node :: nodes =>
    let first := promoteNode baseStyle inHistory node
    let rest := promoteNodes baseStyle inHistory nodes
    (first.1 :: rest.1, first.2 + rest.2)

end

/-- `promote_vertical_alignment`. -/
def promoteVerticalAlignment (baseStyle : Text) (nodes : List TypedNode) : List TypedNode × ℕ :=
  catalog.promoteNodes baseStyle false nodes

/-! ## Base styles -/

/-- How many characters a style covers. -/
def styledChars (segments : List (Text × Text)) (styleId : Text) : ℕ :=
  ((segments.filter (·.1 = styleId)).map (·.2.length)).sum

/-- The style that covers more, the earlier one if neither does. -/
def preferStyle (segments : List (Text × Text)) (best : Option Text) (styleId : Text) :
    Option Text :=
  match best with
  | none => some styleId
  | some kept =>
    if styledChars segments kept < styledChars segments styleId then some styleId else some kept

/-- `choose_base_style`, of segments with a style and a text. -/
def chooseBaseStyle (segments : List (Text × Text)) (fallback : Text) : Text :=
  let counted := segments.filter (·.2 ≠ [])
  ((counted.map Prod.fst).foldl (preferStyle counted) none).getD fallback

mutual

/-- `collect_text_segments`: the texts that the final view shows. -/
def textSegmentsOf : TypedNode → List (Text × Text)
  | .text styleId content _ => [(styleId, content)]
  | .range _ _ _ children => textSegments children
  | .revision _ kind _ children => if isVisibleRevision kind then textSegments children else []
  | _ => []

/-- `text_segments`. -/
def textSegments : List TypedNode → List (Text × Text)
  | [] => []
  | node :: nodes => textSegmentsOf node ++ textSegments nodes

end

/-- `typed_part_key`: the body has the empty key. -/
def typedPartKey (part : String) : String := if part = "document" then "" else part

/-- `paragraph_rank`. -/
def paragraphRank (tree : ParagraphNodes) : ℕ × String :=
  let key := typedPartKey tree.part
  let rank :=
    if "header".toList.isPrefixOf key.toList then 0
    else if key = "" then 1
    else if "footer".toList.isPrefixOf key.toList then 2
    else if key = "footnotes" ∨ key = "endnotes" then 3
    else 4
  (rank, key)

structure PreparedParagraph where
  tree : ParagraphNodes
  baseStyle : Text
  nodes : List TypedNode

/-- The loop of `prepare_paragraphs`; only the paragraphs of the body have a base style. -/
def prepareFrom (fallback : Text) : List ParagraphNodes → List PreparedParagraph × ℕ
  | [] => ([], 0)
  | tree :: trees =>
    let inBody := typedPartKey tree.part == ""
    let chosen := chooseBaseStyle (textSegments tree.nodes) fallback
    let baseStyle := if inBody then chosen else []
    let walked := catalog.promoteVerticalAlignment baseStyle tree.nodes
    let rest := prepareFrom (if inBody then chosen else fallback) trees
    (⟨tree, baseStyle, walked.1⟩ :: rest.1, walked.2 + rest.2)

/-- `prepare_paragraphs`. -/
def prepareParagraphs (crates : Crates) (trees : List ParagraphNodes) :
    List PreparedParagraph × ℕ :=
  catalog.prepareFrom (defaultStyleId crates).toList
    (trees.insertionSort fun a b => toLex (paragraphRank a) ≤ toLex (paragraphRank b))

/-! ## What is lossless -/

/-- The canonical form of a `w:vertAlign` with a value. -/
def verticalCanon (value : Text) : Canon :=
  canonElement "w:vertAlign".toList [("w:val".toList, value)] []

theorem canonOf_vertAlign :
    canonOf (bytes "<w:vertAlign w:val=\"superscript\"/>") = some (verticalCanon superscript) ∧
      canonOf (bytes "<w:vertAlign w:val=\"subscript\"/>") = some (verticalCanon subscript) := by
  constructor
  · rfl
  · rfl

/-- The canonical form of a style with one `w:vertAlign` more. -/
def withAlignment (styleId value : Text) : Option Text := do
  let fragment ← (RprFragment.parse (← catalog.rpr styleId)).toOption
  some (fragment.canonicalWith [verticalCanon value])

/-- A style is the base style with one `w:vertAlign` of a value more. -/
def Factors (styleId baseStyleId value : Text) : Prop :=
  ∃ canonical ∈ catalog.canonical styleId,
    catalog.withAlignment baseStyleId value = some canonical

/-- The alignment says nothing but its value, and the root is read alike without it. -/
structure PlainAlignment (fragment : RprFragment) (value : Text) : Prop where
  alone : ∀ alignment ∈ fragment.children.filter (·.name = "vertAlign"),
    canonOf (slice fragment.bytes alignment.openStart alignment.stop) = some (verticalCanon value)
  root : ∀ remainder, RprFragment.read (fragment.restyled "vertAlign" none) = .ok remainder →
    elementQname remainder.bytes remainder.root = elementQname fragment.bytes fragment.root ∧
      remainder.canonicalAttributes = fragment.canonicalAttributes

/-- The alignment of a style is plain. -/
def PlainStyle (styleId value : Text) : Prop :=
  ∀ regionRpr ∈ catalog.rpr styleId, ∀ fragment, RprFragment.parse regionRpr = .ok fragment →
    PlainAlignment fragment value

/-! ## One style -/

theorem replaceChild_none (name : String) (kids : List RprChild) :
    replaceChild name none kids = kids.filter (·.name ≠ name) := by
  induction kids with
  | nil => rfl
  | cons x kids ih =>
    rw [replaceChild_cons]
    by_cases h : x.name = name
    · rw [if_pos h, ih, filter_cons_of_neg (by simpa using h)]
    · rw [if_neg h, ih, filter_cons_of_pos (by simpa using h)]

/-- Without its one alignment, a fragment has the other children. -/
theorem canonicalKids_perm {regionRpr : Text} {f f' : RprFragment} {alignment : ElementNode}
    (hread : RprFragment.parse regionRpr = .ok f)
    (halignment : f.children.filter (·.name = "vertAlign") = [alignment])
    (hrest : RprFragment.read (f.restyled "vertAlign" none) = .ok f') :
    f.canonicalKids.Perm (f'.canonicalKids ++
      (canonOf (slice f.bytes alignment.openStart alignment.stop)).toList) := by
  rw [← RprFragment.read_utf8] at hread
  have hplain : f.StartsPlain := by
    refine RprFragment.startsPlain hread fun hbody => ?_
    exact RprFragment.read_restyled_ne_ok hread hbody (fun _ h => by cases h) f' hrest
  obtain ⟨g, hg, hkids, -, -⟩ := @RprFragment.reads_restyled _ _ hread hplain "vertAlign" none
    fun _ h => by cases h
  obtain rfl := Except.ok.inj (hg.symm.trans hrest)
  rw [Option.map_none, replaceChild_none] at hkids
  have hname : alignment.name = "vertAlign" := by
    have hmem : alignment ∈ f.children.filter (·.name = "vertAlign") := by
      rw [halignment]
      exact mem_cons_self
    exact of_decide_eq_true (mem_filter.mp hmem).2
  set kid : RprChild := ⟨alignment.name, slice f.bytes alignment.openStart alignment.stop,
    alignment.children.isEmpty⟩ with hkid
  have hone : f.kids.filter (fun kid => decide (kid.name = "vertAlign")) = [kid] := by
    rw [RprFragment.kids, filter_map]
    exact congrArg (List.map _) halignment
  have hsplit : (g.kids ++ [kid]).Perm f.kids := by
    rw [hkids, ← hone]
    refine perm_append_comm.trans ?_
    have h := filter_append_perm (fun kid : RprChild => decide (kid.name = "vertAlign")) f.kids
    simpa using h
  have hperm := ((hsplit.filter fun kid => decide (kid.name ≠ "rPrChange")).filterMap
    fun kid => canonOf kid.written).symm
  rw [RprFragment.canonicalKids_eq hread, RprFragment.canonicalKids_eq hrest]
  refine hperm.trans (List.Perm.of_eq ?_)
  rw [filter_append, filterMap_append, filter_cons_of_pos (by simp [hkid, hname])]
  congr 1

theorem eq_ok_of_toOption {ε α : Type} {x : Except ε α} {a : α} (h : x.toOption = some a) :
    x = .ok a := by
  cases x with
  | error error => cases h
  | ok value => rw [Option.some.inj h]

theorem exists_of_factor {styleId baseStyleId value : Text}
    (h : catalog.factorVerticalStyle styleId baseStyleId = some value) :
    styleId ≠ baseStyleId ∧ ∃ regionRpr baseCanonical f f' alignment,
      catalog.rpr styleId = some regionRpr ∧ catalog.canonical baseStyleId = some baseCanonical ∧
      RprFragment.parse regionRpr = .ok f ∧
      f.children.filter (·.name = "vertAlign") = [alignment] ∧
      RprFragment.read (f.restyled "vertAlign" none) = .ok f' ∧
      f'.canonicalWith [] = baseCanonical := by
  rw [factorVerticalStyle] at h
  split at h
  · cases h
  rename_i hne
  obtain ⟨regionRpr, hregion, h⟩ := Option.bind_eq_some_iff.mp h
  split at h
  · obtain ⟨baseCanonical, hbase, h⟩ := Option.bind_eq_some_iff.mp h
    obtain ⟨f, hf, h⟩ := Option.bind_eq_some_iff.mp h
    obtain ⟨found, hvalue, h⟩ := Option.bind_eq_some_iff.mp h
    split at h
    · cases h
    split at h
    · cases h
    rename_i hcanonical
    rw [not_not] at hcanonical
    obtain ⟨alignment, halignment⟩ : ∃ alignment,
        f.children.filter (·.name = "vertAlign") = [alignment] := by
      rw [alignmentValue] at hvalue
      split at hvalue
      · rename_i alignment halignment
        exact ⟨alignment, halignment⟩
      · cases hvalue
    obtain ⟨f', hread, hwith⟩ := canonicalRpr_eq_ok_iff.mp (eq_ok_of_toOption hcanonical)
    exact ⟨fun heq => hne (.inr heq), regionRpr, baseCanonical, f, f', alignment, hregion, hbase,
      eq_ok_of_toOption hf, halignment, hread, hwith⟩
  · cases h

theorem exists_of_canonical {styleId canonical : Text}
    (h : catalog.canonical styleId = some canonical) : ∃ rpr f, catalog.rpr styleId = some rpr ∧
      RprFragment.parse rpr = .ok f ∧ f.canonicalWith [] = canonical := by
  obtain ⟨entry, hentry, rfl⟩ := Option.map_eq_some_iff.mp h
  have hcanonical : canonicalRprJson entry.1 = .ok entry.2 := catalog.canonical_eq hentry
  rw [← canonicalRpr_utf8] at hcanonical
  obtain ⟨f, hf, hwith⟩ := canonicalRpr_eq_ok_iff.mp hcanonical
  rw [RprFragment.read_utf8] at hf
  exact ⟨entry.1, f, by rw [rpr, hentry]; rfl, hf, hwith⟩

/-- A style that is factored is the base style with the alignment, exactly when the alignment is
plain. -/
theorem factors_iff {styleId baseStyleId value : Text}
    (h : catalog.factorVerticalStyle styleId baseStyleId = some value) :
    catalog.Factors styleId baseStyleId value ↔ catalog.PlainStyle styleId value := by
  obtain ⟨-, regionRpr, baseCanonical, f, f', alignment, hregion, hbase, hparse, halignment, hrest,
    hwith⟩ := catalog.exists_of_factor h
  obtain ⟨baseRpr, base, hbaseRpr, hbaseParse, hbaseWith⟩ := catalog.exists_of_canonical hbase
  obtain ⟨canonical, hcanonical⟩ : ∃ canonical, catalog.canonical styleId = some canonical := by
    obtain ⟨entry, hentry, -⟩ := Option.map_eq_some_iff.mp hregion
    exact ⟨entry.2, by rw [StyleCatalog.canonical, hentry]; rfl⟩
  obtain ⟨rpr', g, hrpr', hg, hregionWith⟩ := catalog.exists_of_canonical hcanonical
  obtain rfl := Option.some.inj (hregion.symm.trans hrpr')
  obtain rfl := Except.ok.inj (hparse.symm.trans hg)
  have hkids := canonicalKids_perm hparse halignment hrest
  -- the base and what is left of the style are canonically equal
  obtain ⟨hname, hattributes, hperm⟩ := RprFragment.canonicalWith_eq_iff.mp
    (hbaseWith.trans hwith.symm)
  rw [append_nil, append_nil] at hperm
  have hfactors : catalog.Factors styleId baseStyleId value ↔
      base.canonicalWith [verticalCanon value] = f.canonicalWith [] := by
    rw [hregionWith]
    have hwithAlignment : catalog.withAlignment baseStyleId value =
        some (base.canonicalWith [verticalCanon value]) := by
      rw [withAlignment, hbaseRpr]
      show (RprFragment.parse baseRpr).toOption.bind _ = _
      rw [hbaseParse]
      rfl
    constructor
    · rintro ⟨canonical', hcanonical', heq⟩
      rw [Option.some.inj (hcanonical.symm.trans hcanonical')]
      exact Option.some.inj (hwithAlignment.symm.trans heq)
    · intro heq
      exact ⟨canonical, hcanonical, hwithAlignment.trans (congrArg some heq)⟩
  have hkidsIff : (base.canonicalKids ++ [verticalCanon value]).Perm (f.canonicalKids ++ []) ↔
      canonOf (slice f.bytes alignment.openStart alignment.stop) = some (verticalCanon value) := by
    rw [append_nil]
    have hleft : (base.canonicalKids ++ [verticalCanon value]).Perm
        (f'.canonicalKids ++ [verticalCanon value]) := hperm.append_right _
    constructor
    · intro hsame
      have hcancel := (perm_append_left_iff _).mp (hleft.symm.trans (hsame.trans hkids))
      have heq := perm_singleton.mp hcancel.symm
      cases hcanon : canonOf (slice f.bytes alignment.openStart alignment.stop) with
      | none =>
        rw [hcanon] at heq
        cases heq
      | some canon =>
        rw [hcanon] at heq
        exact congrArg some (List.cons.inj heq).1
    · intro hcanon
      rw [hcanon] at hkids
      exact hleft.trans hkids.symm
  rw [hfactors, RprFragment.canonicalWith_eq_iff, hkidsIff, hname, hattributes]
  constructor
  · rintro ⟨hsameName, hsameAttributes, hcanon⟩
    intro rpr hrpr fragment hfragment
    obtain rfl := Option.some.inj (hregion.symm.trans hrpr)
    obtain rfl := Except.ok.inj (hparse.symm.trans hfragment)
    refine ⟨fun node hnode => ?_, fun remainder hremainder => ?_⟩
    · rw [halignment] at hnode
      rw [mem_singleton.mp hnode]
      exact hcanon
    · obtain rfl := Except.ok.inj (hrest.symm.trans hremainder)
      exact ⟨hsameName, hsameAttributes⟩
  · intro hplain
    obtain ⟨halone, hroot⟩ := hplain regionRpr hregion f hparse
    refine ⟨(hroot f' hrest).1, (hroot f' hrest).2, halone alignment ?_⟩
    rw [halignment]
    exact mem_cons_self

/-! ## The whole tree -/

mutual

/-- A node and what has become of it: only the style and the mark of a text outside deletions may
be other ones, and the base style with the mark is the style that the text had. -/
inductive KeptNode (baseStyle : Text) : Bool → TypedNode → TypedNode → Prop where
  | text {inHistory styleId content vertical} :
    KeptNode baseStyle inHistory (.text styleId content vertical) (.text styleId content vertical)
  | promoted {styleId content value} (factors : catalog.Factors styleId baseStyle value) :
    KeptNode baseStyle false (.text styleId content none) (.text baseStyle content (some value))
  | anchor {inHistory tokenId kind attrs} :
    KeptNode baseStyle inHistory (.anchor tokenId kind attrs) (.anchor tokenId kind attrs)
  | inline {inHistory tokenId kind styleId attrs} : KeptNode baseStyle inHistory
      (.inline tokenId kind styleId attrs) (.inline tokenId kind styleId attrs)
  | opaqueToken {inHistory tokenId kind attrs} :
    KeptNode baseStyle inHistory (.opaqueToken tokenId kind attrs) (.opaqueToken tokenId kind attrs)
  | range {inHistory tokenId kind attrs children children'}
      (kept : KeptNodes baseStyle inHistory children children') : KeptNode baseStyle inHistory
        (.range tokenId kind attrs children) (.range tokenId kind attrs children')
  | revision {inHistory tokenId kind attrs children children'}
      (kept : KeptNodes baseStyle (inHistory || isHistory kind) children children') :
      KeptNode baseStyle inHistory (.revision tokenId kind attrs children)
        (.revision tokenId kind attrs children')

inductive KeptNodes (baseStyle : Text) : Bool → List TypedNode → List TypedNode → Prop where
  | nil {inHistory} : KeptNodes baseStyle inHistory [] []
  | cons {inHistory node node' nodes nodes'} (first : KeptNode baseStyle inHistory node node')
      (rest : KeptNodes baseStyle inHistory nodes nodes') :
      KeptNodes baseStyle inHistory (node :: nodes) (node' :: nodes')

end

mutual

/-- The style and the mark of each text outside deletions. -/
def presentTexts : TypedNode → List (Text × Option Text)
  | .text styleId _ vertical => [(styleId, vertical)]
  | .range _ _ _ children => presentTextsOf children
  | .revision _ kind _ children => if isHistory kind then [] else presentTextsOf children
  | _ => []

def presentTextsOf : List TypedNode → List (Text × Option Text)
  | [] => []
  | node :: nodes => presentTexts node ++ presentTextsOf nodes

end

/-- A text that is promoted has no mark yet, and the alignment of its style is plain. -/
def PlainText (baseStyle : Text) (text : Text × Option Text) : Prop :=
  ∀ value, catalog.factorVerticalStyle text.1 baseStyle = some value →
    text.2 = none ∧ catalog.PlainStyle text.1 value

theorem factor_base (baseStyle : Text) :
    catalog.factorVerticalStyle baseStyle baseStyle = none := by
  rw [factorVerticalStyle, if_pos (.inr rfl)]

mutual

/-- Nothing changes inside a deletion. -/
theorem promoteNode_history (baseStyle : Text) : ∀ node : TypedNode,
    catalog.promoteNode baseStyle true node = (node, 0)
  | .text _ _ _ => by rw [promoteNode, if_pos rfl]
  | .anchor _ _ _ => by rw [promoteNode]
  | .inline _ _ _ _ => by rw [promoteNode]
  | .opaqueToken _ _ _ => by rw [promoteNode]
  | .range _ _ _ children => by
    rw [promoteNode, promoteNodes_history baseStyle children]
  | .revision _ _ _ children => by
    rw [promoteNode, Bool.true_or, promoteNodes_history baseStyle children]

theorem promoteNodes_history (baseStyle : Text) : ∀ nodes : List TypedNode,
    catalog.promoteNodes baseStyle true nodes = (nodes, 0)
  | [] => by rw [promoteNodes]
  | node :: nodes => by
    rw [promoteNodes, promoteNode_history baseStyle node, promoteNodes_history baseStyle nodes]
    rfl

end

mutual

theorem keptNode_same (baseStyle : Text) (inHistory : Bool) : ∀ node : TypedNode,
    catalog.KeptNode baseStyle inHistory node node
  | .text _ _ _ => .text
  | .anchor _ _ _ => .anchor
  | .inline _ _ _ _ => .inline
  | .opaqueToken _ _ _ => .opaqueToken
  | .range _ _ _ children => .range (keptNodes_same baseStyle inHistory children)
  | .revision _ kind _ children =>
    .revision (keptNodes_same baseStyle (inHistory || isHistory kind) children)

theorem keptNodes_same (baseStyle : Text) (inHistory : Bool) : ∀ nodes : List TypedNode,
    catalog.KeptNodes baseStyle inHistory nodes nodes
  | [] => .nil
  | node :: nodes =>
    .cons (keptNode_same baseStyle inHistory node) (keptNodes_same baseStyle inHistory nodes)

end

mutual

/-- A second promotion finds nothing. -/
theorem promoteNode_again (baseStyle : Text) (inHistory : Bool) : ∀ node : TypedNode,
    (catalog.promoteNode baseStyle inHistory
      (catalog.promoteNode baseStyle inHistory node).1).2 = 0
  | .text styleId content vertical => by
    cases inHistory with
    | true => rw [promoteNode_history, promoteNode_history]
    | false =>
      rw [promoteNode, if_neg Bool.false_ne_true]
      cases hfactor : catalog.factorVerticalStyle styleId baseStyle with
      | none =>
        dsimp only
        rw [promoteNode, if_neg Bool.false_ne_true, hfactor]
      | some value =>
        dsimp only
        rw [promoteNode, if_neg Bool.false_ne_true, factor_base]
  | .anchor _ _ _ => by rw [promoteNode, promoteNode]
  | .inline _ _ _ _ => by rw [promoteNode, promoteNode]
  | .opaqueToken _ _ _ => by rw [promoteNode, promoteNode]
  | .range _ _ _ children => by
    rw [promoteNode, promoteNode]
    exact promoteNodes_again baseStyle inHistory children
  | .revision _ kind _ children => by
    rw [promoteNode, promoteNode]
    exact promoteNodes_again baseStyle (inHistory || isHistory kind) children

theorem promoteNodes_again (baseStyle : Text) (inHistory : Bool) : ∀ nodes : List TypedNode,
    (catalog.promoteNodes baseStyle inHistory
      (catalog.promoteNodes baseStyle inHistory nodes).1).2 = 0
  | [] => by rw [promoteNodes, promoteNodes]
  | node :: nodes => by
    rw [promoteNodes, promoteNodes]
    dsimp only
    rw [promoteNode_again baseStyle inHistory node, promoteNodes_again baseStyle inHistory nodes]

end

mutual

theorem keptNode_iff (baseStyle : Text) : ∀ node : TypedNode,
    catalog.KeptNode baseStyle false node (catalog.promoteNode baseStyle false node).1 ↔
      ∀ text ∈ presentTexts node, catalog.PlainText baseStyle text
  | .text styleId content vertical => by
    rw [promoteNode, if_neg Bool.false_ne_true, presentTexts]
    rw [forall_mem_singleton]
    cases hfactor : catalog.factorVerticalStyle styleId baseStyle with
    | none =>
      refine ⟨fun _ value h => ?_, fun _ => .text⟩
      rw [hfactor] at h
      cases h
    | some found =>
      have hne := (catalog.exists_of_factor hfactor).1
      constructor
      · intro h value hvalue
        obtain rfl := Option.some.inj (hfactor.symm.trans hvalue)
        cases h with
        | text => exact absurd rfl hne
        | promoted factors => exact ⟨rfl, (catalog.factors_iff hfactor).mp factors⟩
      · intro h
        obtain ⟨hmark, hplain⟩ := h found hfactor
        obtain rfl : vertical = none := hmark
        exact .promoted ((catalog.factors_iff hfactor).mpr hplain)
  | .anchor _ _ _ => by
    rw [promoteNode, presentTexts]
    · exact ⟨fun _ _ h => (not_mem_nil h).elim, fun _ => .anchor⟩
    all_goals simp
  | .inline _ _ _ _ => by
    rw [promoteNode, presentTexts]
    · exact ⟨fun _ _ h => (not_mem_nil h).elim, fun _ => .inline⟩
    all_goals simp
  | .opaqueToken _ _ _ => by
    rw [promoteNode, presentTexts]
    · exact ⟨fun _ _ h => (not_mem_nil h).elim, fun _ => .opaqueToken⟩
    all_goals simp
  | .range _ _ _ children => by
    rw [promoteNode, presentTexts, ← keptNodes_iff baseStyle children]
    constructor
    · rintro ⟨⟩
      assumption
    · exact .range
  | .revision tokenId kind attrs children => by
    rw [promoteNode, presentTexts]
    cases hkind : isHistory kind with
    | true =>
      rw [Bool.false_or, promoteNodes_history, if_pos rfl]
      exact ⟨fun _ _ h => (not_mem_nil h).elim,
        fun _ => catalog.keptNode_same baseStyle false (.revision tokenId kind attrs children)⟩
    | false =>
      rw [Bool.false_or, if_neg Bool.false_ne_true, ← keptNodes_iff baseStyle children]
      constructor
      · intro h
        cases h with
        | revision kept =>
          rw [hkind] at kept
          exact kept
      · intro h
        refine .revision ?_
        rw [hkind]
        exact h

theorem keptNodes_iff (baseStyle : Text) : ∀ nodes : List TypedNode,
    catalog.KeptNodes baseStyle false nodes (catalog.promoteNodes baseStyle false nodes).1 ↔
      ∀ text ∈ presentTextsOf nodes, catalog.PlainText baseStyle text
  | [] => by
    rw [promoteNodes, presentTextsOf]
    exact ⟨fun _ _ h => (not_mem_nil h).elim, fun _ => .nil⟩
  | node :: nodes => by
    rw [promoteNodes, presentTextsOf, forall_mem_append, ← keptNode_iff baseStyle node,
      ← keptNodes_iff baseStyle nodes]
    constructor
    · rintro ⟨⟩
      exact ⟨by assumption, by assumption⟩
    · exact fun h => .cons h.1 h.2

end

/-- Promotion is lossless: what it changes it can give back, and it leaves nothing to promote. -/
structure Lossless (baseStyle : Text) (nodes : List TypedNode) : Prop where
  kept : catalog.KeptNodes baseStyle false nodes
    (catalog.promoteVerticalAlignment baseStyle nodes).1
  settled : (catalog.promoteVerticalAlignment baseStyle
    (catalog.promoteVerticalAlignment baseStyle nodes).1).2 = 0

/-- Promotion is lossless exactly when each text that it promotes is without a mark, in a style
whose alignment is plain. -/
theorem promotion_lossless_iff (baseStyle : Text) (nodes : List TypedNode) :
    catalog.Lossless baseStyle nodes ↔
      ∀ text ∈ presentTextsOf nodes, catalog.PlainText baseStyle text :=
  ⟨fun h => (catalog.keptNodes_iff baseStyle nodes).mp h.kept, fun h =>
    ⟨(catalog.keptNodes_iff baseStyle nodes).mpr h,
      catalog.promoteNodes_again baseStyle false nodes⟩⟩

/-! ## Prepared paragraphs -/

/-- A prepared paragraph is its tree promoted against the base style chosen for it. -/
theorem nodes_of_mem_prepareFrom {fallback : Text} {trees : List ParagraphNodes}
    {prepared : PreparedParagraph} (h : prepared ∈ (catalog.prepareFrom fallback trees).1) :
    prepared.nodes =
      (catalog.promoteVerticalAlignment prepared.baseStyle prepared.tree.nodes).1 := by
  induction trees generalizing fallback with
  | nil => cases h
  | cons tree trees ih =>
    rcases mem_cons.mp h with rfl | h
    · rfl
    · exact ih h

/-! ## An alignment that says more -/

def empty : StyleCatalog := ⟨∅, fun h => by cases h⟩

/-- One more style of `StyleCatalog::build`. -/
def insert (id rpr canonical : Text) (h : canonicalRprJson rpr = .ok canonical) : StyleCatalog where
  entries := catalog.entries.insert id (rpr, canonical)
  canonical_eq {id' rpr' canonical'} hentry := by
    by_cases heq : id' = id
    · subst heq
      rw [AList.lookup_insert] at hentry
      obtain ⟨rfl, rfl⟩ := Prod.mk.inj (Option.some.inj hentry)
      exact h
    · rw [AList.lookup_insert_ne heq] at hentry
      exact catalog.canonical_eq hentry

def plainRpr : Text := "<w:rPr></w:rPr>".toList

/-- A raised text, with an attribute of another application. -/
def raisedRpr : Text := "<w:rPr><w:vertAlign w:val=\"superscript\" x:keep=\"1\"/></w:rPr>".toList

def plainCanonical : Text := "[\"w:rPr\",[],\"\",[]]".toList

def raisedCanonical : Text :=
  ("[\"w:rPr\",[],\"\",[[\"w:vertAlign\",[[\"w:val\",\"superscript\"]," ++
    "[\"x:keep\",\"1\"]],\"\",[]]]]").toList

/-- Two styles, the second one raised. -/
def twoStyles : StyleCatalog :=
  (empty.insert "s_0".toList plainRpr plainCanonical
    (eq_ok_of_toOption (by decide +kernel))).insert "s_1".toList raisedRpr raisedCanonical
      (eq_ok_of_toOption (by decide +kernel))

theorem twoStyles_factor : twoStyles.factorVerticalStyle "s_1".toList "s_0".toList =
    some superscript := by
  decide +kernel

/-- The attribute is gone from the promoted text: the base style with the mark is not the style that
the text had. -/
theorem twoStyles_loses :
    (twoStyles.promoteVerticalAlignment "s_0".toList
      [.text "s_1".toList "2".toList none]).1 =
        [.text "s_0".toList "2".toList (some superscript)] ∧
    ¬ twoStyles.Lossless "s_0".toList [.text "s_1".toList "2".toList none] := by
  have hresult : (twoStyles.promoteVerticalAlignment "s_0".toList
      [.text "s_1".toList "2".toList none]).1 =
        [.text "s_0".toList "2".toList (some superscript)] := by
    rw [promoteVerticalAlignment, promoteNodes, promoteNodes, promoteNode,
      if_neg Bool.false_ne_true, twoStyles_factor]
  refine ⟨hresult, fun h => ?_⟩
  have hkept := h.kept
  rw [hresult] at hkept
  cases hkept with
  | cons first rest =>
    cases first with
    | promoted factors =>
      obtain ⟨canonical, hcanonical, hwith⟩ := factors
      have hsame := hwith.trans (Option.mem_def.mp hcanonical).symm
      revert hsame
      decide +kernel

end StyleCatalog

end Docx2Typed
