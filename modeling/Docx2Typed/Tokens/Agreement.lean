import Docx2Typed.Projection.Agreement
import Docx2Typed.Prose.ParagraphIds.Names
import Docx2Typed.Tokens.Walk
import Docx2Typed.Zip.Stored

/-!
# Where the two token walks part

The flat walk and the tree walk meet the same runs and the same marks.  They part in two places.
A run that holds only properties, one of them with a format history, gets a token for the history
and in the flat walk one more for the empty run; the tree walk sees its own node and takes the run
for filled.  And of the revision marks of a paragraph the flat walk records each, the tree walk
the first.

Both times the flat walk is the longer one, so a token that was added once is never made up for:
the walks agree exactly when neither place is ever reached.
-/

namespace Docx2Typed

open List

/-! ## Two walks side by side -/

/-- From `flat` and `tree` on, the flat walk adds `extra` records more than the tree walk; without
any, the two stay equal. -/
structure Drifts (extra : Nat) (flat tree flat' tree' : List TokenRecord) : Prop where
  length : flat'.length + tree.length = tree'.length + flat.length + extra
  same : extra = 0 → flat = tree → flat' = tree'

theorem Drifts.refl (flat tree : List TokenRecord) : Drifts 0 flat tree flat tree where
  length := by omega
  same := fun _ h => h

theorem Drifts.trans {m n : Nat} {flat tree flat' tree' flat'' tree'' : List TokenRecord}
    (h : Drifts m flat tree flat' tree') (h' : Drifts n flat' tree' flat'' tree'') :
    Drifts (m + n) flat tree flat'' tree'' where
  length := by
    have h1 := h.length
    have h2 := h'.length
    omega
  same := fun hzero heq => h'.same (by omega) (h.same (by omega) heq)

theorem Drifts.add (ctx : TokenContext) (flat tree : List TokenRecord) (kind : Text)
    (attrs : AttrMap) (node : ElementNode) (styleId : String) :
    Drifts 0 flat tree (addToken ctx flat kind attrs node styleId)
      (addToken ctx tree kind attrs node styleId) where
  length := by
    rw [length_addToken, length_addToken]
    omega
  same := fun _ h => by rw [h]

/-- A record of the flat walk alone. -/
theorem Drifts.addFlat (ctx : TokenContext) (flat tree : List TokenRecord) (kind : Text)
    (attrs : AttrMap) (node : ElementNode) (styleId : String) :
    Drifts 1 flat tree (addToken ctx flat kind attrs node styleId) tree where
  length := by
    rw [length_addToken]
    omega
  same := fun h => absurd h Nat.one_ne_zero

/-! ## Runs -/

def holdsHistory (nodes : List ElementNode) (rpr : ElementNode) : Bool :=
  (nodesAt nodes rpr.children).any fun inner => inner.name == "rPrChange"

/-- The run holds properties and nothing else, and among them a format history. -/
def historyOnly (nodes : List ElementNode) (run : ElementNode) : Bool :=
  (nodesAt nodes run.children).all (fun child => child.name == "rPr") &&
    (nodesAt nodes run.children).any (holdsHistory nodes)

/-- What the walks of a run have in common at one of its children. -/
structure SameRun (s : FlatRun) (t : TreeRun) : Prop where
  style : s.style = t.style
  change : s.rprChange = t.rprChange
  content : s.sawContent = !t.out.isEmpty

/-- The record the flat walk adds alone, `seen` and `history` being known of the children read. -/
def extraRecords (nodes : List ElementNode) (seen history : Bool) (children : List ElementNode) :
    Nat :=
  (!seen && children.all (fun child => child.name == "rPr") &&
    (history || children.any (holdsHistory nodes))).toNat

theorem extraRecords_seen (nodes : List ElementNode) (history : Bool)
    (children : List ElementNode) : extraRecords nodes true history children = 0 := rfl

theorem isSome_changeOf (ctx : TokenContext) (rpr : ElementNode) (found : Option ElementNode) :
    (changeOf ctx rpr found).isSome = (found.isSome || holdsHistory ctx.nodes rpr) := by
  rw [changeOf, holdsHistory]
  generalize nodesAt ctx.nodes rpr.children = inners
  induction inners generalizing found with
  | nil => simp
  | cons inner rest ih =>
    rw [foldl_cons, ih, any_cons]
    by_cases h : inner.name = "rPrChange"
    · simp [h]
    · simp [h, beq_false_of_ne h]

/-- At the end of a run only an empty one with a format history tells the walks apart. -/
theorem finish_drifts (ctx : TokenContext) (run : ElementNode) {s : FlatRun} {t : TreeRun}
    (h : SameRun s t) :
    Drifts (extraRecords ctx.nodes s.sawContent s.rprChange.isSome []) s.tokens t.tokens
      (s.finish ctx run) (t.finish ctx run).2 := by
  obtain ⟨hstyle, hchange, hcontent⟩ := h
  cases hrpr : t.rprChange with
  | none =>
    rw [hrpr] at hchange
    have hextra : extraRecords ctx.nodes s.sawContent s.rprChange.isSome [] = 0 := by
      simp [extraRecords, hchange]
    rw [hextra]
    simp only [FlatRun.finish, TreeRun.finish, hchange, hrpr, hcontent, hstyle]
    by_cases hout : t.out.isEmpty = true
    · simp only [hout]
      exact .add ctx ..
    · simp only [hout]
      exact .refl _ _
  | some change =>
    rw [hrpr] at hchange
    simp only [FlatRun.finish, TreeRun.finish, hchange, hrpr, hstyle]
    have hfull : (t.out ++ [TypedNode.inline (tokenId t.tokens.length) "rpr-change".toList
        t.style.toList (tagAttrs "w:rPrChange".toList)]).isEmpty = false := by simp
    rw [hfull]
    by_cases hseen : s.sawContent = true
    · rw [hseen, extraRecords_seen]
      exact .add ctx ..
    · simp only [hseen]
      -- the flat walk adds the mark of an empty run
      exact (Drifts.add ctx s.tokens t.tokens _ _ change _).trans (.addFlat ctx ..)

theorem runFrom_drifts (ctx : TokenContext) (run : ElementNode) :
    ∀ (children : List ElementNode) {s : FlatRun} {t : TreeRun}, SameRun s t →
      Drifts (extraRecords ctx.nodes s.sawContent s.rprChange.isSome children) s.tokens t.tokens
        (runFrom ctx run s children) (runNodesFrom ctx run t children).2
  | [], _, _, h => finish_drifts ctx run h
  | child :: rest, s, t, h => by
    obtain ⟨hstyle, hchange, hcontent⟩ := h
    rw [runFrom, runNodesFrom]
    by_cases hrpr : child.name = "rPr"
    · rw [if_pos hrpr, if_pos hrpr]
      have ih := runFrom_drifts ctx run rest
        (s := { s with style := styleOf ctx child, rprChange := changeOf ctx child s.rprChange })
        (t := { t with style := styleOf ctx child, rprChange := changeOf ctx child t.rprChange })
        ⟨rfl, by rw [hchange], hcontent⟩
      have hextra : extraRecords ctx.nodes s.sawContent s.rprChange.isSome (child :: rest) =
          extraRecords ctx.nodes s.sawContent (changeOf ctx child s.rprChange).isSome rest := by
        rw [isSome_changeOf]
        simp [extraRecords, hrpr, Bool.or_assoc]
      rw [hextra]
      exact ih
    have hextra : extraRecords ctx.nodes s.sawContent s.rprChange.isSome (child :: rest) = 0 := by
      simp [extraRecords, hrpr]
    rw [if_neg hrpr, if_neg hrpr, hextra]
    by_cases htext : isTextChild child = true
    · rw [if_pos htext, if_pos htext]
      exact runFrom_drifts ctx run rest (s := { s with sawContent := true })
        (t := { t with out := t.out ++ [TypedNode.text t.style.toList
          (decodedText (slice ctx.xml (textRange child).1 (textRange child).2)) none] })
        ⟨hstyle, hchange, by simp⟩
    rw [if_neg htext, if_neg htext]
    by_cases hinline : knownInline.contains child.name.toList = true
    · rw [if_pos hinline, if_pos hinline]
      have ih := runFrom_drifts ctx run rest
        (s := { s with
          tokens := addToken ctx s.tokens child.name.toList (tagOf ctx child).2 child s.style
          sawContent := true })
        (t := { t with
          tokens := addToken ctx t.tokens child.name.toList (tagOf ctx child).2 child t.style
          out := t.out ++ [TypedNode.inline (tokenId t.tokens.length) child.name.toList
            t.style.toList (tagOf ctx child).2] })
        ⟨hstyle, hchange, by simp⟩
      have hadd := Drifts.add ctx s.tokens t.tokens child.name.toList (tagOf ctx child).2 child s.style
      rw [← hstyle] at ih ⊢
      exact hadd.trans ih
    · rw [if_neg hinline, if_neg hinline, ← hstyle]
      exact .add ctx ..

theorem walkRun_drifts (ctx : TokenContext) (flat tree : List TokenRecord) (run : ElementNode) :
    Drifts (historyOnly ctx.nodes run).toNat flat tree (walkRun ctx flat run)
      (walkRunNodes ctx tree run).2 :=
  runFrom_drifts ctx run (nodesAt ctx.nodes run.children)
    (s := { tokens := flat, style := defaultStyleId ctx.crates })
    (t := { tokens := tree, style := defaultStyleId ctx.crates }) ⟨rfl, rfl, rfl⟩

/-! ## Containers -/

theorem isTransparent_of_revision {name : String} (h : (revisionKind name).isSome = true) :
    isTransparent name = true := by
  rw [revisionKind] at h
  split_ifs at h with h1 h2 h3 h4
  · rw [h1]; decide
  · rw [h2]; decide
  · rw [h3]; decide
  · rw [h4]; decide
  · cases h

theorem not_isTransparent {name : String} (hlink : name ≠ "hyperlink")
    (hrev : ¬ (revisionKind name).isSome = true) : ¬ isTransparent name = true := by
  rw [revisionKind] at hrev
  split_ifs at hrev <;> simp_all [isTransparent]

/-- The runs below one child of a container that part the walks. -/
theorem containerChild_drifts (ctx : TokenContext)
    {flatRecurse : List TokenRecord → List ElementNode → List TokenRecord}
    {treeRecurse : List TokenRecord → List ElementNode → List TypedNode × List TokenRecord}
    {runs : ElementNode → List ElementNode}
    (hrecurse : ∀ (flat tree : List TokenRecord) (node : ElementNode),
      Drifts ((runs node).countP (historyOnly ctx.nodes)) flat tree
        (flatRecurse flat (nodesAt ctx.nodes node.children))
        (treeRecurse tree (nodesAt ctx.nodes node.children)).2)
    (flat tree : List TokenRecord) (node : ElementNode) :
    Drifts ((childRuns runs node).countP (historyOnly ctx.nodes)) flat tree
      (containerChild ctx flatRecurse flat node)
      (containerNodesChild ctx treeRecurse tree node).2 := by
  rw [containerChild, containerNodesChild, childRuns]
  by_cases hppr : node.name = "pPr"
  · rw [hppr]
    exact .refl _ _
  rw [if_neg hppr, if_neg hppr]
  by_cases hproof : node.name = "proofErr"
  · rw [hproof]
    exact .add ctx ..
  rw [if_neg hproof, if_neg hproof]
  by_cases hrun : node.name = "r"
  · rw [if_pos hrun, if_pos hrun, if_pos hrun]
    have h := walkRun_drifts ctx flat tree node
    by_cases hhistory : historyOnly ctx.nodes node = true
    · rw [hhistory] at h
      simpa [hhistory] using h
    · rw [Bool.not_eq_true] at hhistory
      rw [hhistory] at h
      simpa [hhistory] using h
  rw [if_neg hrun, if_neg hrun, if_neg hrun]
  by_cases hlink : node.name = "hyperlink"
  · rw [if_pos hlink, if_pos hlink, if_pos (by rw [hlink]; decide)]
    have h := (Drifts.add ctx flat tree "hyperlink".toList (tagOf ctx node).2 node "").trans
      (hrecurse _ _ node)
    rw [Nat.zero_add] at h
    exact h
  rw [if_neg hlink, if_neg hlink]
  by_cases hrev : (revisionKind node.name).isSome = true
  · rw [if_pos hrev, if_pos (isTransparent_of_revision hrev)]
    obtain ⟨kind, hkind⟩ := Option.isSome_iff_exists.mp hrev
    rw [hkind]
    have h := (Drifts.add ctx flat tree "revision".toList (tagOf ctx node).2 node "").trans
      (hrecurse _ _ node)
    rw [Nat.zero_add] at h
    exact h
  · rw [if_neg hrev, if_neg (not_isTransparent hlink hrev)]
    rw [Bool.not_eq_true, Option.isSome_eq_false_iff, Option.isNone_iff_eq_none] at hrev
    rw [hrev]
    cases anchorKind node.name with
    | some kind => exact .add ctx ..
    | none => exact .add ctx ..

/-- Over a container the walks part as often as a run below it parts them. -/
theorem container_drifts (ctx : TokenContext) :
    ∀ (fuel : Nat) (flat tree : List TokenRecord) (node : ElementNode),
      Drifts ((runsOf ctx.nodes fuel node).countP (historyOnly ctx.nodes)) flat tree
        (container ctx fuel flat (nodesAt ctx.nodes node.children))
        (containerNodes ctx fuel tree (nodesAt ctx.nodes node.children)).2
  | 0, flat, tree, _ => .refl flat tree
  | fuel + 1, flat, tree, node => by
    have hloop : ∀ (children : List ElementNode) (out : List TypedNode)
        (flat tree : List TokenRecord),
        Drifts ((children.flatMap (childRuns (runsOf ctx.nodes fuel))).countP
            (historyOnly ctx.nodes)) flat tree
          (children.foldl (containerChild ctx (container ctx fuel)) flat)
          (containerNodesLoop ctx (containerNodes ctx fuel) out tree children).2 := by
      intro children
      induction children with
      | nil => exact fun _ flat tree => .refl flat tree
      | cons child rest ih =>
        intro out flat tree
        rw [flatMap_cons, countP_append, foldl_cons, containerNodesLoop]
        exact (containerChild_drifts ctx (container_drifts ctx fuel) flat tree child).trans
          (ih _ _ _)
    rw [container, containerNodes, runsOf]
    exact hloop _ [] flat tree

/-! ## Paragraphs -/

theorem paragraphMark_drifts (ctx : TokenContext) (flat tree : List TokenRecord)
    (children : List ElementNode) :
    Drifts ((paragraphMarks ctx children).length - 1) flat tree (paragraphMark ctx flat children)
      (paragraphMarkToken ctx tree children).2 := by
  rw [paragraphMark, paragraphMarkToken]
  cases paragraphMarks ctx children with
  | nil => exact .refl flat tree
  | cons mark rest =>
    -- the marks behind the first are the flat walk's alone
    have hrest : ∀ (rest : List ElementNode) (flat tree : List TokenRecord),
        Drifts rest.length flat tree (rest.foldl (addMark ctx) flat) tree := by
      intro rest
      induction rest with
      | nil => exact .refl
      | cons mark rest ih =>
        intro flat tree
        rw [foldl_cons, length_cons, Nat.add_comm]
        exact (Drifts.addFlat ctx flat tree _ _ mark _).trans (ih _ _)
    have h := (Drifts.add ctx flat tree "paragraph-mark".toList (tagOf ctx mark).2 mark "").trans
      (hrest rest _ _)
    rw [Nat.zero_add] at h
    exact h

/-- The records one located paragraph adds to the flat walk alone. -/
def paragraphDrift (walked : WalkedPart) (located : String × Nat × Nat) : Nat :=
  match findParagraphNode walked.nodes located.2.1 located.2.2 with
  | none => 0
  | some root =>
    (runsOf walked.nodes walked.nodes.length root).countP (historyOnly walked.nodes) +
      ((paragraphMarks (walked.context located.1) (nodesAt walked.nodes root.children)).length - 1)

theorem walkParagraph_drifts (walked : WalkedPart) (flat : List TokenRecord)
    (s : List ParagraphNodes × List TokenRecord) (located : String × Nat × Nat) :
    Drifts (paragraphDrift walked located) flat s.2 (walkParagraph walked flat located)
      (walkParagraphNodes walked s located).2 := by
  rw [paragraphDrift, walkParagraph, walkParagraphNodes]
  cases findParagraphNode walked.nodes located.2.1 located.2.2 with
  | none => exact .refl flat s.2
  | some root =>
    exact (container_drifts (walked.context located.1) walked.nodes.length flat s.2 root).trans
      (paragraphMark_drifts (walked.context located.1) _ _ (nodesAt walked.nodes root.children))

def partDrift (walked : WalkedPart) : Nat := (walked.located.map (paragraphDrift walked)).sum

theorem walkPart_drifts (walked : WalkedPart) :
    ∀ (located : List (String × Nat × Nat)) (flat : List TokenRecord)
      (s : List ParagraphNodes × List TokenRecord),
      Drifts ((located.map (paragraphDrift walked)).sum) flat s.2
        (located.foldl (walkParagraph walked) flat) (located.foldl (walkParagraphNodes walked) s).2
  | [], flat, s => .refl flat s.2
  | entry :: rest, flat, s => by
    rw [map_cons, sum_cons, foldl_cons, foldl_cons]
    exact (walkParagraph_drifts walked flat s entry).trans (walkPart_drifts walked rest _ _)

theorem walkParts_drifts : ∀ (parts : List WalkedPart) (flat : List TokenRecord)
    (s : List ParagraphNodes × List TokenRecord),
    Drifts (parts.map partDrift).sum flat s.2
      (parts.foldl (fun tokens walked => walked.located.foldl (walkParagraph walked) tokens) flat)
      (parts.foldl (fun s walked => walked.located.foldl (walkParagraphNodes walked) s) s).2
  | [], flat, s => .refl flat s.2
  | walked :: rest, flat, s => by
    rw [map_cons, sum_cons, foldl_cons, foldl_cons]
    exact (walkPart_drifts walked walked.located flat s).trans (walkParts_drifts rest _ _)

/-! ## Names in the trees -/

mutual

/-- The tokens a node carries: the id, the kind the record has, the attributes. -/
def nodeTokens : TypedNode → List (Text × Text × AttrMap)
  | .text .. => []
  | .anchor id kind attrs | .inline id kind _ attrs | .opaqueToken id kind attrs =>
    [(id, kind, attrs)]
  | .range id kind attrs children => (id, kind, attrs) :: treeTokens children
  | .revision id _ attrs children => (id, "revision".toList, attrs) :: treeTokens children

def treeTokens : List TypedNode → List (Text × Text × AttrMap)
  | [] => []
  | node :: rest => nodeTokens node ++ treeTokens rest

end

theorem treeTokens_append : ∀ xs ys : List TypedNode,
    treeTokens (xs ++ ys) = treeTokens xs ++ treeTokens ys
  | [], _ => rfl
  | x :: xs, ys => by
    rw [cons_append, treeTokens, treeTokens, treeTokens_append xs ys, append_assoc]

/-- Merging touches texts only. -/
theorem treeTokens_mergeStep (merged : List TypedNode) (node : TypedNode) :
    treeTokens (mergeStep merged node) = treeTokens merged ++ nodeTokens node := by
  have hplain : treeTokens (merged ++ [node]) = treeTokens merged ++ nodeTokens node := by
    rw [treeTokens_append, treeTokens, treeTokens, append_nil]
  unfold mergeStep
  split
  next styleId content vertical lastStyle lastContent lastVertical hlast =>
    split
    · have hmerged := dropLast_append_getLast? _ hlast
      have hlastText : treeTokens merged = treeTokens merged.dropLast := by
        conv_lhs => rw [← hmerged, treeTokens_append]
        simp [treeTokens, nodeTokens]
      rw [treeTokens_append, hlastText]
      simp [treeTokens, nodeTokens]
    · exact hplain
  next => exact hplain

theorem treeTokens_merge (nodes : List TypedNode) :
    treeTokens (mergeAdjacentText nodes) = treeTokens nodes := by
  have h : ∀ (nodes merged : List TypedNode),
      treeTokens (nodes.foldl mergeStep merged) = treeTokens merged ++ treeTokens nodes := by
    intro nodes
    induction nodes with
    | nil => simp [treeTokens]
    | cons node rest ih =>
      intro merged
      rw [foldl_cons, ih, treeTokens_mergeStep, treeTokens, append_assoc]
  exact h nodes []

/-- The records are numbered in their order. -/
def Numbered (records : List TokenRecord) : Prop :=
  ∀ i record, records[i]? = some record → record.id = tokenId i

/-- `token` names a record of the paragraph. -/
def NamesRecord (part paragraphId : String) (records : List TokenRecord)
    (token : Text × Text × AttrMap) : Prop :=
  ∃ record ∈ records, record.id = token.1 ∧ record.kind = token.2.1 ∧ record.attrs = token.2.2 ∧
    record.part = part ∧ record.paragraphId = paragraphId

variable {part paragraphId : String} {records records' : List TokenRecord}

theorem NamesRecord.mono {token : Text × Text × AttrMap}
    (h : NamesRecord part paragraphId records token) (hsub : records ⊆ records') :
    NamesRecord part paragraphId records' token := by
  obtain ⟨record, hmem, hfields⟩ := h
  exact ⟨record, hsub hmem, hfields⟩

/-- What the tree walk of `nodes` does to the records. -/
structure TreeRecords (part paragraphId : String) (nodes : List TypedNode)
    (records records' : List TokenRecord) : Prop where
  kept : records ⊆ records'
  numbered : Numbered records → Numbered records'
  named : ∀ token ∈ treeTokens nodes, NamesRecord part paragraphId records' token

theorem TreeRecords.refl (part paragraphId : String) (records : List TokenRecord) :
    TreeRecords part paragraphId [] records records where
  kept := List.Subset.refl _
  numbered := id
  named := by simp [treeTokens]

variable {xs ys : List TypedNode}

theorem TreeRecords.trans {records records' records'' : List TokenRecord}
    (h : TreeRecords part paragraphId xs records records')
    (h' : TreeRecords part paragraphId ys records' records'') :
    TreeRecords part paragraphId (xs ++ ys) records records'' where
  kept := List.Subset.trans h.kept h'.kept
  numbered := h'.numbered ∘ h.numbered
  named := by
    intro token htoken
    rw [treeTokens_append, mem_append] at htoken
    rcases htoken with htoken | htoken
    · exact (h.named token htoken).mono h'.kept
    · exact h'.named token htoken

theorem Numbered.add {ctx : TokenContext} {records : List TokenRecord} (h : Numbered records)
    (kind : Text) (attrs : AttrMap) (node : ElementNode) (styleId : String) :
    Numbered (addToken ctx records kind attrs node styleId) := by
  intro i record hrecord
  rw [addToken, getElem?_append] at hrecord
  split at hrecord
  · exact h i record hrecord
  · have hi : i = records.length := by
      have := (List.getElem?_eq_some_iff.mp hrecord).1
      simp only [length_singleton] at this
      omega
    rw [hi, Nat.sub_self] at hrecord
    cases hrecord
    rw [hi]

/-- A record and the node made for it. -/
theorem TreeRecords.add (ctx : TokenContext) (records : List TokenRecord) (kind : Text)
    (attrs : AttrMap) (node : ElementNode) (styleId : String) (nodes : List TypedNode)
    (hnodes : treeTokens nodes = [(tokenId records.length, kind, attrs)]) :
    TreeRecords ctx.part ctx.paragraphId nodes records (addToken ctx records kind attrs node styleId) where
  kept := subset_append_left _ _
  numbered := fun h => h.add kind attrs node styleId
  named := by
    intro token htoken
    rw [hnodes, mem_singleton] at htoken
    rw [htoken]
    exact ⟨_, mem_append_right _ mem_cons_self, rfl, rfl, rfl, rfl, rfl⟩

/-- Fewer nodes for the same records, or the same tokens in other nodes. -/
theorem TreeRecords.of_subset (h : TreeRecords part paragraphId xs records records')
    (hsub : treeTokens ys ⊆ treeTokens xs) : TreeRecords part paragraphId ys records records' :=
  ⟨h.kept, h.numbered, fun token htoken => h.named token (hsub htoken)⟩

theorem finish_records (ctx : TokenContext) (run : ElementNode) (records : List TokenRecord)
    {t : TreeRun} (h : TreeRecords ctx.part ctx.paragraphId t.out records t.tokens) :
    TreeRecords ctx.part ctx.paragraphId (t.finish ctx run).1 records (t.finish ctx run).2 := by
  cases hrpr : t.rprChange with
  | none =>
    simp only [TreeRun.finish, hrpr]
    by_cases hout : t.out.isEmpty = true
    · rw [if_pos hout]
      exact (h.trans (.add ctx t.tokens _ _ run _ _ rfl)).of_subset (by
        rw [List.isEmpty_iff.mp hout]
        exact List.Subset.refl _)
    · rw [if_neg hout]
      exact h.of_subset (by rw [treeTokens_merge]; exact List.Subset.refl _)
  | some change =>
    simp only [TreeRun.finish, hrpr]
    rw [if_neg (by simp)]
    have hadd := h.trans (.add ctx t.tokens "rpr-change".toList (tagAttrs "w:rPrChange".toList)
      change t.style [TypedNode.inline (tokenId t.tokens.length) "rpr-change".toList
        t.style.toList (tagAttrs "w:rPrChange".toList)] rfl)
    exact hadd.of_subset (by rw [treeTokens_merge]; exact List.Subset.refl _)

theorem runNodesFrom_records (ctx : TokenContext) (run : ElementNode)
    (records : List TokenRecord) : ∀ (children : List ElementNode) {t : TreeRun},
      TreeRecords ctx.part ctx.paragraphId t.out records t.tokens →
        TreeRecords ctx.part ctx.paragraphId (runNodesFrom ctx run t children).1 records
          (runNodesFrom ctx run t children).2
  | [], _, h => finish_records ctx run records h
  | child :: rest, t, h => by
    rw [runNodesFrom]
    by_cases hrpr : child.name = "rPr"
    · rw [if_pos hrpr]
      exact runNodesFrom_records ctx run records rest
        (t := { t with style := styleOf ctx child, rprChange := changeOf ctx child t.rprChange }) h
    rw [if_neg hrpr]
    by_cases htext : isTextChild child = true
    · rw [if_pos htext]
      apply runNodesFrom_records ctx run records rest
      exact h.of_subset (by rw [treeTokens_append]; simp [treeTokens, nodeTokens])
    rw [if_neg htext]
    by_cases hinline : knownInline.contains child.name.toList = true
    · rw [if_pos hinline]
      apply runNodesFrom_records ctx run records rest
      exact h.trans (.add ctx t.tokens _ _ child _ _ rfl)
    · -- the nodes of the run are dropped, their records are not
      rw [if_neg hinline]
      exact (h.trans (.add ctx t.tokens _ _ run _ _ rfl)).of_subset (by
        rw [treeTokens_append]
        exact subset_append_right _ _)

theorem walkRunNodes_records (ctx : TokenContext) (records : List TokenRecord)
    (run : ElementNode) :
    TreeRecords ctx.part ctx.paragraphId (walkRunNodes ctx records run).1 records
      (walkRunNodes ctx records run).2 :=
  runNodesFrom_records ctx run records (nodesAt ctx.nodes run.children)
    (t := { tokens := records, style := defaultStyleId ctx.crates }) (.refl _ _ records)

theorem containerNodesChild_records (ctx : TokenContext)
    {recurse : List TokenRecord → List ElementNode → List TypedNode × List TokenRecord}
    (hrecurse : ∀ (records : List TokenRecord) (children : List ElementNode),
      TreeRecords ctx.part ctx.paragraphId (recurse records children).1 records
        (recurse records children).2)
    (records : List TokenRecord) (node : ElementNode) :
    TreeRecords ctx.part ctx.paragraphId (containerNodesChild ctx recurse records node).1 records
      (containerNodesChild ctx recurse records node).2 := by
  -- a range and a revision: the record of the element, then those of its content
  have hnested : ∀ (kind : Text) {wrapped : TypedNode} {inner : List TypedNode}
      {attrs : AttrMap},
      inner = (recurse (addToken ctx records kind attrs node "") (nodesAt ctx.nodes node.children)).1 →
      treeTokens [wrapped] = (tokenId records.length, kind, attrs) :: treeTokens inner →
      TreeRecords ctx.part ctx.paragraphId [wrapped] records
        (recurse (addToken ctx records kind attrs node "") (nodesAt ctx.nodes node.children)).2 := by
    intro kind wrapped inner attrs hinner hwrapped
    have hadd := TreeRecords.add ctx records kind attrs node ""
      [TypedNode.anchor (tokenId records.length) kind attrs] rfl
    refine (hadd.trans (hrecurse _ (nodesAt ctx.nodes node.children))).of_subset ?_
    rw [hwrapped, hinner, treeTokens_append]
    exact List.Subset.refl _
  rw [containerNodesChild]
  by_cases hppr : node.name = "pPr"
  · rw [if_pos hppr]
    exact .refl _ _ records
  rw [if_neg hppr]
  by_cases hproof : node.name = "proofErr"
  · rw [if_pos hproof]
    exact .add ctx records _ _ node _ _ rfl
  rw [if_neg hproof]
  by_cases hrun : node.name = "r"
  · rw [if_pos hrun]
    exact walkRunNodes_records ctx records node
  rw [if_neg hrun]
  by_cases hlink : node.name = "hyperlink"
  · rw [if_pos hlink]
    exact hnested "hyperlink".toList rfl (by simp [treeTokens, nodeTokens])
  rw [if_neg hlink]
  cases revisionKind node.name with
  | some kind => exact hnested "revision".toList rfl (by simp [treeTokens, nodeTokens])
  | none =>
    cases anchorKind node.name with
    | some kind => exact .add ctx records _ _ node _ _ rfl
    | none => exact .add ctx records _ _ node _ _ rfl

theorem containerNodes_records (ctx : TokenContext) :
    ∀ (fuel : Nat) (records : List TokenRecord) (children : List ElementNode),
      TreeRecords ctx.part ctx.paragraphId (containerNodes ctx fuel records children).1 records
        (containerNodes ctx fuel records children).2
  | 0, records, _ => .refl _ _ records
  | fuel + 1, records, children => by
    have hloop : ∀ (children : List ElementNode) (out : List TypedNode)
        (records' : List TokenRecord), TreeRecords ctx.part ctx.paragraphId out records records' →
        TreeRecords ctx.part ctx.paragraphId
          (containerNodesLoop ctx (containerNodes ctx fuel) out records' children).1 records
          (containerNodesLoop ctx (containerNodes ctx fuel) out records' children).2 := by
      intro children
      induction children with
      | nil => exact fun _ _ h => h
      | cons child rest ih =>
        intro out records' h
        rw [containerNodesLoop]
        exact ih _ _
          (h.trans (containerNodesChild_records ctx (containerNodes_records ctx fuel) records' child))
    rw [containerNodes]
    exact (hloop children [] records (.refl _ _ records)).of_subset (by
      rw [treeTokens_merge]
      exact List.Subset.refl _)

/-! ## The whole package -/

/-- The tokens of one paragraph's tree, its mark's last. -/
def ParagraphNodes.tokens (tree : ParagraphNodes) : List (Text × Text × AttrMap) :=
  treeTokens tree.nodes ++ tree.mark.toList.map fun mark => (mark.2.1, "paragraph-mark".toList, mark.2.2)

/-- The records are numbered, and every token of the trees names the one of its element. -/
structure TreesNamed (s : List ParagraphNodes × List TokenRecord) : Prop where
  numbered : Numbered s.2
  named : ∀ tree ∈ s.1, ∀ token ∈ tree.tokens, NamesRecord tree.part tree.paragraphId s.2 token

theorem paragraphMarkToken_records (ctx : TokenContext) (records : List TokenRecord)
    (children : List ElementNode) :
    let marked := paragraphMarkToken ctx records children
    records ⊆ marked.2 ∧ (Numbered records → Numbered marked.2) ∧
      ∀ mark ∈ marked.1, NamesRecord ctx.part ctx.paragraphId marked.2
        (mark.2.1, "paragraph-mark".toList, mark.2.2) := by
  rw [paragraphMarkToken]
  cases paragraphMarks ctx children with
  | nil => exact ⟨List.Subset.refl _, id, fun _ h => by cases h⟩
  | cons mark rest =>
    have h := TreeRecords.add ctx records "paragraph-mark".toList (tagOf ctx mark).2 mark ""
      [TypedNode.anchor (tokenId records.length) "paragraph-mark".toList (tagOf ctx mark).2] rfl
    refine ⟨h.kept, h.numbered, ?_⟩
    rintro _ ⟨⟩
    exact h.named _ (by simp [treeTokens, nodeTokens])

theorem walkParagraphNodes_named (walked : WalkedPart) (s : List ParagraphNodes × List TokenRecord)
    (located : String × Nat × Nat) (h : TreesNamed s) :
    TreesNamed (walkParagraphNodes walked s located) := by
  rw [walkParagraphNodes]
  cases findParagraphNode walked.nodes located.2.1 located.2.2 with
  | none => exact h
  | some root =>
    have hnodes := containerNodes_records (walked.context located.1) walked.nodes.length s.2
      (nodesAt walked.nodes root.children)
    obtain ⟨hkept, hnumbered, hmark⟩ := paragraphMarkToken_records (walked.context located.1)
      (containerNodes (walked.context located.1) walked.nodes.length s.2
        (nodesAt walked.nodes root.children)).2 (nodesAt walked.nodes root.children)
    refine ⟨hnumbered (hnodes.numbered h.numbered), ?_⟩
    intro tree htree token htoken
    rcases mem_append.mp htree with hold | hnew
    · exact (h.named tree hold token htoken).mono (List.Subset.trans hnodes.kept hkept)
    · rw [mem_singleton] at hnew
      subst hnew
      rcases mem_append.mp htoken with hbody | hmarked
      · exact (hnodes.named token hbody).mono hkept
      · obtain ⟨mark, hmem, rfl⟩ := mem_map.mp hmarked
        exact hmark mark (Option.mem_toList.mp hmem)

theorem walkParts_named (parts : List WalkedPart) :
    TreesNamed (parts.foldl (fun s walked => walked.located.foldl (walkParagraphNodes walked) s)
      ([], [])) := by
  have hpart : ∀ (walked : WalkedPart) (located : List (String × Nat × Nat))
      (s : List ParagraphNodes × List TokenRecord), TreesNamed s →
        TreesNamed (located.foldl (walkParagraphNodes walked) s) := by
    intro walked located
    induction located with
    | nil => exact fun _ h => h
    | cons entry rest ih => exact fun s h => ih _ (walkParagraphNodes_named walked s entry h)
  have hparts : ∀ s : List ParagraphNodes × List TokenRecord, TreesNamed s →
      TreesNamed (parts.foldl (fun s walked => walked.located.foldl (walkParagraphNodes walked) s)
        s) := by
    induction parts with
    | nil => exact fun _ h => h
    | cons walked rest ih => exact fun s h => ih _ (hpart walked walked.located s h)
  exact hparts ([], [])
    { numbered := fun i record h => absurd h (by simp)
      named := fun tree htree => absurd htree (by simp) }

theorem tokenId_inj {m n : Nat} (h : tokenId m = tokenId n) : m = n :=
  repr_nat_inj (List.cons.inj h).2

/-- Numbered records are found by their ids. -/
theorem Numbered.find {records : List TokenRecord} (h : Numbered records) {record : TokenRecord}
    (hmem : record ∈ records) : records.find? (fun other => other.id = record.id) = some record := by
  obtain ⟨i, hi⟩ := mem_iff_getElem?.mp hmem
  have hid := h i record hi
  obtain ⟨hlt, hget⟩ := List.getElem?_eq_some_iff.mp hi
  rw [find?_eq_some_iff_getElem]
  refine ⟨by simp, i, hlt, hget, ?_⟩
  intro j hj
  have hother := h j records[j] (getElem?_eq_getElem (by omega))
  simp only [Bool.not_eq_true', decide_eq_false_iff_not]
  intro heq
  rw [hother, hid] at heq
  exact absurd (tokenId_inj heq) (by omega)

/-- What is compared of two records. -/
def TokenRecord.view (record : TokenRecord) : Text × Text × String × String × Nat × Nat :=
  (record.id, record.kind, record.part, record.paragraphId, record.start, record.stop)

/-- The table is the list the trees were numbered from, and every token of a tree names in the
table the record of its element. -/
structure TokensAgree (table counter : List TokenRecord) (trees : List ParagraphNodes) : Prop where
  views : table.map TokenRecord.view = counter.map TokenRecord.view
  named : ∀ tree ∈ trees, ∀ token ∈ tree.tokens, ∃ record,
    table.find? (fun other => other.id = token.1) = some record ∧ record.kind = token.2.1 ∧
      record.attrs = token.2.2 ∧ record.part = tree.part ∧ record.paragraphId = tree.paragraphId

/-- No run of the paragraph holds a format history and nothing else, and the paragraph mark
carries at most one revision. -/
def WalksAlike (walked : WalkedPart) (located : String × Nat × Nat) : Prop :=
  ∀ root, findParagraphNode walked.nodes located.2.1 located.2.2 = some root →
    (∀ run ∈ runsOf walked.nodes walked.nodes.length root, historyOnly walked.nodes run = false) ∧
      (paragraphMarks (walked.context located.1) (nodesAt walked.nodes root.children)).length ≤ 1

theorem paragraphDrift_eq_zero_iff (walked : WalkedPart) (located : String × Nat × Nat) :
    paragraphDrift walked located = 0 ↔ WalksAlike walked located := by
  rw [paragraphDrift, WalksAlike]
  cases findParagraphNode walked.nodes located.2.1 located.2.2 with
  | none => simp
  | some root => simp [countP_eq_zero, Nat.sub_eq_zero_iff_le]

theorem partDrift_eq_zero_iff (parts : List WalkedPart) :
    (parts.map partDrift).sum = 0 ↔
      ∀ walked ∈ parts, ∀ located ∈ walked.located, WalksAlike walked located := by
  rw [sum_eq_zero_iff]
  simp only [mem_map, forall_exists_index, and_imp, forall_apply_eq_imp_iff₂, partDrift,
    sum_eq_zero_iff, paragraphDrift_eq_zero_iff]

/-- The two walks allocate the same tokens exactly when neither place where they part is
reached. -/
theorem tokensAgree_iff (crates : Crates) (package : Bytes) :
    (∀ table trees counter, tokenTable crates package = .ok table →
        paragraphNodes crates package = .ok (trees, counter) → TokensAgree table counter trees) ↔
      ∀ parts, walkedParts crates package = .ok parts →
        ∀ walked ∈ parts, ∀ located ∈ walked.located, WalksAlike walked located := by
  cases hparts : walkedParts crates package with
  | error failure => simp [tokenTable, hparts, bind, Except.bind]
  | ok parts =>
    obtain ⟨hlength, hsame⟩ := walkParts_drifts parts [] ([], [])
    have htable : tokenTable crates package = .ok (parts.foldl
        (fun tokens walked => walked.located.foldl (walkParagraph walked) tokens) []) := by
      rw [tokenTable, hparts]
      rfl
    have htrees : paragraphNodes crates package = .ok (parts.foldl
        (fun s walked => walked.located.foldl (walkParagraphNodes walked) s) ([], [])) := by
      rw [paragraphNodes, hparts]
      rfl
    constructor
    · rintro h _ ⟨⟩
      have hviews := congrArg List.length (h _ _ _ htable htrees).views
      rw [List.length_map, List.length_map] at hviews
      rw [← partDrift_eq_zero_iff]
      simp only [List.length_nil] at hlength
      omega
    · intro h table trees counter htable' htrees'
      rw [htable] at htable'
      rw [htrees] at htrees'
      cases htable'
      obtain ⟨hnumbered, hnamed⟩ := walkParts_named parts
      rw [Except.ok.inj htrees'] at hnumbered hnamed hsame
      have heq := hsame ((partDrift_eq_zero_iff parts).mpr (h parts rfl)) rfl
      rw [heq]
      refine ⟨rfl, ?_⟩
      intro tree htree token htoken
      obtain ⟨record, hmem, hid, hkind, hattrs, hpart, hparagraph⟩ := hnamed tree htree token htoken
      refine ⟨record, ?_, hkind, hattrs, hpart, hparagraph⟩
      rw [← hid]
      exact hnumbered.find hmem

/-- A run with a format history and nothing else. -/
def historyDocument : Bytes :=
  bytes "<w:document><w:body><w:p><w:r><w:rPr><w:rPrChange/></w:rPr></w:r></w:p></w:body></w:document>"

theorem historyDocument_walks_part :
    ¬ ∀ crates package table trees counter, tokenTable crates package = .ok table →
      paragraphNodes crates package = .ok (trees, counter) → TokensAgree table counter trees := by
  intro h
  let crates := storedCrates 0x747d921b historyDocument
  let package := storedDocument 0x747d921b historyDocument
  have hflat : (tokenTable crates package).toOption.map (·.length) = some 2 := by
    simp only [crates, package]
    rw [historyDocument, bytes_ofList]
    decide +kernel
  have htree : (paragraphNodes crates package).toOption.map (·.2.length) = some 1 := by
    simp only [crates, package]
    rw [historyDocument, bytes_ofList]
    decide +kernel
  obtain ⟨table, htable, hlength⟩ := exists_ok_of_map hflat
  obtain ⟨⟨trees, counter⟩, htrees, hcounter⟩ := exists_ok_of_map htree
  have hviews := congrArg List.length (h _ _ _ _ _ htable htrees).views
  rw [List.length_map, List.length_map, hlength, hcounter] at hviews
  cases hviews

end Docx2Typed
