import Docx2Typed.Prose.ParagraphIds.Names
import Docx2Typed.Prose.ParagraphIds.Containers

/-!
# The paragraph ids of a document

The id of a located paragraph is assembled from independent counters: the ordinal of its
container, and its own ordinal among the children of its *parent*.  For a table cell and for a
content control the container is the chain of parents the id spells out, so the id determines
the paragraph.  For a text box it is not: the box may hold further containers (a content
control, a custom-XML wrapper), each of which starts counting its own `w:p` children at zero,
and only the box ordinal enters the id.

`scanDocument_ids_nodup_iff`: the ids are distinct exactly when no two paragraphs of one text
box that stand in different elements have the same number there.  The condition is read off the
markup by `Outline`, which knows no container list and no counter of the scan.
-/

namespace Docx2Typed

open List

/-! ## The outline of a document -/

/-- An open element as the markup shows it: its ordinal is the number of its earlier siblings of
the same name. -/
structure OpenElement where
  name : String
  start : Nat
  ordinal : Nat
  /-- The names of the parent's children so far, this element included. -/
  siblings : List String
  deriving DecidableEq, Repr

/-- The open elements at one point of a document, innermost first. -/
structure Outline where
  stack : List OpenElement := []
  /-- The names of the children so far of the innermost open element. -/
  children : List String := []
  /-- How many elements are open around the first `w:body`. -/
  bodyDepth : Option Nat := none
  deriving Repr

def Outline.chain (o : Outline) (bodyDepth : Nat) : List String :=
  (o.stack.reverse.drop (bodyDepth + 1)).map (·.name)

/-- `w:body` is the first element of that name. -/
def Outline.enterBody (o : Outline) (tag : Tag) : Option Nat :=
  if tag.name = "body" ∧ o.bodyDepth = none then some o.stack.length else o.bodyDepth

/-- Whether the tag opens an element that stays open.  A table directly in the body is closed by
its own closing tag only, however it is written. -/
def Outline.opens (o : Outline) (tag : Tag) : Bool :=
  !tag.selfClosing ||
    (tag.name == "tbl" && decide (some o.stack.length = (o.enterBody tag).map (· + 1)))

def Outline.step (o : Outline) (tag : Tag) : Outline :=
  if tag.closing then
    match o.stack with
    | [] => o
    | top :: rest => { o with stack := rest, children := top.siblings }
  else
    let siblings := tag.name :: o.children
    if o.opens tag then
      { stack := ⟨tag.name, tag.start, o.children.count tag.name, siblings⟩ :: o.stack
        children := []
        bodyDepth := o.enterBody tag }
    else { o with children := siblings, bodyDepth := o.enterBody tag }

/-- A text-box paragraph's place in its part: the text box around it, its parent element, and
its ordinal among the parent's `w:p` children. -/
structure TextBoxPlace where
  box : Nat
  parent : Option Nat
  ordinal : Nat
  deriving DecidableEq, Repr

/-- The place of the paragraph that `tag` closes, when it is a text-box paragraph: a paragraph
of the body holds it, with a text box but no table in between. -/
def Outline.textBoxPlace (o : Outline) (tag : Tag) : Option TextBoxPlace :=
  match o.stack, o.bodyDepth with
  | p :: outer, some bodyDepth =>
    if tag.closing ∧ (o.chain bodyDepth).head? = some "p" ∧
        isBoxParagraphStack (o.chain bodyDepth) then
      (outer.find? (·.name == "txbxContent")).map fun box =>
        ⟨box.start, outer.head?.map (·.start), p.ordinal⟩
    else none
  | _, _ => none

/-- The places of all text-box paragraphs from one point of a document on. -/
def textBoxPlacesFrom (o : Outline) : List Tag → List TextBoxPlace
  | [] => []
  | tag :: tags => (o.textBoxPlace tag).toList ++ textBoxPlacesFrom (o.step tag) tags

def textBoxPlaces (xml : Bytes) : List TextBoxPlace := textBoxPlacesFrom {} (scanTags xml)

/-- Two paragraphs of one text box that stand in different elements are not the same-numbered
`w:p` of their parents. -/
def TextBoxPlace.Apart (p q : TextBoxPlace) : Prop :=
  p.box = q.box → p.parent ≠ q.parent → p.ordinal ≠ q.ordinal

instance : DecidableRel TextBoxPlace.Apart := fun p q =>
  inferInstanceAs (Decidable (p.box = q.box → p.parent ≠ q.parent → p.ordinal ≠ q.ordinal))

def TextBoxOrdinalsApart (xml : Bytes) : Prop := (textBoxPlaces xml).Pairwise TextBoxPlace.Apart

instance (xml : Bytes) : Decidable (TextBoxOrdinalsApart xml) :=
  inferInstanceAs (Decidable (List.Pairwise _ _))

/-! ## The scan follows the outline -/

/-- The scan's stack and counters say what the outline says. -/
structure Outlined (s : ScanState) (o : Outline) (bound : Nat) : Prop where
  bodyDepth : s.bodyDepth = o.bodyDepth
  stack : s.stack = o.stack.map fun e => ⟨e.name, e.start, e.ordinal⟩
  children : ∀ name, (s.ordinals.lookup ⟨o.stack.length - 1, o.stack.head?.map (·.start), name⟩).getD 0 =
    o.children.count name
  siblings : ∀ top below, top :: below <:+ o.stack → ∀ name,
    (s.ordinals.lookup ⟨below.length - 1, below.head?.map (·.start), name⟩).getD 0 =
      top.siblings.count name
  keys : ∀ entry ∈ s.ordinals, ∀ p, entry.1.parentStart = some p → p < bound
  ordered : o.stack.Pairwise fun e f => f.start < e.start
  bounded : ∀ e ∈ o.stack, e.start < bound

theorem outlined_empty : Outlined {} {} 0 where
  bodyDepth := rfl
  stack := rfl
  children := by simp
  siblings := by simp
  keys := by simp
  ordered := .nil
  bounded := by simp

section Outlined

variable {s s' : ScanState} {o : Outline} {bound : Nat} {tag : Tag}

theorem Outlined.chain (h : Outlined s o bound) (b : Nat) : s.chain b = o.chain b := by
  rw [ScanState.chain, ScanState.below, Outline.chain, h.stack, ← map_reverse, ← map_drop,
    map_map]
  rfl

theorem Outlined.length (h : Outlined s o bound) : s.stack.length = o.stack.length := by
  rw [h.stack, length_map]

/-- Closing the innermost element. -/
theorem Outlined.close {top : Frame} {rest : List Frame} (h : Outlined s o bound)
    (hclosing : tag.closing = true) (hstack : s.stack = top :: rest) (hrest : s'.stack = rest)
    (hordinals : s'.ordinals = s.ordinals) (hbody : s'.bodyDepth = s.bodyDepth) :
    Outlined s' (o.step tag) bound := by
  have hso := h.stack
  rw [hstack] at hso
  cases ho : o.stack with
  | nil => rw [ho] at hso; simp at hso
  | cons e es =>
    rw [ho, map_cons] at hso
    obtain ⟨-, hes⟩ := List.cons.inj hso
    rw [Outline.step, if_pos hclosing, ho]
    exact
      { bodyDepth := hbody.trans h.bodyDepth
        stack := hrest.trans hes
        children := fun name => by
          rw [hordinals]
          exact h.siblings e es (by rw [ho]) name
        siblings := fun f below hf name => by
          rw [hordinals]
          exact h.siblings f below (by rw [ho]; exact hf.trans (suffix_cons _ _)) name
        keys := by rw [hordinals]; exact h.keys
        ordered := (ho ▸ h.ordered).of_cons
        bounded := fun f hf => h.bounded f (by rw [ho]; exact mem_cons_of_mem _ hf) }

theorem Outlined.keyOf_eq (h : Outlined s o bound) (tag : Tag) :
    s.keyOf tag = ⟨o.stack.length - 1, o.stack.head?.map (·.start), tag.name⟩ := by
  rw [ScanState.keyOf, h.length, h.stack, head?_map, Option.map_map]
  rfl

/-- An element further out does not start where the innermost one does. -/
theorem head_start_ne_of_suffix {stack : List OpenElement} {top : OpenElement}
    {below : List OpenElement} (hord : stack.Pairwise fun e f => f.start < e.start)
    (hsuf : top :: below <:+ stack) :
    below.head?.map (·.start) ≠ stack.head?.map (·.start) := by
  obtain ⟨above, rfl⟩ := hsuf
  cases below with
  | nil => cases above <;> simp
  | cons f fs =>
    cases above with
    | nil =>
      have := rel_of_pairwise_cons hord (mem_cons_self ..)
      simp only [head?_cons, nil_append, Option.map_some, ne_eq, Option.some.injEq]
      omega
    | cons e es =>
      have hf : f ∈ es ++ top :: f :: fs := by simp
      have := rel_of_pairwise_cons hord hf
      simp only [head?_cons, cons_append, Option.map_some, ne_eq, Option.some.injEq]
      omega

/-- Opening a tag: the counters of the other parents stay as they are. -/
theorem Outlined.open (h : Outlined s o bound) (hclosing : tag.closing = false)
    (hstart : bound ≤ tag.start) : Outlined (scanOpening s tag) (o.step tag) (tag.start + 1) := by
  have heffect := openingEffect s tag
  have hbody : (scanOpening s tag).bodyDepth = o.enterBody tag := by
    rw [heffect.bodyDepth, ScanState.count, Outline.enterBody, h.length, h.bodyDepth]
  have hordinal : s.ordinalOf tag = o.children.count tag.name := by
    rw [ScanState.ordinalOf, h.keyOf_eq, h.children]
  -- the new counter, and what it hides
  have hsame : ∀ name, ((scanOpening s tag).ordinals.lookup
      ⟨o.stack.length - 1, o.stack.head?.map (·.start), name⟩).getD 0 =
        (tag.name :: o.children).count name := by
    intro name
    rw [heffect.ordinals, h.keyOf_eq, hordinal, lookup_cons, count_cons]
    by_cases hname : name = tag.name
    · simp [hname]
    · rw [beq_false_of_ne (by simpa using hname), beq_false_of_ne (Ne.symm hname)]
      simpa using h.children name
  have hother : ∀ key : OrdinalKey, key.parentStart ≠ o.stack.head?.map (·.start) →
      (scanOpening s tag).ordinals.lookup key = s.ordinals.lookup key := by
    intro key hkey
    rw [heffect.ordinals, h.keyOf_eq, lookup_cons,
      beq_false_of_ne (fun heq => hkey (by rw [heq]))]
  have hkeys : ∀ entry ∈ (scanOpening s tag).ordinals, ∀ p, entry.1.parentStart = some p →
      p < tag.start + 1 := by
    intro entry he p hp
    rw [heffect.ordinals] at he
    rcases mem_cons.mp he with rfl | he
    · rw [h.keyOf_eq] at hp
      obtain ⟨e, he, rfl⟩ := Option.map_eq_some_iff.mp hp
      have := h.bounded e (mem_of_mem_head? he)
      omega
    · have := h.keys entry he p hp
      omega
  -- an element further out counts under another parent
  have hbelow : ∀ top below, top :: below <:+ o.stack → ∀ name,
      ((scanOpening s tag).ordinals.lookup
        ⟨below.length - 1, below.head?.map (·.start), name⟩).getD 0 = top.siblings.count name := by
    intro top below hsuf name
    rw [hother _ ?_]
    · exact h.siblings top below hsuf name
    · exact head_start_ne_of_suffix h.ordered hsuf
  have hstack := scanOpening_stack s tag
  rw [← heffect.bodyDepth, hbody, h.length] at hstack
  have hopens : o.opens tag = false ↔ tag.selfClosing = true ∧
      ¬ (tag.name = "tbl" ∧ some o.stack.length = (o.enterBody tag).map (· + 1)) := by
    simp [Outline.opens]
  rw [Outline.step, if_neg (by simp [hclosing])]
  by_cases ho : o.opens tag
  · rw [if_pos ho]
    rw [if_neg (fun hc => by rw [hopens.mpr hc] at ho; simp at ho)] at hstack
    exact
      { bodyDepth := hbody
        stack := by rw [hstack, h.stack, hordinal]; rfl
        children := fun name => by
          -- nothing has been counted under the element just opened
          have hne : some tag.start ≠ o.stack.head?.map (·.start) := by
            intro heq
            obtain ⟨e, he, hstart'⟩ := Option.map_eq_some_iff.mp heq.symm
            have := h.bounded e (mem_of_mem_head? he)
            omega
          rw [head?_cons, Option.map_some, hother _ hne, lookup_eq_none_iff.mpr]
          · rfl
          · intro entry he
            rw [bne_iff_ne]
            intro heq
            have := h.keys entry he tag.start (by rw [← heq])
            omega
        siblings := fun top below hsuf name => by
          rcases suffix_cons_iff.mp hsuf with heq | hsuf
          · obtain ⟨rfl, rfl⟩ := List.cons.inj heq
            exact hsame name
          · exact hbelow top below hsuf name
        keys := hkeys
        ordered := pairwise_cons.mpr
          ⟨fun e he => (h.bounded e he).trans_le hstart, h.ordered⟩
        bounded := fun e he => by
          rcases mem_cons.mp he with rfl | he
          · exact Nat.lt_succ_self _
          · have := h.bounded e he
            omega }
  · rw [if_neg ho]
    rw [if_pos (hopens.mp (by simpa using ho))] at hstack
    exact
      { bodyDepth := hbody
        stack := by rw [hstack, h.stack]
        children := hsame
        siblings := hbelow
        keys := hkeys
        ordered := h.ordered
        bounded := fun e he => by
          have := h.bounded e he
          omega }

end Outlined

/-! ## What the scan has located -/

/-- All openings and containers met so far, and the places of the text-box paragraphs. -/
structure Chronicle where
  log : List Opening := []
  tables : List (Int × Nat) := []
  sdts : List (Int × Nat) := []
  boxes : List (Int × Nat) := []
  places : List TextBoxPlace := []

/-- The path of a located cell or content-control paragraph leads back to its opening tag. -/
def Chronicle.Explains (c : Chronicle) (start : Nat) : ParagraphPath → Prop
  | .sdt sdtIndex pOrdinal => ∃ depth content,
      ⟨start, ⟨depth, some content, "p"⟩, pOrdinal⟩ ∈ c.log ∧ (sdtIndex, content) ∈ c.sdts
  | .cell tableIndex chain => ∃ p ∈ c.log, ∃ tc ∈ c.log, ∃ tr ∈ c.log, ∃ table,
      p.start = start ∧
      (p.key.name = "p" ∧ p.ordinal = chainValue "p" chain ∧
        p.key.parentStart = some tc.start) ∧
      (tc.key.name = "tc" ∧ tc.ordinal = chainValue "tc" chain ∧
        tc.key.parentStart = some tr.start) ∧
      (tr.key.name = "tr" ∧ tr.ordinal = chainValue "tr" chain ∧
        tr.key.parentStart = some table) ∧ (tableIndex, table) ∈ c.tables
  | .box _ _ => True
  | .direct => True

def ParagraphPath.isBox : ParagraphPath → Bool
  | .box _ _ => true
  | _ => false

/-- A located text-box paragraph and its place. -/
def Chronicle.PlacedAt (c : Chronicle) (entry : Nat × Nat × ParagraphPath)
    (place : TextBoxPlace) : Prop :=
  ∃ boxIndex depth, entry.2.2 = .box boxIndex place.ordinal ∧ (boxIndex, place.box) ∈ c.boxes ∧
    ⟨entry.1, ⟨depth, place.parent, "p"⟩, place.ordinal⟩ ∈ c.log

/-- What every state of an accepted scan satisfies. -/
structure ScanInv (s : ScanState) (o : Outline) (c : Chronicle) (bound : Nat) : Prop where
  outlined : Outlined s o bound
  log : OpeningLog s.ordinals s.stack c.log bound
  tables : Tracks "tbl" (TableQualifies s.bodyDepth) s.stack s.openTables c.tables
    s.tableOrdinal bound
  sdts : Tracks "sdtContent" (SdtQualifies s.bodyDepth) s.stack s.openSdts c.sdts
    s.sdtOrdinal bound
  boxes : Tracks "txbxContent" (BoxQualifies s.bodyDepth) s.stack s.openBoxes c.boxes
    s.boxOrdinal bound
  explained : ∀ entry ∈ s.paragraphStarts, c.Explains entry.1 entry.2.2
  placed : List.Forall₂ c.PlacedAt (s.paragraphStarts.filter (·.2.2.isBox)) c.places
  startsNodup : (s.paragraphStarts.map (·.1)).Nodup
  closed : ∀ entry ∈ s.paragraphStarts, entry.1 < bound ∧ ∀ f ∈ s.stack, f.start ≠ entry.1

theorem scanInv_empty : ScanInv {} {} {} 0 where
  outlined := outlined_empty
  log := openingLog_empty
  tables := tracks_empty
  sdts := tracks_empty
  boxes := tracks_empty
  explained := by simp
  placed := .nil
  startsNodup := by simp
  closed := by simp

/-- Every open container still stands on the stack. -/
structure Settled (s : ScanState) : Prop where
  tables : ∀ x ∈ s.openTables, ∃ f ∈ s.stack, f.start = x.2
  sdts : ∀ x ∈ s.openSdts, ∃ f ∈ s.stack, f.start = x.2
  boxes : ∀ x ∈ s.openBoxes, ∃ f ∈ s.stack, f.start = x.2

variable {rest : List Frame} {top : Frame}

variable {b : Nat} {path : ParagraphPath}

section ScanInv

variable {s s' : ScanState} {o : Outline} {c : Chronicle} {bound : Nat} {tag : Tag}

/-- Knowing more openings and containers explains no less. -/
theorem Chronicle.Explains.mono {c' : Chronicle} (hlog : c.log ⊆ c'.log)
    (htables : c.tables ⊆ c'.tables) (hsdts : c.sdts ⊆ c'.sdts) {start : Nat}
    (h : c.Explains start path) : c'.Explains start path := by
  cases path with
  | direct => trivial
  | box i n => trivial
  | sdt i n =>
    obtain ⟨d, content, hp, hc⟩ := h
    exact ⟨d, content, hlog hp, hsdts hc⟩
  | cell i chain =>
    obtain ⟨p, hp, tc, htc, tr, htr, table, h1, h2, h3, h4, htable⟩ := h
    exact ⟨p, hlog hp, tc, hlog htc, tr, hlog htr, table, h1, h2, h3, h4, htables htable⟩

theorem Chronicle.PlacedAt.mono {c' : Chronicle} (hlog : c.log ⊆ c'.log)
    (hboxes : c.boxes ⊆ c'.boxes) {entry : Nat × Nat × ParagraphPath} {place : TextBoxPlace}
    (h : c.PlacedAt entry place) : c'.PlacedAt entry place := by
  obtain ⟨i, d, hpath, hbox, hp⟩ := h
  exact ⟨i, d, hpath, hboxes hbox, hlog hp⟩

/-- The body is found at a depth no open element below it has passed. -/
theorem ScanInv.rebase (h : ScanInv s o c bound) (tag : Tag) :
    Tracks "tbl" (TableQualifies (s.count tag).bodyDepth) s.stack s.openTables c.tables
      s.tableOrdinal bound ∧
    Tracks "sdtContent" (SdtQualifies (s.count tag).bodyDepth) s.stack s.openSdts c.sdts
      s.sdtOrdinal bound ∧
    Tracks "txbxContent" (BoxQualifies (s.count tag).bodyDepth) s.stack s.openBoxes c.boxes
      s.boxOrdinal bound := by
  by_cases hbody : tag.name = "body" ∧ s.bodyDepth = none
  · have hcount : (s.count tag).bodyDepth = some s.stack.length := by
      simp [ScanState.count, hbody]
    have hlen : ∀ f below, f :: below <:+ s.stack → below.length < s.stack.length := by
      intro f below hf
      have := hf.length_le
      simpa using this
    rw [hcount]
    refine ⟨h.tables.congr ?_, h.sdts.congr ?_, h.boxes.congr ?_⟩
    · intro f below hf
      have := hlen f below hf
      simp only [TableQualifies, hbody.2]
      constructor
      · rintro ⟨b, hb, hq⟩
        obtain rfl := Option.some.inj hb
        omega
      · simp
    · intro f below hf
      have := hlen f below hf
      simp only [SdtQualifies, hbody.2]
      constructor
      · rintro ⟨b, hb, hq⟩
        obtain rfl := Option.some.inj hb
        omega
      · simp
    · intro f below hf
      have := hlen f below hf
      simp only [BoxQualifies, hbody.2]
      constructor
      · rintro ⟨b, hb, hq⟩
        obtain rfl := Option.some.inj hb
        omega
      · simp
  · have hcount : (s.count tag).bodyDepth = s.bodyDepth := by
      simp only [ScanState.count, if_neg hbody]
    rw [hcount]
    exact ⟨h.tables, h.sdts, h.boxes⟩

/-- Opening a tag locates at most the tag itself, as a paragraph of the body. -/
theorem ScanInv.open (h : ScanInv s o c bound) (hclosing : tag.closing = false)
    (htag : bound ≤ tag.start) :
    ∃ c', c'.places = c.places ∧ ScanInv (scanOpening s tag) (o.step tag) c' (tag.start + 1) := by
  have heffect := openingEffect s tag
  obtain ⟨htables, hsdts, hboxes⟩ := h.rebase tag
  rw [← heffect.bodyDepth] at htables hsdts hboxes
  obtain ⟨tables', htsub, htables⟩ :=
    htables.opening htag h.log.start_lt heffect.tables heffect.stack rfl rfl
  obtain ⟨sdts', hssub, hsdts⟩ :=
    hsdts.opening htag h.log.start_lt heffect.sdts heffect.stack rfl rfl
  obtain ⟨boxes', hbsub, hboxes⟩ :=
    hboxes.opening htag h.log.start_lt heffect.boxes heffect.stack rfl rfl
  have hlog : OpeningLog (scanOpening s tag).ordinals (scanOpening s tag).stack
      (⟨tag.start, s.keyOf tag, s.ordinalOf tag⟩ :: c.log) (tag.start + 1) := by
    have hcounted := h.log.count tag.name htag
    rw [heffect.ordinals]
    rcases heffect.stack with hs | hs
    · rw [hs]
      exact hcounted
    · rw [hs]
      refine hcounted.push (mem_cons_self ..) (fun f hf => ?_) (Nat.le_refl _)
      exact (h.log.start_lt f hf).trans_le htag
  -- an entry located earlier, or the tag itself
  have hentries : ∀ entry ∈ (scanOpening s tag).paragraphStarts, entry ∈ s.paragraphStarts ∨
      entry = (tag.start, tag.stop, .direct) ∧ (scanOpening s tag).stack = s.stack := by
    intro entry he
    rcases heffect.starts with hs | ⟨hs, hst⟩
    · exact .inl (hs ▸ he)
    · rw [hs, mem_append, mem_singleton] at he
      exact he.imp_right fun he => ⟨he, hst⟩
  have hsub : c.log ⊆ ⟨tag.start, s.keyOf tag, s.ordinalOf tag⟩ :: c.log :=
    subset_cons_self _ _
  refine ⟨⟨⟨tag.start, s.keyOf tag, s.ordinalOf tag⟩ :: c.log, tables', sdts', boxes', c.places⟩,
    rfl, ⟨h.outlined.open hclosing htag, hlog, htables, hsdts, hboxes, ?_, ?_, ?_, ?_⟩⟩
  · intro entry he
    rcases hentries entry he with he | ⟨rfl, -⟩
    · exact (h.explained entry he).mono hsub htsub hssub
    · trivial
  · have hfilter : (scanOpening s tag).paragraphStarts.filter (·.2.2.isBox) =
        s.paragraphStarts.filter (·.2.2.isBox) := by
      rcases heffect.starts with hs | ⟨hs, -⟩
      · rw [hs]
      · rw [hs, filter_append]
        simp [ParagraphPath.isBox]
    rw [hfilter]
    exact h.placed.imp fun entry place hp => hp.mono hsub hbsub
  · rcases heffect.starts with hs | ⟨hs, -⟩
    · rw [hs]
      exact h.startsNodup
    · rw [hs, map_append, map_singleton]
      refine nodup_append.mpr ⟨h.startsNodup, by simp, ?_⟩
      intro start hstart start' hstart'
      obtain ⟨entry, he, rfl⟩ := mem_map.mp hstart
      have := (h.closed entry he).1
      rw [mem_singleton.mp hstart']
      omega
  · intro entry he
    rcases hentries entry he with he | ⟨rfl, hst⟩
    · have hlt := (h.closed entry he).1
      refine ⟨by omega, fun f hf => ?_⟩
      rcases heffect.stack with hs | hs
      · exact (h.closed entry he).2 f (hs ▸ hf)
      · rw [hs] at hf
        rcases mem_cons.mp hf with rfl | hf
        · simp only
          omega
        · exact (h.closed entry he).2 f hf
    · refine ⟨Nat.lt_succ_self _, fun f hf => ?_⟩
      rw [hst] at hf
      have := h.log.start_lt f hf
      simp only
      omega

/-- The outline's text-box place, in terms of the scan. -/
theorem Outlined.textBoxPlace_eq (h : Outlined s o bound) (hclosing : tag.closing = true)
    (hstack : s.stack = top :: rest) (hbody : s.bodyDepth = some b) :
    o.textBoxPlace tag =
      if (namesBelow b s.stack).head? = some "p" ∧ isBoxParagraphStack (namesBelow b s.stack) then
        (rest.find? (·.name == "txbxContent")).map fun box =>
          ⟨box.start, rest.head?.map (·.start), top.ordinal⟩
      else none := by
  have hso := h.stack
  rw [hstack] at hso
  cases ho : o.stack with
  | nil => rw [ho] at hso; simp at hso
  | cons e es =>
    rw [ho, map_cons] at hso
    obtain ⟨rfl, rfl⟩ := List.cons.inj hso
    have hchain := h.chain b
    rw [ScanState.chain_eq] at hchain
    rw [Outline.textBoxPlace, ho, ← h.bodyDepth, hbody]
    simp only [hclosing, true_and, ← hchain, find?_map, Option.map_map, head?_map]
    rfl

/-- An accepted closing tag that locates no text-box paragraph closes none. -/
theorem ScanInv.textBoxPlace (h : ScanInv s o c bound) (hsettled : Settled s)
    (hclosing : tag.closing = true) (hstack : s.stack = top :: rest) (hname : top.name = tag.name)
    (hbody : s.bodyDepth = some b) :
    (o.textBoxPlace tag = none ∧ (ClosesBoxParagraph s b tag → s.openBoxes = [])) ∨
    ∃ boxIndex place, o.textBoxPlace tag = some place ∧ ClosesBoxParagraph s b tag ∧
      s.openBoxes.head? = some (boxIndex, place.box) ∧ (boxIndex, place.box) ∈ c.boxes ∧
      place.parent = rest.head?.map (·.start) ∧ place.ordinal = top.ordinal := by
  have hplace := h.outlined.textBoxPlace_eq hclosing hstack hbody
  by_cases hbox : (namesBelow b s.stack).head? = some "p" ∧
      isBoxParagraphStack (namesBelow b s.stack)
  · rw [if_pos hbox] at hplace
    rw [hstack] at hbox
    obtain ⟨above, box, below, rfl, hp, habove, hboxName, hq⟩ := box_stack hbox.2 hbox.1
    have hfind : (above ++ box :: below).find? (·.name == "txbxContent") = some box := by
      rw [find?_eq_some_iff_append]
      exact ⟨by simp [hboxName], above, below, rfl, fun f hf => by simpa using habove f hf⟩
    rw [hfind] at hplace
    have hboxes := h.boxes
    have hord := h.log.ordered
    have hfresh := hsettled.boxes
    rw [hstack, ← cons_append] at hboxes hord hfresh
    obtain ⟨boxIndex, hhead, hmem⟩ := hboxes.head_eq hord hfresh hboxName (hbody ▸ hq) (by
      intro f hf
      rcases mem_cons.mp hf with rfl | hf
      · rw [hp]
        decide
      · exact habove f hf)
    refine .inr ⟨boxIndex, _, hplace, ⟨hname.symm.trans hp, ?_, ?_⟩, hhead, hmem, rfl, rfl⟩
    · obtain ⟨b', hb', hlen, -⟩ := hq
      obtain rfl := Option.some.inj hb'
      rw [hstack]
      simp
      omega
    · rw [ScanState.chain_eq, hstack]
      exact hbox.2
  · rw [if_neg hbox] at hplace
    refine .inl ⟨hplace, fun hc => ?_⟩
    -- an open box stands on the stack, inside a paragraph of the body
    cases hopens : s.openBoxes with
    | nil => rfl
    | cons x xs =>
      have hx : x ∈ s.openBoxes := by rw [hopens]; exact mem_cons_self ..
      obtain ⟨f, hf, hfx⟩ := hsettled.boxes x hx
      obtain ⟨above, below, hsplit⟩ := append_of_mem hf
      obtain ⟨-, b', hb', hlen, hhead⟩ := h.boxes.qualified x hx f below ⟨above, hsplit.symm⟩ hfx
      obtain rfl := Option.some.inj (hbody.symm.trans hb')
      refine absurd ⟨?_, by rw [← ScanState.chain_eq]; exact hc.2.2⟩ hbox
      rw [hsplit, namesBelow, reverse_append, reverse_cons, append_assoc,
        drop_append_of_le_length (by simp; omega), map_append, head?_append]
      rw [namesBelow] at hhead
      rw [hhead]
      rfl

/-- A located cell or content-control paragraph is explained by the elements around it. -/
theorem ScanInv.explains (h : ScanInv s o c bound) (hsettled : Settled s)
    (hstack : s.stack = top :: rest) (hname : top.name = tag.name) (hbody : s.bodyDepth = some b)
    (hpath : closingPath s b top tag = .ok (some path)) : c.Explains top.start path := by
  have hord := h.log.ordered
  rcases closingPath_cases hpath with ⟨hnone, -⟩ | ⟨box, -, hbox, -⟩ |
    ⟨sdt, hhead, hsdt, hp, hlen, hstackSdt, -⟩ | ⟨table, hhead, hcell, hp, hlen, hstackCell, -⟩
  · rcases hnone with hnone | hdirect
    · exact absurd hnone (by simp)
    · obtain rfl := Option.some.inj hdirect
      trivial
  · obtain rfl := Option.some.inj hbox
    trivial
  · obtain rfl := Option.some.inj hsdt
    obtain ⟨content, below, hrest, hcontent, htop, hq⟩ := sdt_stack hstack hstackSdt
    have hframe := h.log.frames top rest (by rw [hstack])
    have hsdts := h.sdts
    have hfresh := hsettled.sdts
    rw [hstack, hrest, ← singleton_append] at hsdts hfresh hord
    obtain ⟨i, hi, hmem⟩ := hsdts.head_eq hord hfresh hcontent (hbody ▸ hq) (by
      intro g hg
      rw [mem_singleton.mp hg, htop]
      decide)
    obtain rfl := Option.some.inj (hhead.symm.trans hi)
    rw [hrest, htop] at hframe
    exact ⟨_, _, hframe, hmem⟩
  · obtain rfl := Option.some.inj hcell
    obtain ⟨tc, tr, tbl, below, hrest, htc, htr, htbl, hq, hvp, hvtc, hvtr⟩ :=
      cell_stack hstack hstackCell
    have hsuf : ∀ {l}, l <:+ top :: tc :: tr :: tbl :: below → l <:+ s.stack := by
      rw [hstack, hrest]
      exact id
    have hpframe := h.log.frames top _ (hsuf (suffix_refl _))
    have htcframe := h.log.frames tc _ (hsuf (suffix_cons _ _))
    have htrframe := h.log.frames tr _
      (hsuf ((suffix_cons _ _).trans (suffix_cons _ _)))
    have htables := h.tables
    have hfresh := hsettled.tables
    have hsplit : top :: tc :: tr :: tbl :: below = [top, tc, tr] ++ tbl :: below := rfl
    rw [hstack, hrest, hsplit] at htables hfresh hord
    obtain ⟨i, hi, hmem⟩ := htables.head_eq hord hfresh htbl (hbody ▸ hq) (by
      intro g hg
      simp only [mem_cons, not_mem_nil, or_false] at hg
      rcases hg with rfl | rfl | rfl
      · rw [hname, hp]
        decide
      · rw [htc]
        decide
      · rw [htr]
        decide)
    obtain rfl := Option.some.inj (hhead.symm.trans hi)
    exact ⟨_, hpframe, _, htcframe, _, htrframe, tbl.start, rfl,
      ⟨hname.trans hp, hvp.symm, rfl⟩, ⟨htc, hvtc.symm, rfl⟩, ⟨htr, hvtr.symm, rfl⟩, hmem⟩

/-- Closing a tag locates a text-box paragraph exactly where the outline has one. -/
theorem ScanInv.placed_close (h : ScanInv s o c bound) (hsettled : Settled s)
    {path : Option ParagraphPath} (hclosing : tag.closing = true) (hstack : s.stack = top :: rest)
    (hname : top.name = tag.name) (hbody : s.bodyDepth = some b)
    (hpath : closingPath s b top tag = .ok path) :
    List.Forall₂ c.PlacedAt
      ((path.map fun path => (top.start, tag.stop, path)).toList.filter (·.2.2.isBox))
      (o.textBoxPlace tag).toList := by
  rcases h.textBoxPlace hsettled hclosing hstack hname hbody with
    ⟨hplace, hno⟩ | ⟨boxIndex, place, hplace, hcloses, hhead, hmem, hparent, hordinal⟩
  · rw [hplace]
    rcases closingPath_cases hpath with ⟨hnone, -⟩ | ⟨box, hbox, -, hcloses⟩ |
      ⟨sdt, -, rfl, -⟩ | ⟨table, -, rfl, -⟩
    · rcases hnone with rfl | rfl
      · exact .nil
      · exact .nil
    · rw [hno hcloses] at hbox
      simp at hbox
    · exact .nil
    · exact .nil
  · rw [hplace]
    rcases closingPath_cases hpath with ⟨-, hno⟩ | ⟨box, hbox, rfl, -⟩ |
      ⟨sdt, -, -, -, -, -, hno⟩ | ⟨table, -, -, -, -, -, hno⟩
    · rw [hno hcloses] at hhead
      simp at hhead
    · obtain rfl := Option.some.inj (hbox.symm.trans hhead)
      have hframe := h.log.frames top rest (by rw [hstack])
      refine .cons ⟨boxIndex, rest.length - 1, by rw [hordinal], hmem, ?_⟩ .nil
      rw [hparent, hordinal, ← hcloses.1, ← hname]
      exact hframe
    · exact absurd hcloses hno
    · exact absurd hcloses hno

theorem ScanInv.close (h : ScanInv s o c bound) (hsettled : Settled s)
    (hclosing : tag.closing = true) (hstep : scanClosing s tag = .ok s') :
    ScanInv s' (o.step tag) { c with places := c.places ++ (o.textBoxPlace tag).toList } bound := by
  obtain ⟨top, rest, b, path, hstack, hname, hbody, hpath, rfl⟩ := scanClosing_eq_ok hstep
  have hord := h.log.ordered
  rw [hstack] at hord
  have hbelow : ∀ f ∈ rest, f.start < top.start := fun f hf => rel_of_pairwise_cons hord hf
  have hlog := h.log
  have htables := h.tables
  have hsdts := h.sdts
  have hboxes := h.boxes
  rw [hstack] at hlog htables hsdts hboxes
  refine ⟨h.outlined.close hclosing hstack rfl rfl rfl, hlog.close, htables.close hbelow,
    hsdts.close hbelow, hboxes.close hbelow, ?_, ?_, ?_, ?_⟩
  · intro entry he
    rcases mem_append.mp he with he | he
    · exact (h.explained entry he).mono (List.Subset.refl _) (List.Subset.refl _)
        (List.Subset.refl _)
    · cases path with
      | none => simp at he
      | some path =>
        obtain rfl := mem_singleton.mp he
        exact (h.explains hsettled hstack hname hbody hpath).mono (List.Subset.refl _)
          (List.Subset.refl _) (List.Subset.refl _)
  · rw [filter_append]
    refine rel_append ?_ ?_
    · exact h.placed.imp fun _ _ hp => hp.mono (List.Subset.refl _) (List.Subset.refl _)
    · exact (h.placed_close hsettled hclosing hstack hname hbody hpath).imp fun _ _ hp =>
        hp.mono (List.Subset.refl _) (List.Subset.refl _)
  · have htop : ∀ entry ∈ s.paragraphStarts, entry.1 ≠ top.start := fun entry he =>
      ((h.closed entry he).2 top (by rw [hstack]; exact mem_cons_self ..)).symm
    cases path with
    | none => simpa using h.startsNodup
    | some path =>
      simp only [Option.map_some, Option.toList_some, map_append, map_cons, map_nil]
      refine nodup_append.mpr ⟨h.startsNodup, by simp, ?_⟩
      intro start hstart start' hstart'
      obtain ⟨entry, he, rfl⟩ := mem_map.mp hstart
      rw [mem_singleton.mp hstart']
      exact htop entry he
  · intro entry he
    rcases mem_append.mp he with he | he
    · exact ⟨(h.closed entry he).1, fun f hf =>
        (h.closed entry he).2 f (by rw [hstack]; exact mem_cons_of_mem _ hf)⟩
    · cases path with
      | none => simp at he
      | some path =>
        obtain rfl := mem_singleton.mp he
        refine ⟨h.log.start_lt top (by rw [hstack]; exact mem_cons_self ..), ?_⟩
        intro f hf
        have := hbelow f hf
        simp only
        omega

end ScanInv

/-! ## Accepted runs -/

/-- One step on a list of open containers and on the stack. -/
def StepsOpen (tag : Tag) (stack stack' : List Frame) (opens opens' : List (Int × Nat)) : Prop :=
  (∃ top closes, stack = top :: stack' ∧ opens' = popOpen closes top.start opens) ∨
    ((stack' = stack ∨ ∃ f, f.start = tag.start ∧ stack' = f :: stack) ∧
      (opens' = opens ∨ ∃ i, opens' = (i, tag.start) :: opens))

variable {opens opens' : List (Int × Nat)}

variable {tag : Tag}

theorem OpensContainer.cases {name : String} {qualifies : List Frame → Prop} {stack : List Frame}
    {ordinal ordinal' : Int}
    (h : OpensContainer name qualifies stack tag opens opens' ordinal ordinal') :
    opens' = opens ∨ ∃ i, opens' = (i, tag.start) :: opens := by
  rcases h with ⟨h, -⟩ | ⟨h, -⟩
  · exact .inl h
  · exact .inr ⟨_, h⟩

theorem stepsOpen_of_step {s s' : ScanState} (h : scanDocumentStep s tag = .ok s') :
    StepsOpen tag s.stack s'.stack s.openTables s'.openTables ∧
      StepsOpen tag s.stack s'.stack s.openSdts s'.openSdts ∧
      StepsOpen tag s.stack s'.stack s.openBoxes s'.openBoxes := by
  rw [scanDocumentStep] at h
  split at h
  · obtain ⟨top, rest, b, path, hstack, -, -, -, rfl⟩ := scanClosing_eq_ok h
    exact ⟨.inl ⟨top, _, hstack, rfl⟩, .inl ⟨top, _, hstack, rfl⟩, .inl ⟨top, _, hstack, rfl⟩⟩
  · obtain rfl := Except.ok.inj h
    have heffect := openingEffect s tag
    have hstack : (scanOpening s tag).stack = s.stack ∨
        ∃ f : Frame, f.start = tag.start ∧ (scanOpening s tag).stack = f :: s.stack :=
      heffect.stack.imp_right fun hs => ⟨_, rfl, hs⟩
    exact ⟨.inr ⟨hstack, heffect.tables.cases⟩, .inr ⟨hstack, heffect.sdts.cases⟩,
      .inr ⟨hstack, heffect.boxes.cases⟩⟩

/-- A container whose element is closed while it is not the innermost one stays open for good. -/
theorem StepsOpen.stale {stack stack' : List Frame} (h : StepsOpen tag stack stack' opens opens')
    {x : Int × Nat} (hx : x ∈ opens) (hstale : ∀ f ∈ stack, f.start ≠ x.2) (htag : x.2 < tag.start)
    : x ∈ opens' ∧ ∀ f ∈ stack', f.start ≠ x.2 := by
  rcases h with ⟨top, closes, rfl, rfl⟩ | ⟨hstack, hopens⟩
  · exact ⟨mem_popOpen_of_ne hx (hstale top (mem_cons_self ..)).symm,
      fun f hf => hstale f (mem_cons_of_mem _ hf)⟩
  · constructor
    · rcases hopens with rfl | ⟨i, rfl⟩
      · exact hx
      · exact mem_cons_of_mem _ hx
    · rcases hstack with rfl | ⟨f, hf, rfl⟩
      · exact hstale
      · intro g hg
        rcases mem_cons.mp hg with rfl | hg
        · omega
        · exact hstale g hg

/-- The end of an accepted pass: nothing is left open. -/
structure Finished (s : ScanState) : Prop where
  tables : s.openTables = []
  sdts : s.openSdts = []
  boxes : s.openBoxes = []

/-- A list of open containers that is empty in the end held no stale one before. -/
theorem not_stale_of_run (opens : ScanState → List (Int × Nat))
    (hstep : ∀ {s s' tag}, scanDocumentStep s tag = .ok s' →
      StepsOpen tag s.stack s'.stack (opens s) (opens s')) :
    ∀ {tags : List Tag} {s final : ScanState}, tags.foldlM scanDocumentStep s = .ok final →
      opens final = [] → ∀ x ∈ opens s, (∀ tag ∈ tags, x.2 < tag.start) →
        ∃ f ∈ s.stack, f.start = x.2
  | [], s, final, hrun, hfinal, x, hx, _ => by
    obtain rfl := Except.ok.inj hrun
    rw [hfinal] at hx
    simp at hx
  | tag :: tags, s, final, hrun, hfinal, x, hx, htags => by
    rw [foldlM_cons] at hrun
    obtain ⟨s', hs', hrun⟩ := bind_eq_ok hrun
    by_contra hstale
    obtain ⟨hx', hstale'⟩ := (hstep hs').stale hx
      (fun f hf heq => hstale ⟨f, hf, heq⟩) (htags tag (mem_cons_self ..))
    obtain ⟨f, hf, heq⟩ := not_stale_of_run opens hstep hrun hfinal x hx'
      fun tag htag => htags tag (mem_cons_of_mem _ htag)
    exact hstale' f hf heq

theorem settled_of_run {tags : List Tag} {s final : ScanState} {o : Outline} {c : Chronicle}
    {bound : Nat} (h : ScanInv s o c bound) (hrun : tags.foldlM scanDocumentStep s = .ok final)
    (hfinal : Finished final) (htags : ∀ tag ∈ tags, bound ≤ tag.start) : Settled s where
  tables := fun x hx => not_stale_of_run (·.openTables) (fun hs => (stepsOpen_of_step hs).1)
    hrun hfinal.tables x hx fun tag htag =>
      (h.tables.bounded x (h.tables.subset x hx)).trans_le (htags tag htag)
  sdts := fun x hx => not_stale_of_run (·.openSdts) (fun hs => (stepsOpen_of_step hs).2.1)
    hrun hfinal.sdts x hx fun tag htag =>
      (h.sdts.bounded x (h.sdts.subset x hx)).trans_le (htags tag htag)
  boxes := fun x hx => not_stale_of_run (·.openBoxes) (fun hs => (stepsOpen_of_step hs).2.2)
    hrun hfinal.boxes x hx fun tag htag =>
      (h.boxes.bounded x (h.boxes.subset x hx)).trans_le (htags tag htag)

/-- The invariant holds at the end of an accepted pass, and the places are the outline's. -/
theorem ScanInv.run : ∀ {tags : List Tag} {s final : ScanState} {o : Outline} {c : Chronicle}
    {bound : Nat}, ScanInv s o c bound → tags.foldlM scanDocumentStep s = .ok final →
      Finished final → (∀ tag ∈ tags, bound ≤ tag.start) →
      tags.Pairwise (fun t u => t.start < u.start) →
      ∃ o' c' bound', ScanInv final o' c' bound' ∧ c'.places = c.places ++ textBoxPlacesFrom o tags
  | [], s, final, o, c, bound, h, hrun, _, _, _ => by
    obtain rfl := Except.ok.inj hrun
    exact ⟨o, c, bound, h, by rw [textBoxPlacesFrom, append_nil]⟩
  | tag :: tags, s, final, o, c, bound, h, hrun, hfinal, htags, hord => by
    have hsettled := settled_of_run h hrun hfinal htags
    rw [foldlM_cons] at hrun
    obtain ⟨s', hs', hrun⟩ := bind_eq_ok hrun
    have htag := htags tag (mem_cons_self ..)
    rw [scanDocumentStep] at hs'
    split at hs'
    next hclosing =>
      obtain ⟨o', c', bound', hinv, hplaces⟩ :=
        (h.close hsettled hclosing hs').run hrun hfinal
          (fun tag' htag' => htags tag' (mem_cons_of_mem _ htag')) hord.of_cons
      exact ⟨o', c', bound', hinv, by rw [hplaces, textBoxPlacesFrom, append_assoc]⟩
    next hclosing =>
      obtain rfl := Except.ok.inj hs'
      have hclosing : tag.closing = false := by simpa using hclosing
      obtain ⟨c₁, hc₁, h₁⟩ := h.open hclosing htag
      obtain ⟨o', c', bound', hinv, hplaces⟩ := h₁.run hrun hfinal
        (fun tag' htag' => rel_of_pairwise_cons hord htag') hord.of_cons
      refine ⟨o', c', bound', hinv, ?_⟩
      rw [hplaces, textBoxPlacesFrom, Outline.textBoxPlace, hc₁]
      have hnone : (Outline.textBoxPlace o tag) = none := by
        rw [Outline.textBoxPlace]
        split
        · simp [hclosing]
        · rfl
      rw [Outline.textBoxPlace] at hnone
      rw [hnone]
      rfl

/-! ## Distinct ids -/

/-- Matching two lists entry by entry carries a pairwise relation from one to the other. -/
theorem pairwise_iff_of_forall₂ {α β : Type} {R : α → β → Prop} {S P : α → α → Prop}
    {Q : β → β → Prop} (hPQ : ∀ a a' b b', S a a' → R a b → R a' b' → (P a a' ↔ Q b b')) :
    ∀ {as : List α} {bs : List β}, List.Forall₂ R as bs → as.Pairwise S →
      (as.Pairwise P ↔ bs.Pairwise Q)
  | [], [], .nil, _ => by simp
  | a :: as, b :: bs, .cons hab hrest, hS => by
    rw [pairwise_cons, pairwise_cons, pairwise_iff_of_forall₂ hPQ hrest hS.of_cons]
    refine and_congr_left fun _ => ⟨fun hP b' hb' => ?_, fun hQ a' ha' => ?_⟩
    · obtain ⟨n, hn, rfl⟩ := mem_iff_getElem.mp hb'
      have hn' : n < as.length := hrest.length_eq ▸ hn
      exact (hPQ _ _ _ _ (rel_of_pairwise_cons hS (getElem_mem hn')) hab
        (hrest.get hn' hn)).mp (hP _ (getElem_mem hn'))
    · obtain ⟨n, hn, rfl⟩ := mem_iff_getElem.mp ha'
      have hn' : n < bs.length := hrest.length_eq ▸ hn
      exact (hPQ _ _ _ _ (rel_of_pairwise_cons hS ha') hab (hrest.get hn hn')).mpr
        (hQ _ (getElem_mem hn'))

variable {a b : Nat × Nat × ParagraphPath}

section ScanInv

variable {s : ScanState} {o : Outline} {c : Chronicle} {bound : Nat}

/-- Two located text-box paragraphs share an id exactly when they share the box and the number
without sharing the parent. -/
theorem ScanInv.box_id_ne_iff (h : ScanInv s o c bound) {p q : TextBoxPlace} (hab : a.1 ≠ b.1)
    (ha : c.PlacedAt a p) (hb : c.PlacedAt b q) : a.2.2.id ≠ b.2.2.id ↔ p.Apart q := by
  obtain ⟨i, d, hpa, hbox, hlog⟩ := ha
  obtain ⟨j, e, hpb, hbox', hlog'⟩ := hb
  rw [hpa, hpb, ne_eq, ParagraphPath.id_eq_iff (by simp) (by simp)]
  constructor
  · intro hne heq _ hord
    exact hne ⟨congrArg Prod.fst (h.boxes.started _ hbox _ hbox' heq), hord⟩
  · rintro happart ⟨hij, hord⟩
    have heq : p.box = q.box := congrArg Prod.snd (h.boxes.indexed _ hbox _ hbox' hij)
    by_cases hparent : p.parent = q.parent
    · exact hab (congrArg Opening.start (h.log.placesUnique _ hlog _ hlog' hparent rfl hord))
    · exact happart heq hparent hord

/-- Paragraphs of cells and content controls share an id with no other paragraph. -/
theorem ScanInv.id_ne (h : ScanInv s o c bound) (ha : a ∈ s.paragraphStarts)
    (hb : b ∈ s.paragraphStarts) (hab : a.1 ≠ b.1) (hda : a.2.2 ≠ .direct) (hdb : b.2.2 ≠ .direct)
    (hbox : ¬ (a.2.2.isBox = true ∧ b.2.2.isBox = true)) : a.2.2.id ≠ b.2.2.id := by
  rw [ne_eq, ParagraphPath.id_eq_iff hda hdb]
  have hea := h.explained a ha
  have heb := h.explained b hb
  intro hsame
  cases hpa : a.2.2 with
  | direct => exact hda hpa
  | box i n =>
    cases hpb : b.2.2 with
    | direct => exact hdb hpb
    | box j m => exact hbox ⟨by rw [hpa]; rfl, by rw [hpb]; rfl⟩
    | sdt j m => rw [hpa, hpb] at hsame; exact hsame
    | cell j chain => rw [hpa, hpb] at hsame; exact hsame
  | sdt i n =>
    cases hpb : b.2.2 with
    | direct => exact hdb hpb
    | box j m => rw [hpa, hpb] at hsame; exact hsame
    | cell j chain => rw [hpa, hpb] at hsame; exact hsame
    | sdt j m =>
      rw [hpa, hpb] at hsame
      rw [hpa] at hea
      rw [hpb] at heb
      obtain ⟨rfl, rfl⟩ := hsame
      obtain ⟨d, content, hp, hc⟩ := hea
      obtain ⟨d', content', hp', hc'⟩ := heb
      have hcontent : content = content' := congrArg Prod.snd (h.sdts.indexed _ hc _ hc' rfl)
      exact hab (congrArg Opening.start
        (h.log.placesUnique _ hp _ hp' (by rw [hcontent]) rfl rfl))
  | cell i chain =>
    cases hpb : b.2.2 with
    | direct => exact hdb hpb
    | box j m => rw [hpa, hpb] at hsame; exact hsame
    | sdt j m => rw [hpa, hpb] at hsame; exact hsame
    | cell j chain' =>
      rw [hpa, hpb] at hsame
      rw [hpa] at hea
      rw [hpb] at heb
      obtain ⟨rfl, hr, hc, hp⟩ := hsame
      obtain ⟨p, hpl, tc, htcl, tr, htrl, table, hstart, ⟨hpn, hpo, hpp⟩, ⟨htcn, htco, htcp⟩,
        ⟨htrn, htro, htrp⟩, htable⟩ := hea
      obtain ⟨p', hpl', tc', htcl', tr', htrl', table', hstart', ⟨hpn', hpo', hpp'⟩,
        ⟨htcn', htco', htcp'⟩, ⟨htrn', htro', htrp'⟩, htable'⟩ := heb
      -- from the table inwards, each parent and its number determine the next element
      have htab : table = table' := congrArg Prod.snd (h.tables.indexed _ htable _ htable' rfl)
      have htr : tr = tr' := h.log.placesUnique _ htrl _ htrl' (by rw [htrp, htrp', htab])
        (by rw [htrn, htrn']) (by rw [htro, htro', hr])
      have htc : tc = tc' := h.log.placesUnique _ htcl _ htcl' (by rw [htcp, htcp', htr])
        (by rw [htcn, htcn']) (by rw [htco, htco', hc])
      have hpp : p = p' := h.log.placesUnique _ hpl _ hpl' (by rw [hpp, hpp', htc])
        (by rw [hpn, hpn']) (by rw [hpo, hpo', hp])
      exact hab (by rw [← hstart, ← hstart', hpp])

theorem ScanInv.nodup_iff (h : ScanInv s o c bound) :
    ((nameLocated 0 s.paragraphStarts).map (·.1)).Nodup ↔
      c.places.Pairwise TextBoxPlace.Apart := by
  have hstarts : s.paragraphStarts.Pairwise fun a b => a.1 ≠ b.1 :=
    pairwise_map.mp h.startsNodup
  have hplaces : (s.paragraphStarts.filter (·.2.2.isBox)).Pairwise
      (fun a b => a.2.2.id ≠ b.2.2.id) ↔ c.places.Pairwise TextBoxPlace.Apart := by
    refine pairwise_iff_of_forall₂ ?_ h.placed (hstarts.sublist filter_sublist)
    exact fun a b p q hab ha hb => h.box_id_ne_iff hab ha hb
  rw [nodup_nameLocated_iff, ← hplaces, pairwise_filter]
  -- only text-box paragraphs can clash
  constructor
  · intro hids
    refine hids.imp fun {a b} hne ha hb => hne ?_ ?_
    · intro hdirect
      rw [hdirect] at ha
      exact absurd ha (by decide)
    · intro hdirect
      rw [hdirect] at hb
      exact absurd hb (by decide)
  · intro hboxes
    refine (hboxes.and hstarts).imp_of_mem fun {a b} ha hb hab hda hdb => ?_
    by_cases hbox : a.2.2.isBox = true ∧ b.2.2.isBox = true
    · exact hab.1 hbox.1 hbox.2
    · exact h.id_ne ha hb hab.2 hda hdb hbox

end ScanInv

variable {located : List (String × Nat × Nat)}

variable {xml : Bytes}

section

variable (h : scanDocument xml = .ok located)

include h

/-- What a scan that ends well has gone through. -/
theorem scanInv_of_scanDocument : ∃ s o c bound,
      located = nameLocated 0 s.paragraphStarts ∧ ScanInv s o c bound ∧
        c.places = textBoxPlaces xml := by
  obtain ⟨s, hs, hlocated⟩ := bind_eq_ok h
  obtain ⟨s', hrun, hs⟩ := bind_eq_ok hs
  split at hs
  next => exact (refuse_ne_ok hs).elim
  next =>
    split at hs
    next => exact (refuse_ne_ok hs).elim
    next hopen =>
      split at hs
      next => exact (refuse_ne_ok hs).elim
      next =>
        obtain rfl := Except.ok.inj hs
        simp only [not_or, not_not] at hopen
        have hord := scanAt_ordered 0 xml
        obtain ⟨o', c', bound', hinv, hplaces⟩ := scanInv_empty.run hrun
          ⟨hopen.1, hopen.2.2, hopen.2.1⟩ (fun tag _ => Nat.zero_le _)
          (hord.1.imp_of_mem fun {t u} ht _ htu => (hord.2 t ht).2.1.trans_le htu)
        exact ⟨_, o', c', bound', (Except.ok.inj hlocated).symm, hinv, hplaces⟩

/-- The paragraphs of a document start in different places. -/
theorem starts_nodup : (located.map (·.2.1)).Nodup := by
  obtain ⟨s, o, c, bound, rfl, hinv, -⟩ := scanInv_of_scanDocument h
  have hsame : ∀ (direct : Nat) (paths : List (Nat × Nat × ParagraphPath)),
      (nameLocated direct paths).map (·.2.1) = paths.map (·.1) := by
    intro direct paths
    induction paths generalizing direct with
    | nil => rfl
    | cons entry rest ih =>
      obtain ⟨start, stop, path⟩ := entry
      cases path <;> simp [nameLocated, ih]
  rw [hsame]
  exact hinv.startsNodup

/-- The ids of a document are distinct exactly when its text boxes number their paragraphs
apart. -/
theorem scanDocument_nodup_iff : (located.map (·.1)).Nodup ↔ TextBoxOrdinalsApart xml := by
  obtain ⟨s, o, c, bound, rfl, hinv, hplaces⟩ := scanInv_of_scanDocument h
  rw [hinv.nodup_iff, hplaces]
  rfl

end

end Docx2Typed
