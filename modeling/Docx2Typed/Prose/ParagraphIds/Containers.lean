import Docx2Typed.XmlWalker.Compose
import Docx2Typed.Prose.Locate

/-!
# The scan's counters against its stack

`scan_document` keeps, beside the stack of open elements, a counter for every parent and one list
of open containers for each kind.  Two invariants say what they mean.

* `OpeningLog`: an opening tag is determined by its parent and its ordinal there.
* `Tracks`: every element on the stack that qualifies as a container is in the list of its kind,
  and an entry of the list that is still on the stack is such an element.

Both are about one list and the stack, and are stated as such; `openingEffect` and
`closingPath_cases` say what one tag does to all of them.
-/

namespace Docx2Typed

open List

/-! ## The log of openings -/

/-- One opening tag: where it stands, its counter, and the ordinal it was given. -/
structure Opening where
  start : Nat
  key : OrdinalKey
  ordinal : Nat

/-- What the log, the counters and the stack know about each other. -/
structure OpeningLog (ordinals : List (OrdinalKey × Nat)) (stack : List Frame)
    (log : List Opening) (bound : Nat) : Prop where
  startsUnique : ∀ e ∈ log, ∀ f ∈ log, e.start = f.start → e = f
  placesUnique : ∀ e ∈ log, ∀ f ∈ log, e.key.parentStart = f.key.parentStart →
    e.key.name = f.key.name → e.ordinal = f.ordinal → e = f
  counted : ∀ e ∈ log, e.ordinal < (ordinals.lookup e.key).getD 0
  bounded : ∀ e ∈ log, e.start < bound
  parents : ∀ e ∈ log, ∀ p, e.key.parentStart = some p → p < e.start
  depths : ∀ e ∈ log, (e.key.parentStart = none → e.key.depth = 0) ∧
    ∀ f below, f :: below <:+ stack → e.key.parentStart = some f.start →
      e.key.depth = below.length
  frames : ∀ f below, f :: below <:+ stack →
    ⟨f.start, ⟨below.length - 1, below.head?.map (·.start), f.name⟩, f.ordinal⟩ ∈ log
  ordered : stack.Pairwise fun f g => g.start < f.start

theorem openingLog_empty : OpeningLog [] [] [] 0 where
  startsUnique := by simp
  placesUnique := by simp
  counted := by simp
  bounded := by simp
  parents := by simp
  depths := by simp
  frames := by simp
  ordered := .nil

variable {start : Nat}

section OpeningLog

variable {ordinals : List (OrdinalKey × Nat)} {stack : List Frame} {log : List Opening}
  {bound : Nat}

theorem OpeningLog.start_lt (h : OpeningLog ordinals stack log bound) :
    ∀ f ∈ stack, f.start < bound := by
  intro f hf
  obtain ⟨above, below, rfl⟩ := append_of_mem hf
  exact h.bounded _ (h.frames f below ⟨above, rfl⟩)

/-- Closing the innermost element. -/
theorem OpeningLog.close {top : Frame} (h : OpeningLog ordinals (top :: stack) log bound) :
    OpeningLog ordinals stack log bound :=
  { h with
    depths := fun e he =>
      ⟨(h.depths e he).1, fun f below hf => (h.depths e he).2 f below
        (hf.trans (suffix_cons _ _))⟩
    frames := fun f below hf => h.frames f below (hf.trans (suffix_cons _ _))
    ordered := h.ordered.of_cons }

/-- A logged opening under the innermost element has the counter of the next one there. -/
theorem OpeningLog.key_eq (h : OpeningLog ordinals stack log bound) {e : Opening} {name : String}
    (he : e ∈ log) (hparent : e.key.parentStart = stack.head?.map (·.start))
    (hname : e.key.name = name) :
    e.key = ⟨stack.length - 1, stack.head?.map (·.start), name⟩ := by
  have hdepth : e.key.depth = stack.length - 1 := by
    cases hs : stack with
    | nil =>
      rw [(h.depths e he).1 (by rw [hparent, hs]; rfl)]
      rfl
    | cons f below =>
      rw [(h.depths e he).2 f below (by rw [hs]) (by rw [hparent, hs]; rfl)]
      rfl
  rw [← hdepth, ← hparent, ← hname]

/-- The next opening is as deep as the stack says of the one it stands in. -/
theorem OpeningLog.depth_next (h : OpeningLog ordinals stack log bound) :
    (stack.head?.map (·.start) = none → stack.length - 1 = 0) ∧
      ∀ f below, f :: below <:+ stack → stack.head?.map (·.start) = some f.start →
        stack.length - 1 = below.length := by
  cases stack with
  | nil => simp
  | cons g rest =>
    refine ⟨by simp, fun f below hf hparent => ?_⟩
    rcases suffix_cons_iff.mp hf with heq | hsuf
    · obtain ⟨-, rfl⟩ := List.cons.inj heq
      simp
    · -- the parent is the innermost element, and starts do not repeat
      have hlt := rel_of_pairwise_cons h.ordered (hsuf.subset (mem_cons_self ..))
      have hgf : g.start = f.start := by simpa using hparent
      omega

/-- Counting one more opening tag. -/
theorem OpeningLog.count (h : OpeningLog ordinals stack log bound) (name : String)
    (hstart : bound ≤ start) :
    let key : OrdinalKey := ⟨stack.length - 1, stack.head?.map (·.start), name⟩
    let ordinal := (ordinals.lookup key).getD 0
    OpeningLog ((key, ordinal + 1) :: ordinals) stack (⟨start, key, ordinal⟩ :: log)
      (start + 1) := by
  intro key ordinal
  have hkey : ∀ e ∈ log, e.key.parentStart = key.parentStart → e.key.name = key.name →
      e.key = key := fun e he => h.key_eq he
  have hfresh : ∀ e ∈ log, e.start ≠ start := by
    intro e he
    have := h.bounded e he
    omega
  have hlookup : ∀ k, (((key, ordinal + 1) :: ordinals).lookup k).getD 0 =
      if k = key then ordinal + 1 else (ordinals.lookup k).getD 0 := by
    intro k
    rw [lookup_cons]
    by_cases hk : k = key
    · simp [hk]
    · simp [beq_false_of_ne hk, hk]
  have hnew : ∀ e ∈ log, e.key.parentStart = key.parentStart → e.key.name = key.name →
      e.ordinal ≠ ordinal := by
    intro e he hparent hname heq
    have := h.counted e he
    rw [hkey e he hparent hname] at this
    omega
  refine ⟨?_, ?_, ?_, ?_, ?_, ?_, ?_, h.ordered⟩
  · intro e he f hf hst
    rcases mem_cons.mp he with rfl | he <;> rcases mem_cons.mp hf with rfl | hf
    · rfl
    · exact absurd hst.symm (hfresh f hf)
    · exact absurd hst (hfresh e he)
    · exact h.startsUnique e he f hf hst
  · intro e he f hf hparent hname hord
    rcases mem_cons.mp he with rfl | he <;> rcases mem_cons.mp hf with rfl | hf
    · rfl
    · exact absurd hord.symm (hnew f hf hparent.symm hname.symm)
    · exact absurd hord (hnew e he hparent hname)
    · exact h.placesUnique e he f hf hparent hname hord
  · intro e he
    rw [hlookup]
    rcases mem_cons.mp he with rfl | he
    · simp
    · have := h.counted e he
      split
      next hk =>
        rw [hk] at this
        omega
      next => exact this
  · intro e he
    rcases mem_cons.mp he with rfl | he
    · simp
    · have := h.bounded e he
      omega
  · intro e he p hp
    rcases mem_cons.mp he with rfl | he
    · cases hs : stack with
      | nil => simp [key, hs] at hp
      | cons f below =>
        have hfp : f.start = p := by simpa [key, hs] using hp
        have := h.start_lt f (by simp [hs])
        simp only
        omega
    · exact h.parents e he p hp
  · intro e he
    rcases mem_cons.mp he with rfl | he
    · exact h.depth_next
    · exact h.depths e he
  · intro f below hf
    exact mem_cons_of_mem _ (h.frames f below hf)

/-- Putting the opening just counted on the stack. -/
theorem OpeningLog.push {name : String} {start ordinal : Nat}
    (h : OpeningLog ordinals stack log bound)
    (hlog : ⟨start, ⟨stack.length - 1, stack.head?.map (·.start), name⟩, ordinal⟩ ∈ log)
    (hstack : ∀ f ∈ stack, f.start < start) (hlast : bound ≤ start + 1) :
    OpeningLog ordinals (⟨name, start, ordinal⟩ :: stack) log bound :=
  { h with
    depths := fun e he => by
      refine ⟨(h.depths e he).1, fun f below hf hp => ?_⟩
      rcases suffix_cons_iff.mp hf with heq | hsuf
      · obtain ⟨rfl, -⟩ := List.cons.inj heq
        have hlow : start < e.start := h.parents e he _ hp
        have := h.bounded e he
        omega
      · exact (h.depths e he).2 f below hsuf hp
    frames := fun f below hf => by
      rcases suffix_cons_iff.mp hf with heq | hsuf
      · obtain ⟨rfl, rfl⟩ := List.cons.inj heq
        exact hlog
      · exact h.frames f below hsuf
    ordered := pairwise_cons.mpr ⟨hstack, h.ordered⟩ }

end OpeningLog

/-! ## Open containers against the stack -/

/-- A list of open containers of one kind, innermost first, read against the stack: every
element of that name that qualifies by what stands below it is in the list, and an element the
list points to qualifies.  `all` holds every container of the kind met so far. -/
structure Tracks (name : String) (qualifies : List Frame → Prop) (stack : List Frame)
    (opens all : List (Int × Nat)) (ordinal : Int) (bound : Nat) : Prop where
  indexed : ∀ x ∈ all, ∀ y ∈ all, x.1 = y.1 → x = y
  started : ∀ x ∈ all, ∀ y ∈ all, x.2 = y.2 → x = y
  numbered : ∀ x ∈ all, x.1 ≤ ordinal
  bounded : ∀ x ∈ all, x.2 < bound
  subset : ∀ x ∈ opens, x ∈ all
  ordered : opens.Pairwise fun x y => y.2 < x.2
  qualified : ∀ x ∈ opens, ∀ f below, f :: below <:+ stack → f.start = x.2 →
    f.name = name ∧ qualifies below
  complete : ∀ f below, f :: below <:+ stack → f.name = name → qualifies below →
    ∃ x ∈ opens, x.2 = f.start

variable {frame : Frame} {tag : Tag} {x : Int × Nat}

section Tracks

variable {name : String} {qualifies : List Frame → Prop} {stack : List Frame}
  {opens all : List (Int × Nat)} {ordinal : Int} {bound : Nat}

theorem tracks_empty : Tracks name qualifies [] [] [] ordinal bound where
  indexed := by simp
  started := by simp
  numbered := by simp
  bounded := by simp
  subset := by simp
  ordered := .nil
  qualified := by simp
  complete := by simp

theorem Tracks.mono (h : Tracks name qualifies stack opens all ordinal bound) {bound' : Nat}
    (hb : bound ≤ bound') : Tracks name qualifies stack opens all ordinal bound' :=
  { h with bounded := fun x hx => (h.bounded x hx).trans_le hb }

theorem mem_of_mem_popOpen {closes : Bool} (h : x ∈ popOpen closes start opens) : x ∈ opens := by
  cases opens with
  | nil => simp [popOpen] at h
  | cons top rest =>
    rw [popOpen] at h
    split at h
    · exact mem_cons_of_mem _ h
    · exact h

/-- A container leaves the list only when the element that starts there closes. -/
theorem mem_popOpen_of_ne {closes : Bool} (h : x ∈ opens) (hne : x.2 ≠ start) :
    x ∈ popOpen closes start opens := by
  cases opens with
  | nil => simp at h
  | cons top rest =>
    rw [popOpen]
    split
    next hc =>
      rcases mem_cons.mp h with rfl | h
      · exact absurd hc.2 hne
      · exact h
    next => exact h

theorem Tracks.close {top : Frame} {closes : Bool}
    (h : Tracks name qualifies (top :: stack) opens all ordinal bound)
    (hstack : ∀ f ∈ stack, f.start < top.start) :
    Tracks name qualifies stack (popOpen closes top.start opens) all ordinal bound :=
  { h with
    subset := fun x hx => h.subset x (mem_of_mem_popOpen hx)
    ordered := by
      cases opens with
      | nil => exact .nil
      | cons x rest =>
        rw [popOpen]
        split
        · exact h.ordered.of_cons
        · exact h.ordered
    qualified := fun x hx f below hf =>
      h.qualified x (mem_of_mem_popOpen hx) f below (hf.trans (suffix_cons _ _))
    complete := fun f below hf hname hq => by
      obtain ⟨x, hx, hxf⟩ := h.complete f below (hf.trans (suffix_cons _ _)) hname hq
      have := hstack f (hf.subset (mem_cons_self ..))
      exact ⟨x, mem_popOpen_of_ne hx (by omega), hxf⟩ }

/-- An opening tag that is no container of the kind. -/
theorem Tracks.skip (h : Tracks name qualifies stack opens all ordinal bound)
    (hframe : bound ≤ frame.start) (hno : ¬ (frame.name = name ∧ qualifies stack)) :
    Tracks name qualifies (frame :: stack) opens all ordinal bound :=
  { h with
    qualified := fun x hx f below hf hfx => by
      rcases suffix_cons_iff.mp hf with heq | hsuf
      · obtain ⟨rfl, rfl⟩ := List.cons.inj heq
        have := h.bounded x (h.subset x hx)
        omega
      · exact h.qualified x hx f below hsuf hfx
    complete := fun f below hf hname hq => by
      rcases suffix_cons_iff.mp hf with heq | hsuf
      · obtain ⟨rfl, rfl⟩ := List.cons.inj heq
        exact absurd ⟨hname, hq⟩ hno
      · exact h.complete f below hsuf hname hq }

/-- Opening a container of the kind. -/
theorem Tracks.open (h : Tracks name qualifies stack opens all ordinal bound)
    (hstart : bound ≤ start) (hstack : ∀ f ∈ stack, f.start < bound) :
    Tracks name qualifies stack ((ordinal + 1, start) :: opens) ((ordinal + 1, start) :: all)
      (ordinal + 1) (start + 1) where
  indexed := fun x hx y hy hxy => by
    rcases mem_cons.mp hx with rfl | hx <;> rcases mem_cons.mp hy with rfl | hy
    · rfl
    · have := h.numbered y hy
      simp only at hxy
      omega
    · have := h.numbered x hx
      simp only at hxy
      omega
    · exact h.indexed x hx y hy hxy
  started := fun x hx y hy hxy => by
    rcases mem_cons.mp hx with rfl | hx <;> rcases mem_cons.mp hy with rfl | hy
    · rfl
    · have := h.bounded y hy
      simp only at hxy
      omega
    · have := h.bounded x hx
      simp only at hxy
      omega
    · exact h.started x hx y hy hxy
  numbered := fun x hx => by
    rcases mem_cons.mp hx with rfl | hx
    · exact Int.le_refl _
    · have := h.numbered x hx
      omega
  bounded := fun x hx => by
    rcases mem_cons.mp hx with rfl | hx
    · simp
    · have := h.bounded x hx
      omega
  subset := fun x hx => by
    rcases mem_cons.mp hx with rfl | hx
    · exact mem_cons_self ..
    · exact mem_cons_of_mem _ (h.subset x hx)
  ordered := pairwise_cons.mpr ⟨fun x hx => by
    have := h.bounded x (h.subset x hx)
    simp only
    omega, h.ordered⟩
  qualified := fun x hx f below hf hfx => by
    rcases mem_cons.mp hx with rfl | hx
    · have := hstack f (hf.subset (mem_cons_self ..))
      simp only at hfx
      omega
    · exact h.qualified x hx f below hf hfx
  complete := fun f below hf hname hq => by
    obtain ⟨x, hx, hxf⟩ := h.complete f below hf hname hq
    exact ⟨x, mem_cons_of_mem _ hx, hxf⟩

/-- Putting the element of the container just opened on the stack. -/
theorem Tracks.push (h : Tracks name qualifies stack (x :: opens) all ordinal bound)
    (hx : x.2 = frame.start) (hname : frame.name = name) (hq : qualifies stack) :
    Tracks name qualifies (frame :: stack) (x :: opens) all ordinal bound :=
  { h with
    qualified := fun y hy f below hf hfy => by
      rcases suffix_cons_iff.mp hf with heq | hsuf
      · obtain ⟨rfl, rfl⟩ := List.cons.inj heq
        exact ⟨hname, hq⟩
      · exact h.qualified y hy f below hsuf hfy
    complete := fun f below hf hfname hq => by
      rcases suffix_cons_iff.mp hf with heq | hsuf
      · obtain ⟨rfl, rfl⟩ := List.cons.inj heq
        exact ⟨x, mem_cons_self .., hx⟩
      · exact h.complete f below hsuf hfname hq }

/-- The condition may change where it makes no difference to the stack. -/
theorem Tracks.congr {qualifies' : List Frame → Prop}
    (h : Tracks name qualifies stack opens all ordinal bound)
    (hq : ∀ f below, f :: below <:+ stack → (qualifies' below ↔ qualifies below)) :
    Tracks name qualifies' stack opens all ordinal bound :=
  { h with
    qualified := fun x hx f below hf hfx =>
      ⟨(h.qualified x hx f below hf hfx).1, (hq f below hf).mpr (h.qualified x hx f below hf hfx).2⟩
    complete := fun f below hf hname hq' =>
      h.complete f below hf hname ((hq f below hf).mp hq') }

/-- What an opening tag may do to one list of open containers: leave it alone, when the tag
opens none, or put the new container on top. -/
def OpensContainer (name : String) (qualifies : List Frame → Prop) (stack : List Frame)
    (tag : Tag) (opens opens' : List (Int × Nat)) (ordinal ordinal' : Int) : Prop :=
  (opens' = opens ∧ ordinal' = ordinal ∧ ¬ (tag.name = name ∧ qualifies stack)) ∨
    (opens' = (ordinal + 1, tag.start) :: opens ∧ ordinal' = ordinal + 1 ∧
      tag.name = name ∧ qualifies stack)

theorem Tracks.opening {opens' : List (Int × Nat)} {ordinal' : Int} {stack' : List Frame}
    (h : Tracks name qualifies stack opens all ordinal bound) (htag : bound ≤ tag.start)
    (hstack : ∀ f ∈ stack, f.start < bound)
    (heffect : OpensContainer name qualifies stack tag opens opens' ordinal ordinal')
    (hstack' : stack' = stack ∨ stack' = frame :: stack) (hframe : frame.start = tag.start)
    (hname : frame.name = tag.name) :
    ∃ all', all ⊆ all' ∧
      Tracks name qualifies stack' opens' all' ordinal' (tag.start + 1) := by
  rcases heffect with ⟨rfl, rfl, hno⟩ | ⟨rfl, rfl, hkind, hq⟩
  · refine ⟨all, List.Subset.refl _, ?_⟩
    rcases hstack' with rfl | rfl
    · exact h.mono (by omega)
    · exact (h.skip (by omega) (by rwa [hname])).mono (by omega)
  · refine ⟨(ordinal + 1, tag.start) :: all, subset_cons_self _ _, ?_⟩
    have hopen := h.open htag hstack
    rcases hstack' with rfl | rfl
    · exact hopen
    · exact hopen.push hframe.symm (hname.trans hkind) hq

/-- The innermost open container is the nearest qualifying element of its name, provided every
open container is still on the stack. -/
theorem Tracks.head_eq {above below : List Frame} {f : Frame}
    (h : Tracks name qualifies (above ++ f :: below) opens all ordinal bound)
    (hstack : (above ++ f :: below).Pairwise fun f g => g.start < f.start)
    (hfresh : ∀ x ∈ opens, ∃ g ∈ above ++ f :: below, g.start = x.2)
    (hname : f.name = name) (hq : qualifies below) (habove : ∀ g ∈ above, g.name ≠ name) :
    ∃ i, opens.head? = some (i, f.start) ∧ (i, f.start) ∈ all := by
  obtain ⟨y, hy, hyf⟩ := h.complete f below ⟨above, rfl⟩ hname hq
  cases hopens : opens with
  | nil => rw [hopens] at hy; simp at hy
  | cons x rest =>
    have hx : x ∈ opens := by rw [hopens]; exact mem_cons_self ..
    have hle : y.2 ≤ x.2 := by
      rw [hopens] at hy
      rcases mem_cons.mp hy with rfl | hy
      · exact Nat.le_refl _
      · have hord := h.ordered
        rw [hopens] at hord
        exact Nat.le_of_lt (rel_of_pairwise_cons hord hy)
    obtain ⟨g, hg, hgx⟩ := hfresh x hx
    obtain ⟨above', below', hsplit⟩ := append_of_mem hg
    have hgname := (h.qualified x hx g below' ⟨above', hsplit.symm⟩ hgx).1
    have hgf : g.start = f.start := by
      rcases mem_append.mp hg with hg | hg
      · exact absurd hgname (habove g hg)
      · rcases mem_cons.mp hg with rfl | hg
        · rfl
        · have := rel_of_pairwise_cons (pairwise_append.mp hstack).2.1 hg
          omega
    refine ⟨x.1, ?_, ?_⟩
    · rw [head?_cons, ← hgf, hgx]
    · rw [← hgf, hgx]
      exact h.subset x hx

end Tracks

/-! ## What one tag does to the scan -/

/-- The elements below the body, as a function of the stack alone. -/
def namesBelow (bodyDepth : Nat) (stack : List Frame) : List String :=
  (stack.reverse.drop (bodyDepth + 1)).map (·.name)

theorem ScanState.chain_eq (s : ScanState) (bodyDepth : Nat) :
    s.chain bodyDepth = namesBelow bodyDepth s.stack := rfl

/-- What must stand below a `w:tbl` for it to be counted. -/
def TableQualifies (bodyDepth : Option Nat) (below : List Frame) : Prop :=
  ∃ b, bodyDepth = some b ∧ (below.length = b + 1 ∨
    (b + 1 < below.length ∧ below.head?.any (·.name == "tc")))

/-- What must stand below a `w:sdtContent` for it to be counted. -/
def SdtQualifies (bodyDepth : Option Nat) (below : List Frame) : Prop :=
  ∃ b, bodyDepth = some b ∧ b + 1 < below.length ∧ isSdtContentStack (namesBelow b below)

/-- What must stand below a `w:txbxContent` for it to be counted: the open body child is a
paragraph. -/
def BoxQualifies (bodyDepth : Option Nat) (below : List Frame) : Prop :=
  ∃ b, bodyDepth = some b ∧ b + 1 < below.length ∧ (namesBelow b below).head? = some "p"

theorem ScanState.inBodyParagraph_iff (s : ScanState) (b : Nat) :
    s.inBodyParagraph b = true ↔ (namesBelow b s.stack).head? = some "p" := by
  rw [inBodyParagraph, below, namesBelow, head?_map]
  cases (s.stack.reverse.drop (b + 1)).head? <;> simp

/-- The fields an opening tag leaves, container kind by container kind. -/
structure OpeningEffect (s s' : ScanState) (tag : Tag) : Prop where
  ordinals : s'.ordinals = (s.keyOf tag, s.ordinalOf tag + 1) :: s.ordinals
  bodyDepth : s'.bodyDepth = (s.count tag).bodyDepth
  stack : s'.stack = s.stack ∨ s'.stack = ⟨tag.name, tag.start, s.ordinalOf tag⟩ :: s.stack
  starts : s'.paragraphStarts = s.paragraphStarts ∨
    s'.paragraphStarts = s.paragraphStarts ++ [(tag.start, tag.stop, .direct)] ∧
      s'.stack = s.stack
  tables : OpensContainer "tbl" (TableQualifies s'.bodyDepth) s.stack tag s.openTables
    s'.openTables s.tableOrdinal s'.tableOrdinal
  sdts : OpensContainer "sdtContent" (SdtQualifies s'.bodyDepth) s.stack tag s.openSdts
    s'.openSdts s.sdtOrdinal s'.sdtOrdinal
  boxes : OpensContainer "txbxContent" (BoxQualifies s'.bodyDepth) s.stack tag s.openBoxes
    s'.openBoxes s.boxOrdinal s'.boxOrdinal

/-! Each push touches the fields of its own container kind only. -/

section Push

variable (s : ScanState) (b : Nat) (tag : Tag)

theorem pushSdt_keeps :
    ∃ ordinal opens, s.pushSdt b tag = { s with sdtOrdinal := ordinal, openSdts := opens } ∧
      OpensContainer "sdtContent" (SdtQualifies (some b)) s.stack tag s.openSdts opens
        s.sdtOrdinal ordinal := by
  by_cases h : tag.name = "sdtContent" ∧ b + 1 < s.stack.length ∧ isSdtContentStack (s.chain b)
  · exact ⟨_, _, by rw [ScanState.pushSdt, if_pos h], .inr ⟨rfl, rfl, h.1, b, rfl, h.2⟩⟩
  · refine ⟨s.sdtOrdinal, s.openSdts, by rw [ScanState.pushSdt, if_neg h], .inl ⟨rfl, rfl, ?_⟩⟩
    rintro ⟨hname, b', hb, hlen, hchain⟩
    obtain rfl := Option.some.inj hb
    exact h ⟨hname, hlen, hchain⟩

theorem pushBox_keeps :
    ∃ ordinal opens, s.pushBox b tag = { s with boxOrdinal := ordinal, openBoxes := opens } ∧
      OpensContainer "txbxContent" (BoxQualifies (some b)) s.stack tag s.openBoxes opens
        s.boxOrdinal ordinal := by
  by_cases h : tag.name = "txbxContent" ∧ b + 1 < s.stack.length ∧ s.inBodyParagraph b
  · exact ⟨_, _, by rw [ScanState.pushBox, if_pos h],
      .inr ⟨rfl, rfl, h.1, b, rfl, h.2.1, (s.inBodyParagraph_iff b).mp h.2.2⟩⟩
  · refine ⟨s.boxOrdinal, s.openBoxes, by rw [ScanState.pushBox, if_neg h], .inl ⟨rfl, rfl, ?_⟩⟩
    rintro ⟨hname, b', hb, hlen, hhead⟩
    obtain rfl := Option.some.inj hb
    exact h ⟨hname, hlen, (s.inBodyParagraph_iff b).mpr hhead⟩

theorem pushTable_keeps :
    ∃ ordinal opens, s.pushTable b tag = { s with tableOrdinal := ordinal, openTables := opens } ∧
      OpensContainer "tbl" (TableQualifies (some b)) s.stack tag s.openTables opens
        s.tableOrdinal ordinal := by
  by_cases h : tag.name = "tbl" ∧ (s.stack.length = b + 1 ∨
      (b + 1 < s.stack.length ∧ s.stack.head?.any (·.name == "tc")))
  · exact ⟨_, _, by rw [ScanState.pushTable, if_pos h], .inr ⟨rfl, rfl, h.1, b, rfl, h.2⟩⟩
  · refine ⟨s.tableOrdinal, s.openTables, by rw [ScanState.pushTable, if_neg h],
      .inl ⟨rfl, rfl, ?_⟩⟩
    rintro ⟨hname, b', hb, hq⟩
    obtain rfl := Option.some.inj hb
    exact h ⟨hname, hq⟩

end Push

theorem openingEffect (s : ScanState) (tag : Tag) : OpeningEffect s (scanOpening s tag) tag := by
  rw [scanOpening]
  cases hbody : (s.count tag).bodyDepth with
  | none =>
    -- nothing is counted before the body
    have htable : ¬ (tag.name = "tbl" ∧ TableQualifies none s.stack) := by simp [TableQualifies]
    have hsdt : ¬ (tag.name = "sdtContent" ∧ SdtQualifies none s.stack) := by simp [SdtQualifies]
    have hbox : ¬ (tag.name = "txbxContent" ∧ BoxQualifies none s.stack) := by
      simp [BoxQualifies]
    by_cases hself : tag.selfClosing
    · simp only [hself, if_true]
      exact ⟨rfl, rfl, .inl rfl, .inl rfl, .inl ⟨rfl, rfl, by rwa [hbody]⟩,
        .inl ⟨rfl, rfl, by rwa [hbody]⟩, .inl ⟨rfl, rfl, by rwa [hbody]⟩⟩
    · simp only [hself]
      exact ⟨rfl, hbody.symm, .inr rfl, .inl rfl, .inl ⟨rfl, rfl, htable⟩,
        .inl ⟨rfl, rfl, hsdt⟩, .inl ⟨rfl, rfl, hbox⟩⟩
  | some b =>
    simp only
    by_cases hp : tag.name = "p" ∧ s.stack.length = b + 1
    · rw [if_pos hp]
      have hname : ∀ {name : String} {q : Prop}, "p" ≠ name → ¬ (tag.name = name ∧ q) :=
        fun hne h => hne (hp.1.symm.trans h.1)
      split
      · exact ⟨rfl, hbody.symm, .inl rfl, .inr ⟨rfl, rfl⟩,
          .inl ⟨rfl, rfl, hname (by decide)⟩, .inl ⟨rfl, rfl, hname (by decide)⟩,
          .inl ⟨rfl, rfl, hname (by decide)⟩⟩
      · exact ⟨rfl, hbody.symm, .inr rfl, .inl rfl,
          .inl ⟨rfl, rfl, hname (by decide)⟩, .inl ⟨rfl, rfl, hname (by decide)⟩,
          .inl ⟨rfl, rfl, hname (by decide)⟩⟩
    · rw [if_neg hp]
      obtain ⟨sdtNo, sopens, hs, hsdt⟩ := pushSdt_keeps (s.count tag) b tag
      obtain ⟨boxNo, bopens, hb, hbox⟩ := pushBox_keeps ((s.count tag).pushSdt b tag) b tag
      obtain ⟨tableNo, topens, ht, htable⟩ :=
        pushTable_keeps (((s.count tag).pushSdt b tag).pushBox b tag) b tag
      rw [hb, hs] at ht htable
      rw [hs] at hbox
      rw [hb, hs, ht]
      rw [← hbody] at hsdt hbox htable
      split
      · exact ⟨rfl, rfl, .inl rfl, .inl rfl, htable, hsdt, hbox⟩
      · exact ⟨rfl, rfl, .inr rfl, .inl rfl, htable, hsdt, hbox⟩

/-- Which opening tags leave their element open. -/
theorem scanOpening_stack (s : ScanState) (tag : Tag) :
    (scanOpening s tag).stack =
      if tag.selfClosing ∧ ¬ (tag.name = "tbl" ∧
          some s.stack.length = (s.count tag).bodyDepth.map (· + 1)) then s.stack
      else ⟨tag.name, tag.start, s.ordinalOf tag⟩ :: s.stack := by
  rw [scanOpening]
  cases hbody : (s.count tag).bodyDepth with
  | none =>
    by_cases hself : tag.selfClosing
    · simp [hself, ScanState.count]
    · simp [hself]
  | some b =>
    simp only [Option.map_some, Option.some.injEq]
    by_cases hp : tag.name = "p" ∧ s.stack.length = b + 1
    · rw [if_pos hp]
      have htbl : tag.name ≠ "tbl" := by rw [hp.1]; decide
      by_cases hself : tag.selfClosing
      · simp [hself, htbl, ScanState.count]
      · simp [hself]
    · rw [if_neg hp]
      obtain ⟨_, _, hs, -⟩ := pushSdt_keeps (s.count tag) b tag
      obtain ⟨_, _, hb, -⟩ := pushBox_keeps ((s.count tag).pushSdt b tag) b tag
      obtain ⟨_, _, ht, -⟩ := pushTable_keeps (((s.count tag).pushSdt b tag).pushBox b tag) b tag
      rw [hb, hs] at ht
      rw [hb, hs, ht]
      split
      · rfl
      · rfl

/-! ## What closing a paragraph locates -/

theorem scanClosing_eq_ok {s s' : ScanState} (h : scanClosing s tag = .ok s') :
    ∃ top rest b path, s.stack = top :: rest ∧ top.name = tag.name ∧ s.bodyDepth = some b ∧
      closingPath s b top tag = .ok path ∧
      s' = { s with
        stack := rest
        paragraphStarts :=
          s.paragraphStarts ++ (path.map fun path => (top.start, tag.stop, path)).toList
        openTables := popOpen (tag.name == "tbl") top.start s.openTables
        openBoxes := popOpen (tag.name == "txbxContent") top.start s.openBoxes
        openSdts := popOpen (tag.name == "sdtContent") top.start s.openSdts } := by
  rw [scanClosing] at h
  cases hstack : s.stack with
  | nil =>
    rw [hstack] at h
    exact (refuse_ne_ok h).elim
  | cons top rest =>
    rw [hstack] at h
    simp only at h
    split at h
    next => exact (refuse_ne_ok h).elim
    next hname =>
      cases hbody : s.bodyDepth with
      | none =>
        rw [hbody] at h
        exact (refuse_ne_ok h).elim
      | some b =>
        rw [hbody] at h
        obtain ⟨path, hpath, hs'⟩ := bind_eq_ok h
        exact ⟨top, rest, b, path, rfl, not_not.mp hname, rfl, hpath, (Except.ok.inj hs').symm⟩

/-- A text-box paragraph: the classifier's first branch. -/
def ClosesBoxParagraph (s : ScanState) (bodyDepth : Nat) (tag : Tag) : Prop :=
  tag.name = "p" ∧ bodyDepth + 2 < s.stack.length ∧ isBoxParagraphStack (s.chain bodyDepth)

variable {b : Nat} {s : ScanState}

theorem closingPath_cases {top : Frame} {path : Option ParagraphPath}
    (h : closingPath s b top tag = .ok path) :
    ((path = none ∨ path = some .direct) ∧ (ClosesBoxParagraph s b tag → s.openBoxes = [])) ∨
    (∃ box, s.openBoxes.head? = some box ∧ path = some (.box box.1 top.ordinal) ∧
      ClosesBoxParagraph s b tag) ∨
    (∃ sdt, s.openSdts.head? = some sdt ∧ path = some (.sdt sdt.1 top.ordinal) ∧
      tag.name = "p" ∧ b + 2 < s.stack.length ∧ isSdtParagraphStack (s.chain b) ∧
      ¬ ClosesBoxParagraph s b tag) ∨
    (∃ table, s.openTables.head? = some table ∧
      path = some (.cell table.1 ((s.below b).map fun frame => (frame.name, frame.ordinal))) ∧
      tag.name = "p" ∧ b + 2 < s.stack.length ∧ isCellParagraphStack (s.chain b) ∧
      ¬ ClosesBoxParagraph s b tag) := by
  simp only [closingPath] at h
  split at h
  next hdirect =>
    refine .inl ⟨.inr (Except.ok.inj h).symm, ?_⟩
    rintro ⟨-, hlen, -⟩
    omega
  next hdirect =>
    split at h
    next hdeep =>
      have hlen : b + 2 < s.stack.length := by
        have : s.stack.length ≠ b + 2 := fun hl => hdirect ⟨hdeep.1, hl⟩
        omega
      split at h
      next hbox =>
        obtain ⟨box, hhead, hpath⟩ := bind_eq_ok h
        exact .inr (.inl ⟨box, expect_eq_ok_iff.mp hhead, (Except.ok.inj hpath).symm,
          hdeep.1, hlen, hbox⟩)
      next hbox =>
        have hno : ¬ ClosesBoxParagraph s b tag := fun hc => hbox hc.2.2
        split at h
        next hsdt =>
          obtain ⟨sdt, hhead, hpath⟩ := bind_eq_ok h
          exact .inr (.inr (.inl ⟨sdt, expect_eq_ok_iff.mp hhead, (Except.ok.inj hpath).symm,
            hdeep.1, hlen, hsdt, hno⟩))
        next hsdt =>
          split at h
          next hcell =>
            obtain ⟨table, hhead, hpath⟩ := bind_eq_ok h
            exact .inr (.inr (.inr ⟨table, expect_eq_ok_iff.mp hhead, (Except.ok.inj hpath).symm,
              hdeep.1, hlen, hcell, hno⟩))
          next hcell =>
            exact .inl ⟨.inl (Except.ok.inj h).symm, fun hc => absurd hc hno⟩
    next hdeep =>
      refine .inl ⟨.inl (Except.ok.inj h).symm, ?_⟩
      rintro ⟨hname, hlen, -⟩
      by_contra hopen
      exact hdeep ⟨hname, by omega, .inr (.inl hopen)⟩

/-- The names below the body, innermost first. -/
theorem reverse_namesBelow (b : Nat) (stack : List Frame) :
    (namesBelow b stack).reverse = (stack.take (stack.length - (b + 1))).map (·.name) := by
  rw [namesBelow, ← map_reverse, drop_reverse, reverse_reverse]

variable {p : Frame}

/-- The stack around a cell paragraph. -/
theorem cell_stack {rest : List Frame} (hstack : s.stack = p :: rest)
    (hcell : isCellParagraphStack (s.chain b)) :
    ∃ tc tr tbl below, rest = tc :: tr :: tbl :: below ∧ tc.name = "tc" ∧ tr.name = "tr" ∧
      tbl.name = "tbl" ∧ TableQualifies (some b) below ∧
      chainValue "p" ((s.below b).map fun f => (f.name, f.ordinal)) = p.ordinal ∧
      chainValue "tc" ((s.below b).map fun f => (f.name, f.ordinal)) = tc.ordinal ∧
      chainValue "tr" ((s.below b).map fun f => (f.name, f.ordinal)) = tr.ordinal := by
  simp only [isCellParagraphStack, Bool.and_eq_true, beq_iff_eq, decide_eq_true_eq] at hcell
  obtain ⟨⟨hlast, hlen⟩, hlevels⟩ := hcell
  have hrev := reverse_namesBelow b s.stack
  rw [← ScanState.chain_eq] at hrev
  -- the chain, innermost first, is a prefix of the stack
  obtain ⟨inner, hinner⟩ : ∃ inner, inner = s.stack.take (s.stack.length - (b + 1)) := ⟨_, rfl⟩
  rw [← hinner] at hrev
  have hlenInner : inner.length = (s.chain b).length := by
    have := congrArg List.length hrev
    simpa using this.symm
  have hlenStack : inner.length + (b + 1) = s.stack.length := by
    rw [hinner, length_take]
    have : (s.chain b).length = s.stack.length - (b + 1) := by
      simp [ScanState.chain, ScanState.below]
    omega
  have hpre : inner <+: s.stack := hinner ▸ List.take_prefix _ _
  obtain ⟨suffix, hsuffix⟩ := hpre
  have hsuffixLen : suffix.length = b + 1 := by
    have := congrArg List.length hsuffix
    rw [length_append] at this
    omega
  have hbelowRev : ((s.below b).map fun f => (f.name, f.ordinal)).reverse =
      inner.map fun f => (f.name, f.ordinal) := by
    rw [← map_reverse, ScanState.below, drop_reverse, reverse_reverse, hinner]
  match inner, hlenInner, hrev, hsuffix, hbelowRev with
  | [], h, _, _, _ => simp at h; omega
  | [_], h, _, _, _ => simp at h; omega
  | [_, _], h, _, _, _ => simp at h; omega
  | [_, _, _], h, _, _, _ => simp at h; omega
  | p' :: tc :: tr :: tbl :: above, h, hrev, hsuffix, hbelowRev =>
    rw [hstack] at hsuffix
    simp only [cons_append] at hsuffix
    obtain ⟨rfl, hrest⟩ := List.cons.inj hsuffix
    have hdrop : (s.chain b).dropLast.reverse =
        tc.name :: tr.name :: tbl.name :: above.map (·.name) := by
      rw [← tail_reverse, hrev]
      rfl
    rw [hdrop] at hlevels
    simp only [zipIdx_cons, all_cons, Bool.and_eq_true, beq_iff_eq] at hlevels
    obtain ⟨htc, htr, htbl, habove⟩ := hlevels
    have hp : p'.name = "p" := by
      have : (s.chain b).reverse.head? = some "p" := by rw [head?_reverse, hlast]
      rw [hrev] at this
      simpa using this
    refine ⟨tc, tr, tbl, above ++ suffix, hrest.symm, htc, htr, htbl, ?_, ?_, ?_, ?_⟩
    · refine ⟨b, rfl, ?_⟩
      cases above with
      | nil => exact .inl (by simpa using hsuffixLen)
      | cons f above =>
        refine .inr ⟨by simp; omega, ?_⟩
        simp only [map_cons, zipIdx_cons, all_cons, Bool.and_eq_true,
          beq_iff_eq] at habove
        simpa [cellLevelName] using habove.1
    · rw [chainValue, hbelowRev]
      simp [hp]
    · rw [chainValue, hbelowRev]
      simp [lookup_cons, hp, htc, cellLevelName]
    · rw [chainValue, hbelowRev]
      simp [lookup_cons, hp, htc, htr, cellLevelName]

/-- The stack around a content-control paragraph. -/
theorem sdt_stack {rest : List Frame} (hstack : s.stack = p :: rest)
    (hsdt : isSdtParagraphStack (s.chain b)) :
    ∃ content below, rest = content :: below ∧ content.name = "sdtContent" ∧ p.name = "p" ∧
      SdtQualifies (some b) below := by
  simp only [isSdtParagraphStack, Bool.and_eq_true, beq_iff_eq] at hsdt
  obtain ⟨⟨⟨hlast, hlen⟩, hfirst⟩, hsecond⟩ := hsdt
  have hchain : s.chain b = ["sdt", "sdtContent", "p"] := by
    match hm : s.chain b, hlen with
    | [x, y, z], _ =>
      rw [hm] at hlast hfirst hsecond
      simp_all
  have hrev := reverse_namesBelow b s.stack
  rw [← ScanState.chain_eq, hchain, hstack] at hrev
  have hlen' : (p :: rest).length - (b + 1) = 3 := by
    have hl : (s.chain b).length = s.stack.length - (b + 1) := by
      simp [ScanState.chain, ScanState.below]
    rw [hchain, hstack] at hl
    exact hl.symm
  rw [hlen'] at hrev
  match rest, hrev, hlen' with
  | [], hrev, _ => simp at hrev
  | [_], hrev, _ => simp at hrev
  | content :: sdt :: below, hrev, hlen' =>
    simp only [reverse_cons, reverse_nil, nil_append, cons_append,
      take_succ_cons, take_zero, map_cons, map_nil, List.cons.injEq] at hrev
    obtain ⟨hp, hcontent, hsdt, -⟩ := hrev
    simp only [length_cons] at hlen'
    refine ⟨content, sdt :: below, rfl, hcontent.symm, hp.symm, b, rfl, by simp; omega, ?_⟩
    have hnames : namesBelow b (sdt :: below) = ["sdt"] := by
      rw [← reverse_inj, reverse_namesBelow]
      have : (sdt :: below).length - (b + 1) = 1 := by simp; omega
      rw [this]
      simp [hsdt]
    rw [hnames]
    decide

/-- The stack around a text-box paragraph of a body paragraph: the nearest text box counts. -/
theorem box_stack {outer : List Frame} (hbox : isBoxParagraphStack (namesBelow b (p :: outer)))
    (hhost : (namesBelow b (p :: outer)).head? = some "p") :
    ∃ above box below, outer = above ++ box :: below ∧ p.name = "p" ∧
      (∀ f ∈ above, f.name ≠ "txbxContent") ∧ box.name = "txbxContent" ∧
      BoxQualifies (some b) below := by
  simp only [isBoxParagraphStack, Bool.and_eq_true, beq_iff_eq] at hbox
  obtain ⟨⟨hlast, hcontains⟩, -⟩ := hbox
  have hcontains := contains_iff_mem.mp hcontains
  have hp : p.name = "p" := by
    rw [namesBelow, getLast?_map, getLast?_drop] at hlast
    split at hlast
    · simp at hlast
    · simpa [getLast?_reverse] using hlast
  -- the nearest text box, wherever it stands
  have hfind : (outer.find? (·.name == "txbxContent")).isSome := by
    rw [find?_isSome]
    obtain ⟨f, hf, hname⟩ := mem_map.mp hcontains
    rcases mem_cons.mp (mem_reverse.mp (mem_of_mem_drop hf)) with rfl | hf'
    · rw [hp] at hname
      exact absurd hname (by decide)
    · exact ⟨f, hf', by simp [hname]⟩
  obtain ⟨box, hbox⟩ := Option.isSome_iff_exists.mp hfind
  obtain ⟨hname, above, below, hsplit, habove⟩ := find?_eq_some_iff_append.mp hbox
  have hname : box.name = "txbxContent" := by simpa using hname
  have habove : ∀ f ∈ above, f.name ≠ "txbxContent" := fun f hf => by simpa using habove f hf
  refine ⟨above, box, below, hsplit, hp, habove, hname, b, rfl, ?_⟩
  have hrev : (p :: outer).reverse = below.reverse ++ box :: (above.reverse ++ [p]) := by
    rw [hsplit]
    simp
  rw [namesBelow, hrev, drop_append, length_reverse] at hcontains hhost
  rw [namesBelow]
  rcases Nat.lt_trichotomy below.length (b + 1) with hlt | heq | hgt
  · -- then the box is not below the body, and nothing inside it is a text box
    rw [drop_eq_nil_of_le (by simp; omega)] at hcontains
    obtain ⟨f, hf, hfname⟩ := mem_map.mp hcontains
    obtain ⟨n, hn⟩ : ∃ n, b + 1 - below.length = n + 1 := ⟨b - below.length, by omega⟩
    rw [hn, nil_append, drop_succ_cons] at hf
    rcases mem_append.mp (mem_of_mem_drop hf) with hf | hf
    · exact absurd hfname (habove f (mem_reverse.mp hf))
    · rw [mem_singleton.mp hf, hp] at hfname
      exact absurd hfname (by decide)
  · -- then the box itself is the body child
    rw [drop_eq_nil_of_le (by simp; omega), heq] at hhost
    simp [hname] at hhost
  · refine ⟨hgt, ?_⟩
    have hne : below.reverse.drop (b + 1) ≠ [] := by
      simp only [ne_eq, drop_eq_nil_iff, length_reverse]
      omega
    obtain ⟨f, fs, hf⟩ := exists_cons_of_ne_nil hne
    rw [hf] at hhost ⊢
    simpa using hhost

end Docx2Typed
