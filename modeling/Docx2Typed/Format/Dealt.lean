import Docx2Typed.Format.Materialize
import Docx2Typed.Format.PlannedRuns

/-!
# Planned runs dealt to their sources

A plan made from a snapshot whose runs are numbered by their positions deals its runs out in order:
the block of every source tiles it, and is what `materialize` takes for it (`Dealt.piecesOf_eq`).
-/

namespace Docx2Typed.Format

open List

/-! ## Blocks -/

/-- The planned runs are dealt to sources of these lengths, from `position` and `cursor` on. -/
def Dealt : ℕ → ℕ → List ℕ → List PlannedRun → Prop
  | _, _, [], planned => planned = []
  | position, cursor, length :: lengths, planned =>
    ∃ block rest, planned = block ++ rest ∧ (∀ run ∈ block, run.sourceRun = position) ∧
      Library.Tiles cursor (block.map (·.span)) (cursor + length) ∧
      Dealt (position + 1) (cursor + length) lengths rest

section Dealt

variable {planned : List PlannedRun} {position cursor a b c : ℕ} {lengths : List ℕ}

/-- The planned runs of the first source. -/
theorem exists_block : ∀ {planned : List PlannedRun} {a : ℕ}, a ≤ c → c ≤ b →
    Library.Tiles a (planned.map (·.span)) b →
    (∀ run ∈ planned, run.sourceRun = position ∧ run.range.stop ≤ c ∨
      position < run.sourceRun ∧ c ≤ run.range.start) →
    ∃ block rest, planned = block ++ rest ∧ (∀ run ∈ block, run.sourceRun = position) ∧
      Library.Tiles a (block.map (·.span)) c ∧ Library.Tiles c (rest.map (·.span)) b ∧
      ∀ run ∈ rest, position < run.sourceRun
  | [], a, hac, hcb, h, _ => by
    obtain rfl : a = b := h
    obtain rfl : a = c := le_antisymm hac hcb
    exact ⟨[], [], rfl, by simp, rfl, rfl, by simp⟩
  | run :: planned, a, hac, hcb, h, hruns => by
    obtain ⟨hstart, hlt, hrest⟩ := h
    obtain ⟨hrun, hlater⟩ := forall_mem_cons.mp hruns
    have hstart' : run.range.start = a := hstart
    have hlt' : run.range.start < run.range.stop := hlt
    rcases hac.eq_or_lt with rfl | hac
    · have hall : Library.Tiles a ((run :: planned).map (·.span)) b := ⟨hstart, hlt, hrest⟩
      refine ⟨[], run :: planned, rfl, by simp, rfl, hall, fun other hother => ?_⟩
      have hother' := hall.inside _ (mem_map_of_mem hother)
      simp only [PlannedRun.span] at hother'
      rcases hruns other hother with ⟨-, hstop⟩ | ⟨hposition, -⟩
      · omega
      · exact hposition
    · rcases hrun with ⟨hposition, hstop⟩ | ⟨-, hle⟩
      · obtain ⟨block, rest, rfl, hblock, htiles, hrest, hafter⟩ :=
          exists_block (show run.span.2 ≤ c from hstop) hcb hrest hlater
        exact ⟨run :: block, rest, rfl, forall_mem_cons.mpr ⟨hposition, hblock⟩,
          ⟨hstart, hlt, htiles⟩, hrest, hafter⟩
      · omega

theorem textLength_append (front back : List OriginalRun) :
    textLength (front ++ back) = textLength front + textLength back := by
  simp [textLength]

theorem textLength_take_le (runs : List OriginalRun) {m n : ℕ} (h : m ≤ n) :
    textLength (runs.take m) ≤ textLength (runs.take n) := by
  obtain ⟨k, rfl⟩ := Nat.exists_eq_add_of_le h
  rw [take_add, textLength_append]
  exact Nat.le_add_right _ _

/-- Planned runs that tile a paragraph, each inside the source at its index. -/
theorem dealt_of_inside {runs : List OriginalRun} : ∀ {suffix front : List OriginalRun}
    {planned : List PlannedRun}, runs = front ++ suffix →
      Library.Tiles (textLength front) (planned.map (·.span)) (textLength runs) →
      (∀ run ∈ planned, front.length ≤ run.sourceRun ∧ run.sourceRun < runs.length ∧
        textLength (runs.take run.sourceRun) ≤ run.range.start ∧
        run.range.stop ≤ textLength (runs.take (run.sourceRun + 1))) →
      Dealt front.length (textLength front) (suffix.map fun run => run.text.length) planned
  | [], front, planned, hruns, _, hinside => by
    refine eq_nil_iff_forall_not_mem.mpr fun run hrun => ?_
    obtain ⟨hle, hlt, -⟩ := hinside run hrun
    rw [hruns, append_nil] at hlt
    omega
  | source :: suffix, front, planned, hruns, htiles, hinside => by
    have hfront : textLength (front ++ [source]) = textLength front + source.text.length := by
      rw [textLength_append, textLength_cons, textLength_nil, Nat.add_zero]
    have hlength : (front ++ [source]).length = front.length + 1 := by simp
    have hruns' : runs = (front ++ [source]) ++ suffix := by simp [hruns]
    have htake : runs.take (front.length + 1) = front ++ [source] := by
      rw [hruns', ← hlength, take_left]
    have hlater : textLength (front ++ [source]) ≤ textLength runs := by
      rw [hruns', textLength_append _ suffix]
      exact Nat.le_add_right _ _
    have hsides : ∀ run ∈ planned,
        run.sourceRun = front.length ∧ run.range.stop ≤ textLength (front ++ [source]) ∨
          front.length < run.sourceRun ∧ textLength (front ++ [source]) ≤ run.range.start := by
      intro run hrun
      obtain ⟨hle, -, hstart, hstop⟩ := hinside run hrun
      rcases hle.eq_or_lt with heq | hlt
      · rw [← heq, htake] at hstop
        exact .inl ⟨heq.symm, hstop⟩
      · refine .inr ⟨hlt, ?_⟩
        rw [← htake]
        exact (textLength_take_le runs hlt).trans hstart
    obtain ⟨block, rest, rfl, hblock, htilesBlock, htilesRest, hafter⟩ :=
      exists_block (by omega) hlater htiles hsides
    refine ⟨block, rest, rfl, hblock, hfront ▸ htilesBlock, ?_⟩
    rw [← hfront, ← hlength]
    refine dealt_of_inside hruns' htilesRest fun run hrun => ?_
    obtain ⟨-, hlt, hstart, hstop⟩ := hinside run (mem_append_right _ hrun)
    exact ⟨by rw [hlength]; exact hafter run hrun, hlt, hstart, hstop⟩

theorem Dealt.position_le : ∀ {lengths : List ℕ} {position cursor : ℕ} {planned : List PlannedRun},
    Dealt position cursor lengths planned → ∀ run ∈ planned, position ≤ run.sourceRun
  | [], _, _, _, h => by
    rw [Dealt] at h
    simp [h]
  | _ :: _, position, _, _, h => by
    obtain ⟨block, rest, rfl, hblock, -, hrest⟩ := h
    refine forall_mem_append.mpr ⟨fun run hrun => (hblock run hrun).ge, fun run hrun => ?_⟩
    exact (Nat.le_succ _).trans (hrest.position_le run hrun)

/-- The block of a source is what is taken for it. -/
theorem piecesOf_block {front block rest : List PlannedRun}
    (hfront : ∀ run ∈ front, run.sourceRun < position)
    (hblock : ∀ run ∈ block, run.sourceRun = position)
    (hrest : ∀ run ∈ rest, position < run.sourceRun)
    (htiles : Library.Tiles a (block.map (·.span)) b) :
    piecesOf (front ++ (block ++ rest)) position = block := by
  have hfilter : (front ++ (block ++ rest)).filter (fun run => run.sourceRun == position) =
      block := by
    rw [filter_append, filter_append, filter_eq_nil_iff.mpr, filter_eq_self.mpr,
      filter_eq_nil_iff.mpr, append_nil, nil_append]
    · intro run hrun
      have := hrest run hrun
      simp
      omega
    · intro run hrun
      simp [hblock run hrun]
    · intro run hrun
      have := hfront run hrun
      simp
      omega
  rw [piecesOf, hfilter]
  refine List.Pairwise.insertionSort_eq ?_
  have hsorted : ∀ {a : ℕ} {block : List PlannedRun}, Library.Tiles a (block.map (·.span)) b →
      block.Pairwise fun x y => x.range.start ≤ y.range.start := by
    intro a block
    induction block generalizing a with
    | nil => exact fun _ => .nil
    | cons run block ih =>
      rintro ⟨-, hlt, hrest⟩
      refine pairwise_cons.mpr ⟨fun other hother => ?_, ih hrest⟩
      have := hrest.inside _ (mem_map_of_mem hother)
      simp only [PlannedRun.span] at this hlt
      omega
  exact hsorted htiles

end Dealt

/-! ## Joined runs -/

/-- Two planned runs that would have been joined. -/
def PlannedRun.Joins (a b : PlannedRun) : Prop :=
  a.style = b.style ∧ a.sourceRun = b.sourceRun ∧ a.range.stop = b.range.start

theorem isChain_joinFrom : ∀ (rest : List PlannedRun) (previous : PlannedRun),
    (joinFrom previous rest).IsChain (fun a b => ¬ a.Joins b) ∧
      ∃ stop more, joinFrom previous rest =
        { previous with range := ⟨previous.range.start, stop⟩ } :: more
  | [], previous => ⟨.singleton _, previous.range.stop, [], rfl⟩
  | run :: rest, previous => by
    rw [joinFrom]
    split
    · obtain ⟨hchain, stop, more, heq⟩ := isChain_joinFrom rest
        { previous with range := ⟨previous.range.start, run.range.stop⟩ }
      exact ⟨hchain, stop, more, heq⟩
    next hne =>
      obtain ⟨hchain, stop, more, heq⟩ := isChain_joinFrom rest run
      refine ⟨?_, previous.range.stop, _, rfl⟩
      rw [heq] at hchain ⊢
      exact .cons_cons hne hchain

theorem isChain_joinRuns (planned : List PlannedRun) :
    (joinRuns planned).IsChain fun a b => ¬ a.Joins b := by
  cases planned with
  | nil => exact .nil
  | cons run rest => exact (isChain_joinFrom rest run).1

/-! ## A plan -/

/-- The runs of a paragraph are numbered by their positions. -/
def ParagraphSnapshot.Numbered (paragraph : ParagraphSnapshot) : Prop :=
  paragraph.draftText = paragraph.runs.flatMap (·.text) ∧
    paragraph.runs.map (·.index) = List.range paragraph.runs.length

instance (paragraph : ParagraphSnapshot) : Decidable paragraph.Numbered :=
  inferInstanceAs (Decidable (_ ∧ _))

section Plan

variable {snapshot : Snapshot} {paragraph : ParagraphSnapshot} {planned : ParagraphPlan}
  {intents : List FormatIntent} {made : FormatPlan} {paragraphId : String}

theorem ParagraphSnapshot.Numbered.consistent (h : paragraph.Numbered) : paragraph.Consistent :=
  ⟨h.1, h.2 ▸ nodup_range⟩

theorem ParagraphSnapshot.Numbered.index (h : paragraph.Numbered) {k : ℕ}
    (hk : k < paragraph.runs.length) : paragraph.runs[k].index = k := by
  have hget : (paragraph.runs.map (·.index))[k]? = some k := by
    rw [h.2, getElem?_range hk]
  rw [getElem?_map, getElem?_eq_getElem hk] at hget
  exact Option.some.inj hget

theorem planParagraph_id (h : planParagraph snapshot intents paragraph = .ok planned) :
    planned.paragraphId = paragraph.paragraphId := by
  obtain ⟨requested, -, h⟩ := bind_eq_ok h
  obtain ⟨merged, -, h⟩ := bind_eq_ok h
  obtain ⟨runs, -, h⟩ := bind_eq_ok h
  obtain rfl := Except.ok.inj h
  rfl

/-- A planned paragraph deals its runs out and joins what it can. -/
theorem planParagraph_dealt (hparagraph : paragraph.Numbered)
    (h : planParagraph snapshot intents paragraph = .ok planned) :
    Dealt 0 0 (paragraph.runs.map fun run => run.text.length) planned.runs ∧
      planned.runs.IsChain fun a b => ¬ a.Joins b := by
  obtain ⟨hvalid, hagreed⟩ := (planParagraph_spec snapshot intents paragraph).1 planned h
  obtain ⟨segments, hsegments, hrequested⟩ :=
    (planParagraph_spec snapshot intents paragraph).2 hvalid hagreed
  obtain ⟨planned', hplanned', hfrom⟩ := planSegments_spec hparagraph.consistent hrequested
  rw [hsegments] at h
  obtain rfl := Except.ok.inj (hplanned'.symm.trans h)
  refine ⟨?_, ?_⟩
  · have htiles := hfrom.tiles
    rw [hparagraph.1] at htiles
    refine dealt_of_inside (nil_append _).symm htiles fun run hrun => ?_
    obtain ⟨k, hk, hindex, hstart, hstop⟩ := hfrom.inside run hrun
    rw [hparagraph.index hk] at hindex
    subst hindex
    exact ⟨Nat.zero_le _, hk, hstart, hstop⟩
  · obtain ⟨runs, hruns, h⟩ := bind_eq_ok h
    obtain ⟨pieces, -, hjoin⟩ := bind_eq_ok hruns
    obtain rfl := Except.ok.inj h
    obtain rfl := Except.ok.inj hjoin
    exact isChain_joinRuns pieces

/-- The entry of the plan under an id is made from the first paragraph under that id. -/
theorem find?_of_forall₂ {α β : Type} {R : α → β → Prop} {p : α → Bool} {q : β → Bool}
    (hsame : ∀ x y, R x y → p x = q y) : ∀ {xs : List α} {ys : List β} {x : α} {y : β},
    List.Forall₂ R xs ys → xs.find? p = some x → ys.find? q = some y → R x y
  | _, _, _, _, .nil, h, _ => by cases h
  | x' :: xs, y' :: ys, x, y, .cons hR hrest, hx, hy => by
    rw [find?_cons] at hx hy
    rw [hsame x' y' hR] at hx
    cases hq : q y' with
    | true =>
      simp only [hq] at hx hy
      obtain rfl := Option.some.inj hx
      obtain rfl := Option.some.inj hy
      exact hR
    | false =>
      simp only [hq] at hx hy
      exact find?_of_forall₂ hsame hrest hx hy

theorem plan_dealt (h : plan snapshot intents = .ok made)
    (hparagraph : snapshot.paragraphs.find? (fun entry => entry.paragraphId == paragraphId) =
      some paragraph)
    (hplanned : made.paragraph paragraphId = some planned) (hnumbered : paragraph.Numbered) :
    Dealt 0 0 (paragraph.runs.map fun run => run.text.length) planned.runs ∧
      planned.runs.IsChain fun a b => ¬ a.Joins b := by
  obtain ⟨paragraphs, hparagraphs, h⟩ := bind_eq_ok h
  have hforall := mapM_eq_ok hparagraphs
  have hmade : made.paragraphs = paragraphs := by
    split at h
    · cases h
    · exact congrArg FormatPlan.paragraphs (Except.ok.inj h).symm
  rw [FormatPlan.paragraph, hmade] at hplanned
  have hentry := find?_of_forall₂ (R := fun entry planned =>
      planParagraph snapshot intents entry = .ok planned)
    (q := fun entry => entry.paragraphId == paragraphId) (fun entry made hentry => ?_) hforall
    hparagraph hplanned
  · exact planParagraph_dealt hnumbered hentry
  · rw [planParagraph_id hentry]

end Plan

end Docx2Typed.Format
