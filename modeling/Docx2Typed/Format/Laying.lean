import Docx2Typed.Format.Reading
import Docx2Typed.Format.Runs

/-!
# A range cut at its runs

Where `runs_of` reads a range to its end, the range is cut at its runs: `Laid`, `laid_of_readFrom`.
Bytes that read alike may be put in place of a run (`Laid.readFrom_replaced`).
-/

namespace Docx2Typed.Format

open Library List

/-! ## Cutting the tags -/

section Tags

variable {xml : Bytes} {depth depth' : ℕ} {runs runs' : List RunSpan} {run : OpenRun}

/-- The tags up to the end of an open run. -/
theorem exists_runEnd : ∀ {tags : List Tag} {run : OpenRun},
    tags.foldlM (runsStep xml 0) ⟨runs, depth, some run⟩ = .ok ⟨runs', depth', none⟩ →
      ∃ inner last rest span, tags = inner ++ last :: rest ∧
        (inner ++ [last]).foldlM (runsStep xml 0) ⟨runs, depth, some run⟩ =
          .ok ⟨runs ++ [span], depth, none⟩ ∧
        span.start = run.tag.start ∧ span.stop = last.stop ∧ span.nested = run.nested ∧
        rest.foldlM (runsStep xml 0) ⟨runs ++ [span], depth, none⟩ = .ok ⟨runs', depth', none⟩
  | [], _, h => by cases h
  | tag :: tags, run, h => by
    rw [foldlM_cons] at h
    obtain ⟨next, hstep, h⟩ := bind_eq_ok h
    have hsame := hstep
    rw [runsStep] at hstep
    simp only at hstep
    by_cases hzero : (run.step tag).innerDepth = 0
    · rw [if_pos hzero] at hstep
      obtain ⟨span, rfl, hstart, hstop, hnested⟩ := push_eq_ok hstep
      refine ⟨[], tag, tags, span, rfl, ?_, ?_, ?_, hnested.trans (step_tag run tag).2, h⟩
      · rw [nil_append, foldlM_cons, bind_ok hsame]
        rfl
      · rw [hstart, (step_tag run tag).1, Nat.zero_add]
      · rw [hstop, Nat.zero_add]
    · rw [if_neg hzero] at hstep
      obtain rfl := Except.ok.inj hstep
      obtain ⟨inner, last, rest, span, rfl, hread, hstart, hstop, hnested, hrest⟩ :=
        exists_runEnd h
      refine ⟨tag :: inner, last, rest, span, rfl, ?_, ?_, hstop,
        hnested.trans (step_tag run tag).2, hrest⟩
      · rw [cons_append, foldlM_cons, bind_ok hsame]
        exact hread
      · rw [hstart, (step_tag run tag).1]

/-- The tags up to the first run, those of the run, and those behind it. -/
def FirstRun (xml : Bytes) (runs runs' : List RunSpan) (depth' : ℕ) (tags : List Tag)
    (depth : ℕ) : Prop :=
  ∃ before depth₁ first inner last rest span,
    tags = before ++ (first :: inner ++ [last]) ++ rest ∧
    before.foldlM (runsStep xml 0) ⟨runs, depth, none⟩ = .ok ⟨runs, depth₁, none⟩ ∧
    (first :: inner ++ [last]).foldlM (runsStep xml 0) ⟨runs, depth₁, none⟩ =
      .ok ⟨runs ++ [span], depth₁, none⟩ ∧
    span.start = first.start ∧ span.stop = last.stop ∧ span.nested = decide (1 < depth₁) ∧
    rest.foldlM (runsStep xml 0) ⟨runs ++ [span], depth₁, none⟩ = .ok ⟨runs', depth', none⟩

theorem FirstRun.cons {tag : Tag} {tags : List Tag} {depth₁ : ℕ}
    (hstep : runsStep xml 0 ⟨runs, depth, none⟩ tag = .ok ⟨runs, depth₁, none⟩)
    (h : FirstRun xml runs runs' depth' tags depth₁) :
    FirstRun xml runs runs' depth' (tag :: tags) depth := by
  obtain ⟨before, depth₂, first, inner, last, rest, span, rfl, hbefore, hrest⟩ := h
  refine ⟨tag :: before, depth₂, first, inner, last, rest, span, rfl, ?_, hrest⟩
  rw [foldlM_cons, bind_ok hstep]
  exact hbefore

theorem exists_firstRun : ∀ {tags : List Tag} {depth : ℕ},
    tags.foldlM (runsStep xml 0) ⟨runs, depth, none⟩ = .ok ⟨runs', depth', none⟩ →
      runs' = runs ∨ FirstRun xml runs runs' depth' tags depth
  | [], _, h => .inl (RunsState.mk.inj (Except.ok.inj h)).1.symm
  | tag :: tags, depth, h => by
    rw [foldlM_cons] at h
    obtain ⟨next, hstep, h⟩ := bind_eq_ok h
    by_cases hcurrent : ∃ depth₁, next = ⟨runs, depth₁, none⟩
    · obtain ⟨depth₁, rfl⟩ := hcurrent
      exact (exists_firstRun h).imp_right (.cons hstep)
    · have hsame := hstep
      rw [runsStep] at hstep
      simp only at hstep
      split_ifs at hstep with hclose hopen hself
      · exact (hcurrent ⟨_, (Except.ok.inj hstep).symm⟩).elim
      · obtain rfl := Except.ok.inj hstep
        obtain ⟨inner, last, rest, span, rfl, hread, hstart, hstop, hnested, hrest⟩ :=
          exists_runEnd h
        refine .inr ⟨[], depth, tag, inner, last, rest, span, by simp, rfl, ?_, hstart, hstop,
          hnested, hrest⟩
        rw [cons_append, foldlM_cons, bind_ok hsame]
        exact hread
      · exact (hcurrent ⟨_, (Except.ok.inj hstep).symm⟩).elim
      · exact (hcurrent ⟨_, (Except.ok.inj hstep).symm⟩).elim

end Tags

/-! ## Cutting the bytes -/

theorem append_unique {α : Type} {p : α → Prop} [DecidablePred p] {front back front' back' : List α}
    (h : front ++ back = front' ++ back') (hfront : ∀ a ∈ front, p a) (hback : ∀ a ∈ back, ¬ p a)
    (hfront' : ∀ a ∈ front', p a) (hback' : ∀ a ∈ back', ¬ p a) :
    front = front' ∧ back = back' := by
  have hfilter : ∀ {front back : List α}, (∀ a ∈ front, p a) → (∀ a ∈ back, ¬ p a) →
      (front ++ back).filter (fun a => decide (p a)) = front := by
    intro front back hfront hback
    rw [filter_append, filter_eq_self.mpr (by simpa using hfront),
      filter_eq_nil_iff.mpr (by simpa using hback), append_nil]
  have hsame : front = front' := by
    rw [← hfilter hfront hback, h, hfilter hfront' hback']
  subst hsame
  exact ⟨rfl, append_cancel_left h⟩

theorem boundary_of_tag {xml : Bytes} {tag : Tag} (h : tag ∈ scanTags xml) :
    Boundary (byte '<') tokenWidth xml tag.start ∧ Boundary (byte '<') tokenWidth xml tag.stop :=
  ⟨.inr ⟨_, exists_span_of_mem h, .inl rfl⟩, .inr ⟨_, exists_span_of_mem h, .inr rfl⟩⟩

/-- A part cut where its tags are. -/
theorem scanTags_cut {xml : Bytes} {before block after : List Tag} {start stop : ℕ}
    (h : scanTags xml = before ++ block ++ after) (hlt : start ≤ stop)
    (hstart : ∃ tag ∈ block, tag.start = start) (hstop : ∃ tag ∈ block, tag.stop = stop)
    (hbefore : ∀ tag ∈ before, tag.stop ≤ start)
    (hblock : ∀ tag ∈ block, start ≤ tag.start ∧ tag.stop ≤ stop)
    (hafter : ∀ tag ∈ after, stop ≤ tag.start) :
    WholeXml (xml.take start) ∧ WholeXml (slice xml start stop) ∧
      xml = xml.take start ++ (slice xml start stop ++ xml.drop stop) ∧
      scanTags (xml.take start) = before ∧
      (scanTags (slice xml start stop)).map (Tag.shift start) = block ∧
      (scanTags (xml.drop stop)).map (Tag.shift stop) = after := by
  obtain ⟨first, hfirst, rfl⟩ := hstart
  obtain ⟨last, hlast, rfl⟩ := hstop
  have hmem : ∀ tag ∈ block, tag ∈ scanTags xml := fun tag htag => by
    rw [h]
    exact mem_append_left _ (mem_append_right _ htag)
  have hordered := ordered_scanTags xml
  have hpos : ∀ tag ∈ scanTags xml, tag.start < tag.stop := fun tag htag =>
    (hordered.inside tag htag).2.1
  have hinside := (hordered.inside last (hmem last hlast)).2.2
  have hfrontWhole : WholeXml (xml.take first.start) :=
    whole_take settles_tokenWidth (boundary_of_tag (hmem first hfirst)).1
  have hrunWhole : WholeXml (slice xml first.start last.stop) :=
    whole_slice settles_tokenWidth (boundary_of_tag (hmem first hfirst)).1
      (boundary_of_tag (hmem last hlast)).2 hlt
  have hparts : xml =
      xml.take first.start ++ (slice xml first.start last.stop ++ xml.drop last.stop) := by
    have hcut : (xml.take last.stop).take first.start = xml.take first.start := by
      rw [take_take, Nat.min_eq_left hlt]
    rw [slice, ← append_assoc, ← hcut, take_append_drop, take_append_drop]
  have hfrontLength : (xml.take first.start).length = first.start :=
    length_take_of_le (hlt.trans hinside)
  have hrunLength : (slice xml first.start last.stop).length = last.stop - first.start := by
    rw [slice, length_drop, length_take_of_le hinside]
  have htags : scanTags xml = scanTags (xml.take first.start) ++
      ((scanTags (slice xml first.start last.stop)).map (Tag.shift first.start) ++
        (scanTags (xml.drop last.stop)).map (Tag.shift last.stop)) := by
    have hshift : ∀ tag : Tag, (tag.shift (last.stop - first.start)).shift first.start =
        tag.shift last.stop := fun tag => by
      simp only [Tag.shift, ← Nat.add_assoc, Nat.add_sub_cancel' hlt]
    conv_lhs => rw [hparts]
    rw [scanTags_append hfrontWhole, scanTags_append hrunWhole, hfrontLength, hrunLength,
      map_append, map_map]
    simp only [Function.comp_def, hshift]
  have hshifted : ∀ {bytes : Bytes} {k : ℕ}, ∀ tag ∈ (scanTags bytes).map (Tag.shift k),
      k ≤ tag.start ∧ tag.start < tag.stop ∧ tag.stop ≤ k + bytes.length := by
    intro bytes k tag htag
    obtain ⟨own, hown, rfl⟩ := mem_map.mp htag
    have := (ordered_scanTags bytes).inside own hown
    simp only [Tag.shift]
    omega
  have hfront := (ordered_scanTags (xml.take first.start)).inside
  rw [hfrontLength] at hfront
  rw [h, append_assoc] at htags
  have hafterMem : ∀ tag ∈ after, tag ∈ scanTags xml := fun tag htag => by
    rw [h]
    exact mem_append_right _ htag
  obtain ⟨hsame, htags⟩ := append_unique (p := fun tag : Tag => tag.stop ≤ first.start) htags
    hbefore (fun tag htag => by
      rcases mem_append.mp htag with htag | htag
      · have := hblock tag htag
        have := hpos tag (hmem tag htag)
        omega
      · have := hafter tag htag
        have := hpos tag (hafterMem tag htag)
        omega)
    (fun tag htag => (hfront tag htag).2.2)
    (fun tag htag => by
      rcases mem_append.mp htag with htag | htag
      · have := hshifted tag htag
        omega
      · have := hshifted tag htag
        omega)
  obtain ⟨hsame', htags⟩ := append_unique (p := fun tag : Tag => tag.stop ≤ last.stop) htags
    (fun tag htag => (hblock tag htag).2)
    (fun tag htag => by
      have := hafter tag htag
      have := hpos tag (hafterMem tag htag)
      omega)
    (fun tag htag => by
      have := hshifted tag htag
      omega)
    (fun tag htag => by
      have := hshifted tag htag
      omega)
  exact ⟨hfrontWhole, hrunWhole, hparts, hsame.symm, hsame'.symm, htags.symm⟩

/-! ## Cutting at the runs -/

/-- Bytes cut at the runs they hold. -/
inductive Laid : ℕ → Bytes → List RunSpan → Prop
  | rest {depth depth' : ℕ} {xml : Bytes} (h : readFrom xml 0 depth = .ok ⟨[], depth', none⟩) :
    Laid depth xml []
  | run {depth depth' : ℕ} {gap run rest : Bytes} {span : RunSpan} {spans : List RunSpan}
    (hgap : Reads gap depth [] depth') (hrun : Reads run depth' [span] depth')
    (hplace : span.start = 0 ∧ span.stop = run.length ∧ span.nested = decide (1 < depth'))
    (hrest : Laid depth' rest spans) :
    Laid depth (gap ++ (run ++ rest))
      (span.raise gap.length :: spans.map (RunSpan.raise (gap.length + run.length)))

theorem laid_of_readFrom : ∀ {n : ℕ} {xml : Bytes} {depth depth' : ℕ} {runs : List RunSpan},
    xml.length ≤ n → readFrom xml 0 depth = .ok ⟨runs, depth', none⟩ → Laid depth xml runs
  | n, xml, depth, depth', runs, hn, h => by
    rcases exists_firstRun h with rfl | hfirst
    · exact .rest h
    obtain ⟨before, depth₁, first, inner, last, rest, span, htags, hbefore, hrun, hstart, hstop,
      hnested, hrest⟩ := hfirst
    have hordered := ordered_scanTags xml
    rw [htags] at hordered
    obtain ⟨hfront, hback, hfrontBack⟩ := pairwise_append.mp hordered.apart
    obtain ⟨hbeforeApart, hblockApart, hbeforeBlock⟩ := pairwise_append.mp hfront
    have hpos : ∀ tag ∈ first :: inner ++ [last], tag.start < tag.stop := fun tag htag =>
      (hordered.inside tag (mem_append_left _ (mem_append_right _ htag))).2.1
    have hfirstMem : first ∈ first :: inner ++ [last] := by simp
    have hlastMem : last ∈ first :: inner ++ [last] := by simp
    have hblock : ∀ tag ∈ first :: inner ++ [last],
        first.start ≤ tag.start ∧ tag.stop ≤ last.stop := by
      intro tag htag
      have htagPos := hpos tag htag
      have hfirstPos := hpos first hfirstMem
      have hlastPos := hpos last hlastMem
      constructor
      · rcases mem_cons.mp htag with rfl | hinner
        · exact le_rfl
        · have := (pairwise_cons.mp hblockApart).1 tag hinner
          omega
      · rcases mem_append.mp htag with hinner | hlast
        · have := (pairwise_append.mp hblockApart).2.2 tag hinner last (by simp)
          omega
        · rw [mem_singleton.mp hlast]
    have hlt : first.start < last.stop := by
      have := hblock last hlastMem
      have := hpos last hlastMem
      omega
    obtain ⟨hgapWhole, hrunWhole, hparts, hgapTags, hrunTags, hrestTags⟩ :=
      scanTags_cut htags hlt.le ⟨first, hfirstMem, rfl⟩ ⟨last, hlastMem, rfl⟩
        (fun tag htag => hbeforeBlock tag htag first hfirstMem) hblock
        (fun tag htag => hfrontBack last (mem_append_right _ hlastMem) tag htag)
    have hlastInside : last.stop ≤ xml.length :=
      (hordered.inside last (mem_append_left _ (mem_append_right _ hlastMem))).2.2
    have hgapLength : (xml.take first.start).length = first.start :=
      length_take_of_le (hlt.le.trans hlastInside)
    have hrunLength : (slice xml first.start last.stop).length = last.stop - first.start := by
      rw [slice, length_drop, length_take_of_le hlastInside]
    have hgap : Reads (xml.take first.start) depth [] depth₁ := by
      refine ⟨hgapWhole, ?_, by simp⟩
      rw [← foldlM_front (slice xml first.start last.stop ++ xml.drop last.stop), ← hparts,
        hgapTags]
      exact hbefore
    have hrunAt : StandsAt xml (slice xml first.start last.stop) first.start := fun i j hj =>
      (slice_slice xml _ _ _ _ (by omega)).symm
    have hrestAt : StandsAt xml (xml.drop last.stop) last.stop := fun i j _ =>
      (slice_drop xml _ _ _).symm
    rw [← hrunTags] at hrun
    rw [← hrestTags] at hrest
    obtain ⟨own, hrunRead, hown⟩ := readFrom_standing hrunAt hrun
    obtain ⟨spans, hrestRead, rfl⟩ := readFrom_standing hrestAt hrest
    obtain ⟨held, rfl, hheld⟩ : ∃ held, own = [held] ∧ span = held.raise first.start := by
      cases own with
      | nil => cases hown
      | cons held more =>
        obtain ⟨hspan, hmore⟩ := List.cons.inj hown
        have hnil := map_eq_nil_iff.mp hmore.symm
        exact ⟨held, by rw [hnil], hspan⟩
    rw [hheld] at hstart hstop hnested
    simp only [RunSpan.raise] at hstart hstop hnested
    have hplace : held.start = 0 ∧ held.stop = (slice xml first.start last.stop).length ∧
        held.nested = decide (1 < depth₁) := ⟨by omega, by omega, hnested⟩
    have hrunReads : Reads (slice xml first.start last.stop) depth₁ [held] depth₁ :=
      ⟨hrunWhole, hrunRead, by simp [hplace.2.1]⟩
    have hshorter : (xml.drop last.stop).length < xml.length := by
      rw [length_drop]
      omega
    cases n with
    | zero => omega
    | succ n =>
      have hlaid := Laid.run hgap hrunReads hplace
        (laid_of_readFrom (n := n) (by omega) hrestRead)
      have hstopLength : (xml.take first.start).length +
          (slice xml first.start last.stop).length = last.stop := by omega
      rw [← hparts, hstopLength, hgapLength] at hlaid
      rw [hheld]
      exact hlaid

/-! ## Other bytes in place of runs -/

/-- A run wherever it stands. -/
def RunSpan.content (run : RunSpan) : RunSpan := { run with start := 0, stop := 0 }

/-- A run wherever it stands, with its bytes. -/
def held (xml : Bytes) (run : RunSpan) : RunSpan × Bytes :=
  (run.content, slice xml run.start run.stop)

/-- For every run: what takes its place, with the runs that are read there. -/
abbrev Choices := List (Option (Bytes × List RunSpan))

def cutsOf : List RunSpan → Choices → List (Cut UInt8)
  | [], _ => []
  | _ :: _, [] => []
  | run :: runs, choice :: choices =>
    (choice.map fun made => ⟨run.start, run.stop, made.1⟩).toList ++ cutsOf runs choices

def heldOne (xml : Bytes) (run : RunSpan) : Option (Bytes × List RunSpan) → List (RunSpan × Bytes)
  | none => [held xml run]
  | some made => made.2.map (held made.1)

/-- The runs there are then. -/
def heldAfter (xml : Bytes) : List RunSpan → Choices → List (RunSpan × Bytes)
  | [], _ => []
  | _ :: _, [] => []
  | run :: runs, choice :: choices => heldOne xml run choice ++ heldAfter xml runs choices

/-- What takes the place of a run reads as it should, at any depth the run can stand at. -/
def Fits (run : RunSpan) (choice : Option (Bytes × List RunSpan)) : Prop :=
  ∀ made ∈ choice, ∀ depth, run.nested = decide (1 < depth) → Reads made.1 depth made.2 depth

section Replaced

variable {depth : ℕ} {xml u v : Bytes} {runs : List RunSpan} {choices : Choices}

theorem held_back (u v : Bytes) (run : RunSpan) :
    held (u ++ v) (run.raise u.length) = held v run :=
  Prod.ext rfl (slice_append_right u v run.start run.stop)

theorem held_front (v : Bytes) {run : RunSpan} (h : run.stop ≤ u.length) :
    held (u ++ v) run = held u run :=
  Prod.ext rfl (slice_append_left u v h)

theorem cutsOf_raise (k : ℕ) : ∀ (runs : List RunSpan) (choices : Choices),
    cutsOf (runs.map (RunSpan.raise k)) choices = (cutsOf runs choices).map (Cut.raise k)
  | [], _ => rfl
  | _ :: _, [] => rfl
  | run :: runs, choice :: choices => by
    rw [map_cons, cutsOf, cutsOf, cutsOf_raise k runs choices, map_append]
    cases choice <;> rfl

theorem heldAfter_back (u v : Bytes) : ∀ (runs : List RunSpan) (choices : Choices),
    heldAfter (u ++ v) (runs.map (RunSpan.raise u.length)) choices = heldAfter v runs choices
  | [], _ => rfl
  | _ :: _, [] => rfl
  | run :: runs, choice :: choices => by
    rw [map_cons, heldAfter, heldAfter, heldAfter_back u v runs choices]
    cases choice with
    | none => rw [heldOne, heldOne, held_back]
    | some made => rfl

/-- The range with other bytes in place of runs. -/
theorem Laid.readFrom_replaced (h : Laid depth xml runs) : ∀ {choices : Choices},
    List.Forall₂ Fits runs choices → ∃ runs' depth',
      readFrom (Library.replaceFrom xml 0 (cutsOf runs choices)) 0 depth =
          .ok ⟨runs', depth', none⟩ ∧
        runs'.map (held (Library.replaceFrom xml 0 (cutsOf runs choices))) =
          heldAfter xml runs choices := by
  induction h with
  | @rest depth depth' xml h =>
    rintro _ ⟨⟩
    exact ⟨[], depth', h, rfl⟩
  | @run depth depth' gap run rest span spans hgap hrun hplace hrest ih =>
    intro choices hfits
    cases hfits with
    | @cons _ choice _ choices hfit hfits =>
      rw [List.forall₂_map_left_iff] at hfits
      obtain ⟨runs', depth'', hread, hheld⟩ := ih hfits
      have hlength : gap.length + run.length = (gap ++ run).length := length_append.symm
      have hlater : heldAfter (gap ++ (run ++ rest))
          (spans.map (RunSpan.raise (gap.length + run.length))) choices =
            heldAfter rest spans choices := by
        rw [hlength, ← append_assoc, heldAfter_back]
      have hcuts : cutsOf (spans.map (RunSpan.raise (gap.length + run.length))) choices =
          (cutsOf spans choices).map (Cut.raise (gap ++ run).length) := by
        rw [hlength, cutsOf_raise]
      cases choice with
      | none =>
        have hreplaced : Library.replaceFrom (gap ++ (run ++ rest)) 0
            (cutsOf (span.raise gap.length ::
              spans.map (RunSpan.raise (gap.length + run.length))) (none :: choices)) =
              gap ++ run ++ Library.replaceFrom rest 0 (cutsOf spans choices) := by
          rw [cutsOf, hcuts, ← append_assoc gap]
          exact replaceFrom_append (gap ++ run) rest _
        have hreads := hgap.append hrun
        refine ⟨_, depth'', by rw [hreplaced]; exact hreads.readFrom_append_ok hread, ?_⟩
        rw [hreplaced, heldAfter, hlater, ← hheld, map_append, map_map]
        congr 1
        · have hstop : (span.raise gap.length).stop ≤ (gap ++ run).length := by
            rw [← hlength, RunSpan.raise, hplace.2.1]
          have hback : held (gap ++ run ++ rest) (span.raise gap.length) =
              held (gap ++ (run ++ rest)) (span.raise gap.length) := by rw [append_assoc]
          rw [nil_append, map_singleton, map_singleton, heldOne, held_front _ hstop,
            ← hback, held_front _ hstop]
        · refine map_congr_left fun later _ => ?_
          rw [Function.comp_apply, held_back]
      | some made =>
        obtain ⟨content, more⟩ := made
        have hmade := hfit (content, more) rfl depth' hplace.2.2
        have hreplaced : Library.replaceFrom (gap ++ (run ++ rest)) 0
            (cutsOf (span.raise gap.length :: spans.map (RunSpan.raise (gap.length + run.length)))
              (some (content, more) :: choices)) =
              gap ++ content ++ Library.replaceFrom rest 0 (cutsOf spans choices) := by
          have hstart : (span.raise gap.length).start = gap.length := by
            rw [RunSpan.raise, hplace.1, Nat.add_zero]
          have hstop : (span.raise gap.length).stop = (gap ++ run).length + 0 := by
            rw [RunSpan.raise, hplace.2.1, hlength, Nat.add_zero]
          rw [cutsOf, hcuts, Option.map_some, Option.toList_some, singleton_append,
            Library.replaceFrom, hstart, hstop, drop_zero, take_left,
            ← append_assoc gap run rest, replaceFrom_raise]
        have hreads := hgap.append hmade
        refine ⟨_, depth'', by rw [hreplaced]; exact hreads.readFrom_append_ok hread, ?_⟩
        rw [hreplaced, heldAfter, hlater, ← hheld, map_append, map_map]
        congr 1
        · rw [nil_append, map_map, heldOne]
          refine map_congr_left fun piece hpiece => ?_
          have hinside : piece.stop ≤ content.length := hmade.inside piece hpiece
          have hstop : (piece.raise gap.length).stop ≤ (gap ++ content).length := by
            rw [length_append]
            exact Nat.add_le_add_left hinside _
          rw [Function.comp_apply, held_front _ hstop, held_back]
        · refine map_congr_left fun later _ => ?_
          rw [Function.comp_apply, held_back]

end Replaced

end Docx2Typed.Format
