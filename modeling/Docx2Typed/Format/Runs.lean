import Docx2Typed.Format.Materialize

/-!
# The elements around a run

`Levels` follows the elements that open and close in a range.  `runs_of` counts them, outside its
runs and inside, and never counts below zero; so its counter is the number of elements opened in
the range and still open (`runsOf_read`), whatever is open around the range.
-/

namespace Docx2Typed.Format

open List

/-! ## Open elements -/

/-- The names of the open elements after a tag, innermost first. -/
def enterOpen (names : List String) (tag : Tag) : List String :=
  if tag.closing then names.tail
  else if tag.selfClosing then names
  else tag.name :: names

/-- The elements opened since some place and still open, and those open there that still are. -/
structure Levels where
  inner : List String
  outer : List String

namespace Levels

def names (l : Levels) : List String := l.inner ++ l.outer

def enter (l : Levels) (tag : Tag) : Levels :=
  if tag.closing then
    match l.inner with
    | [] => ⟨[], l.outer.tail⟩
    | _ :: inner => ⟨inner, l.outer⟩
  else if tag.selfClosing then l
  else ⟨tag.name :: l.inner, l.outer⟩

theorem names_enter (l : Levels) (tag : Tag) : (l.enter tag).names = enterOpen l.names tag := by
  obtain ⟨inner, outer⟩ := l
  rw [enter, enterOpen]
  split
  · cases inner <;> rfl
  · split <;> rfl

theorem names_foldl (tags : List Tag) (l : Levels) :
    (tags.foldl enter l).names = tags.foldl enterOpen l.names := by
  induction tags generalizing l with
  | nil => rfl
  | cons tag rest ih => rw [foldl_cons, foldl_cons, ih, names_enter]

theorem length_closing {tag : Tag} (l : Levels) (h : tag.closing = true) :
    (l.enter tag).inner.length = l.inner.length - 1 := by
  obtain ⟨inner, outer⟩ := l
  rw [enter, if_pos h]
  cases inner <;> rfl

theorem length_selfClosing {tag : Tag} (l : Levels) (h : tag.closing = false)
    (hself : tag.selfClosing = true) : (l.enter tag).inner.length = l.inner.length := by
  simp [enter, h, hself]

theorem length_opening {tag : Tag} (l : Levels) (h : tag.closing = false)
    (hself : tag.selfClosing = false) : (l.enter tag).inner.length = l.inner.length + 1 := by
  simp [enter, h, hself]

end Levels

/-! ## What `runs_of` has read -/

/-- A run that starts at one of the tags `seen` and ends at it or a later one. -/
def ReadIn (base : ℕ) (start : Levels) (seen : List Tag) (run : RunSpan) : Prop :=
  ∃ before tag after, seen = before ++ tag :: after ∧ run.start = base + tag.start ∧
    (∃ last ∈ tag :: after, run.stop = base + last.stop) ∧
    run.nested = decide (1 < (before.foldl Levels.enter start).inner.length)

/-- What is known after the tags `seen`, where `start` is open before the first of them. -/
structure RunsRead (base : ℕ) (start : Levels) (seen : List Tag) (s : RunsState) : Prop where
  apart : s.runs.Pairwise fun a b => a.stop ≤ b.start
  run : ∀ run ∈ s.runs, ReadIn base start seen run
  depth : s.current = none → s.depth = (seen.foldl Levels.enter start).inner.length
  current : ∀ run, s.current = some run → 0 < run.innerDepth ∧
    (seen.foldl Levels.enter start).inner.length = s.depth + run.innerDepth ∧
    (∀ done ∈ s.runs, done.stop ≤ base + run.tag.start) ∧
    ∃ before after, seen = before ++ run.tag :: after ∧
      run.nested = decide (1 < (before.foldl Levels.enter start).inner.length)

section RunsRead

variable {paragraph : Bytes} {base : ℕ} {start : Levels} {seen : List Tag} {s s' : RunsState}
  {tag : Tag} {run : OpenRun} {span : RunSpan} {runEnd : ℕ}

theorem close_eq_ok (h : run.close paragraph base runEnd = .ok span) :
    span.start = base + run.tag.start ∧ span.stop = base + runEnd ∧ span.nested = run.nested := by
  rw [OpenRun.close] at h
  obtain ⟨raw, -, h⟩ := bind_eq_ok h
  obtain ⟨rpr, -, h⟩ := bind_eq_ok h
  obtain rfl := Except.ok.inj h
  exact ⟨rfl, rfl, rfl⟩

theorem push_eq_ok (h : s.push paragraph base run runEnd = .ok s') :
    ∃ span : RunSpan, s' = { s with runs := s.runs ++ [span], current := none } ∧
      span.start = base + run.tag.start ∧ span.stop = base + runEnd ∧ span.nested = run.nested := by
  rw [RunsState.push] at h
  cases hclose : run.close paragraph base runEnd with
  | error e => rw [hclose] at h; cases h
  | ok span =>
    rw [hclose] at h
    obtain rfl := Except.ok.inj h
    exact ⟨span, rfl, close_eq_ok hclose⟩

theorem step_tag (run : OpenRun) (inner : Tag) : (run.step inner).tag = run.tag ∧
    (run.step inner).nested = run.nested := by
  simp only [OpenRun.step, OpenRun.openChild, OpenRun.closeChild]
  grind

/-- Inside a run the counter moves as the open elements do. -/
theorem step_innerDepth {l : Levels} {depth : ℕ} (inner : Tag)
    (hclosing : inner.closing = true → inner.selfClosing = false) (hpos : 0 < run.innerDepth)
    (h : l.inner.length = depth + run.innerDepth) :
    (l.enter inner).inner.length = depth + (run.step inner).innerDepth := by
  cases hc : inner.closing with
  | true =>
    have hself := hclosing hc
    rw [l.length_closing hc]
    simp only [OpenRun.step, hc, hself]
    simp
    omega
  | false =>
    cases hself : inner.selfClosing with
    | true =>
      rw [l.length_selfClosing hc hself]
      simp only [OpenRun.step, hc, hself]
      simp
      grind
    | false =>
      rw [l.length_opening hc hself]
      simp only [OpenRun.step, hc, hself]
      simp
      omega

theorem ReadIn.concat {run : RunSpan} (h : ReadIn base start seen run) (tag : Tag) :
    ReadIn base start (seen ++ [tag]) run := by
  obtain ⟨before, opened, after, rfl, hstart, ⟨last, hlast, hstop⟩, hnested⟩ := h
  exact ⟨before, opened, after ++ [tag], by simp, hstart,
    ⟨last, mem_append_left [tag] hlast, hstop⟩, hnested⟩

/-- A run is read when its end is met. -/
theorem readIn_push (hrun : ∀ done ∈ s.runs, ReadIn base start seen done)
    (hapart : s.runs.Pairwise fun a b => a.stop ≤ b.start)
    (hdone : ∀ done ∈ s.runs, done.stop ≤ base + run.tag.start)
    {before after : List Tag} (hseen : seen = before ++ run.tag :: after)
    (hnested : run.nested = decide (1 < (before.foldl Levels.enter start).inner.length))
    {last : Tag} (hlast : last ∈ run.tag :: after)
    (h : s.push paragraph base run last.stop = .ok s') :
    s'.current = none ∧ s'.depth = s.depth ∧ (∀ done ∈ s'.runs, ReadIn base start seen done) ∧
      s'.runs.Pairwise fun a b => a.stop ≤ b.start := by
  obtain ⟨span, rfl, hstart, hstop, hsame⟩ := push_eq_ok h
  refine ⟨rfl, rfl, ?_, ?_⟩
  · refine forall_mem_append.mpr ⟨hrun, forall_mem_singleton.mpr ?_⟩
    exact ⟨before, run.tag, after, hseen, hstart, ⟨last, hlast, hstop⟩, hsame ▸ hnested⟩
  · refine pairwise_append.mpr
      ⟨hapart, pairwise_singleton _ _, fun done hmem new hnew => ?_⟩
    rw [mem_singleton.mp hnew, hstart]
    exact hdone done hmem

/-- One tag. -/
theorem RunsRead.step (h : RunsRead base start seen s)
    (hapart : (seen ++ [tag]).Pairwise fun a b => a.stop ≤ b.start)
    (hclosing : tag.closing = true → tag.selfClosing = false)
    (hstep : runsStep paragraph base s tag = .ok s') : RunsRead base start (seen ++ [tag]) s' := by
  have hafter : ∀ done ∈ s.runs, done.stop ≤ base + tag.start := by
    intro done hdone
    obtain ⟨before, opened, after, rfl, -, ⟨last, hlast, hstop⟩, -⟩ := h.run done hdone
    have := (pairwise_append.mp hapart).2.2 last (mem_append_right _ hlast) tag
      mem_cons_self
    omega
  have hrun : ∀ done ∈ s.runs, ReadIn base start (seen ++ [tag]) done :=
    fun done hdone => (h.run done hdone).concat tag
  have hfold : (seen ++ [tag]).foldl Levels.enter start =
      (seen.foldl Levels.enter start).enter tag := by
    rw [foldl_append]
    rfl
  rw [runsStep] at hstep
  cases hcurrent : s.current with
  | none =>
    have hdepth := h.depth hcurrent
    simp only [hcurrent] at hstep
    cases hclose : tag.closing with
    | true =>
      rw [if_pos hclose] at hstep
      obtain rfl := Except.ok.inj hstep
      refine ⟨h.apart, hrun, fun _ => ?_, by simp⟩
      rw [hfold, Levels.length_closing _ hclose, ← hdepth]
    | false =>
      rw [if_neg (by simp [hclose])] at hstep
      cases hself : tag.selfClosing with
      | true =>
        obtain rfl : s = s' := by simpa [hself] using hstep
        refine ⟨h.apart, hrun, fun _ => ?_, by simp [hcurrent]⟩
        rw [hfold, Levels.length_selfClosing _ hclose hself, ← hdepth]
      | false =>
        have hopening := Levels.length_opening (seen.foldl Levels.enter start) hclose hself
        split at hstep
        next hname =>
          obtain rfl := Except.ok.inj hstep
          refine ⟨h.apart, hrun, by simp, fun run hopen => ?_⟩
          obtain rfl := Option.some.inj hopen
          exact ⟨Nat.one_pos, by rw [hfold, hopening, hdepth], hafter, seen, [], rfl,
            by rw [hdepth]⟩
        next hname =>
          obtain rfl : ⟨s.runs, s.depth + 1, none⟩ = s' := by simpa [hself] using hstep
          refine ⟨h.apart, hrun, fun _ => ?_, by simp⟩
          rw [hfold, hopening, ← hdepth]
  | some run =>
    obtain ⟨hpos, hlevel, hdone, before, after, rfl, hnested⟩ := h.current run hcurrent
    obtain ⟨htag, hsame⟩ := step_tag run tag
    have hinner := step_innerDepth tag hclosing hpos hlevel
    rw [← hfold] at hinner
    simp only [hcurrent] at hstep
    have hseen : before ++ run.tag :: after ++ [tag] =
        before ++ (run.step tag).tag :: (after ++ [tag]) := by simp [htag]
    split at hstep
    next hzero =>
      obtain ⟨hnone, hdepth, hrun', hapart'⟩ := readIn_push hrun h.apart (htag ▸ hdone) hseen
        (hsame ▸ hnested) (by simp) hstep
      refine ⟨hapart', hrun', fun _ => ?_, by simp [hnone]⟩
      rw [hinner, hzero, hdepth, Nat.add_zero]
    next hne =>
      obtain rfl := Except.ok.inj hstep
      refine ⟨h.apart, hrun, by simp, fun open' hopen => ?_⟩
      obtain rfl := Option.some.inj hopen
      exact ⟨Nat.pos_of_ne_zero hne, hinner, htag ▸ hdone, before, after ++ [tag], hseen,
        hsame ▸ hnested⟩

/-- The tags of a paragraph, one after the other. -/
theorem RunsRead.foldlM : ∀ {tags seen : List Tag} {s : RunsState}, RunsRead base start seen s →
    (seen ++ tags).Pairwise (fun a b => a.stop ≤ b.start) →
    (∀ tag ∈ tags, tag.closing = true → tag.selfClosing = false) →
    tags.foldlM (runsStep paragraph base) s = .ok s' → RunsRead base start (seen ++ tags) s'
  | [], seen, s, h, _, _, hfold => by
    obtain rfl := Except.ok.inj hfold
    simpa using h
  | tag :: rest, seen, s, h, hapart, hclosing, hfold => by
    rw [foldlM_cons] at hfold
    obtain ⟨next, hstep, hfold⟩ := bind_eq_ok hfold
    obtain ⟨htag, hrest⟩ := forall_mem_cons.mp hclosing
    rw [← singleton_append, ← append_assoc] at hapart ⊢
    exact (h.step (pairwise_append.mp hapart).1 htag hstep).foldlM hapart hrest hfold

/-- Where a run lies. -/
theorem ReadIn.inside {lo hi : ℕ} {run : RunSpan} (h : ReadIn base start seen run)
    (hordered : Ordered lo hi seen) :
    base + lo ≤ run.start ∧ run.start < run.stop ∧ run.stop ≤ base + hi := by
  obtain ⟨before, tag, after, rfl, hstart, ⟨last, hlast, hstop⟩, -⟩ := h
  have htag := hordered.inside tag (by simp)
  have hend := hordered.inside last (mem_append_right _ hlast)
  have hle : tag.stop ≤ last.stop := by
    rcases mem_cons.mp hlast with rfl | hlast
    · exact le_rfl
    · have := (pairwise_cons.mp (pairwise_append.mp hordered.apart).2.1).1 last hlast
      omega
  omega

/-- The runs of a paragraph. -/
theorem runsOf_read {runs : List RunSpan} (start : Levels) (hstart : start.inner = [])
    (hclosing : ∀ tag ∈ scanTags paragraph, tag.closing = true → tag.selfClosing = false)
    (h : runsOf paragraph base = .ok runs) :
    (∀ run ∈ runs, ReadIn base start (scanTags paragraph) run) ∧
      runs.Pairwise fun a b => a.stop ≤ b.start := by
  rw [runsOf] at h
  obtain ⟨s, hfold, h⟩ := bind_eq_ok h
  obtain ⟨s', hfinish, h⟩ := bind_eq_ok h
  split at h
  · cases h
  obtain rfl := Except.ok.inj h
  have hread : RunsRead base start (scanTags paragraph) s := by
    have hempty : RunsRead base start [] ⟨[], 0, none⟩ :=
      ⟨.nil, by simp, by simp [hstart], by simp⟩
    simpa using hempty.foldlM (by simpa using (ordered_scanTags paragraph).apart) hclosing hfold
  rw [RunsState.finish] at hfinish
  cases hcurrent : s.current with
  | none =>
    rw [hcurrent] at hfinish
    obtain rfl := Except.ok.inj hfinish
    exact ⟨hread.run, hread.apart⟩
  | some run =>
    obtain ⟨-, -, hdone, before, after, hseen, hnested⟩ := hread.current run hcurrent
    rw [hcurrent] at hfinish
    obtain ⟨-, -, hrun, hapart⟩ := readIn_push hread.run hread.apart hdone hseen hnested
      mem_cons_self hfinish
    exact ⟨hrun, hapart⟩

end RunsRead

end Docx2Typed.Format
