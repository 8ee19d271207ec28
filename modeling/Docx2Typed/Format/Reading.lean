import Docx2Typed.Format.Materialize
import Docx2Typed.Library.Whole
import Docx2Typed.XmlWalker.Compose

/-!
# Reading a range piece by piece

What `runs_of` reads of a range it reads of the pieces the range is cut into at its tags, each from
the depth the one before it ends at: `Reads.append`.
-/

namespace Docx2Typed.Format

open Library List

/-! ## Tags -/

/-- A prefix that does not start a list with a `>` in it, and has none itself, never does. -/
theorem not_prefix_append {p rest : Bytes} (ys : Bytes) (hp : byte '>' ∉ p)
    (hrest : byte '>' ∈ rest) (h : ¬ p <+: rest) : ¬ p <+: rest ++ ys := by
  intro hpre
  rcases prefix_or_prefix_of_prefix hpre (List.prefix_append rest ys) with hshort | hlong
  · exact h hshort
  · exact hp (hlong.subset hrest)

/-- A prefix no longer than the list is one of the list alone. -/
theorem not_prefix_append_of_le {p rest : Bytes} (ys : Bytes) (hle : p.length ≤ rest.length)
    (h : ¬ p <+: rest) : ¬ p <+: rest ++ ys :=
  fun hpre => h ((prefix_append_iff_of_length ys hle).mp hpre)

theorem findSub_width_append {needle rest : Bytes} {k n : ℕ} (ys : Bytes)
    (h : (findSub needle rest).map (· + k) = some n) :
    (findSub needle (rest ++ ys)).map (· + k) = some n := by
  obtain ⟨i, hi, rfl⟩ := Option.map_eq_some_iff.mp h
  rw [findSub_append_of_eq_some ys hi]
  rfl

theorem tokenWidth_append {rest : Bytes} {n : ℕ} (ys : Bytes) (h : tokenWidth rest = some n) :
    tokenWidth (rest ++ ys) = some n := by
  have hyes : ∀ {p : Bytes}, p <+: rest → p <+: rest ++ ys := fun hp =>
    hp.trans (List.prefix_append _ _)
  rw [tokenWidth] at h ⊢
  by_cases hcomment : bytes "<!--" <+: rest
  · rw [if_pos hcomment] at h
    rw [if_pos (hyes hcomment)]
    exact findSub_width_append ys h
  rw [if_neg hcomment] at h
  by_cases hcdata : bytes "<![CDATA[" <+: rest
  · have hle := hcdata.length_le
    have hnine : (bytes "<![CDATA[").length = 9 := by decide
    rw [if_pos hcdata] at h
    rw [if_neg (not_prefix_append_of_le ys (show 4 ≤ _ by omega) hcomment), if_pos (hyes hcdata)]
    exact findSub_width_append ys h
  rw [if_neg hcdata] at h
  by_cases hinstruction : bytes "<?" <+: rest
  · have hother : ∀ p : Bytes, 2 ≤ p.length → ¬ bytes "<?" <+: p → ¬ p <+: rest ++ ys := by
      intro p hp hnot hpre
      exact hnot (prefix_of_prefix_length_le (hyes hinstruction) hpre
        ((by decide : (bytes "<?").length = 2) ▸ hp))
    rw [if_pos hinstruction] at h
    rw [if_neg (hother _ (by decide) (by decide)), if_neg (hother _ (by decide) (by decide)),
      if_pos (hyes hinstruction)]
    exact findSub_width_append ys h
  rw [if_neg hinstruction] at h
  have hgt : byte '>' ∈ rest := by
    obtain ⟨i, hi, -⟩ := Option.map_eq_some_iff.mp h
    obtain ⟨⟨after, hafter⟩, -, -⟩ := findSub_eq_some_iff.mp hi
    have : byte '>' ∈ rest.drop i := by
      rw [hafter]
      exact mem_cons_self
    exact mem_of_mem_drop this
  rw [if_neg (not_prefix_append ys (by decide) hgt hcomment),
    if_neg (not_prefix_append ys (by decide) hgt hcdata),
    if_neg (not_prefix_append ys (by decide) hgt hinstruction)]
  exact findSub_width_append ys h

theorem settles_tokenWidth : Settles (byte '<') tokenWidth where
  toMeasures := measures_tokenWidth
  append ys h := tokenWidth_append ys h

/-- Bytes that are scanned alike whatever follows. -/
def WholeXml (xml : Bytes) : Prop := Whole (byte '<') tokenWidth xml

/-- The tags of bytes put together. -/
theorem scanTags_append {u : Bytes} (hu : WholeXml u) (v : Bytes) :
    scanTags (u ++ v) = scanTags u ++ (scanTags v).map (Tag.shift u.length) := by
  have hscan := hu 0 v
  rw [Nat.zero_add] at hscan
  have hshift := scan_shift (byte '<') tokenWidth u.length v 0 0
  rw [Nat.add_zero] at hshift
  rw [scanTags, hscan, hshift, filterMap_append, scanTags, scanTags, filterMap_map,
    map_filterMap]
  congr 1
  · refine filterMap_congr fun span hspan => ?_
    have hinside := scan_inside measures_tokenWidth hspan
    rw [slice_append_left _ _ (by omega)]
  · refine filterMap_congr fun span _ => ?_
    rw [← readTag_shift, ← slice_append_right u v]
    rfl

/-! ## Runs -/

/-- The run, `k` bytes further on. -/
def OpenRun.shift (k : ℕ) (run : OpenRun) : OpenRun :=
  { run with
    tag := run.tag.shift k
    rpr := run.rpr.map fun entry => (k + entry.1, entry.2.map (k + ·))
    text := run.text.map fun entry => (k + entry.1, entry.2.map (k + ·)) }

/-- The state when `done` has been read before and the bytes stand at `k`. -/
def RunsState.at (s : RunsState) (done : List RunSpan) (k : ℕ) : RunsState :=
  ⟨done ++ s.runs, s.depth, s.current.map (OpenRun.shift k)⟩

/-- What is kept of a run lies in the first `n` bytes. -/
structure OpenRun.Within (n : ℕ) (run : OpenRun) : Prop where
  tag : run.tag.stop ≤ n
  rpr : ∀ start stop, run.rpr = some (start, some stop) → stop ≤ n
  text : ∀ start stop, run.text = some (start, some stop) → stop ≤ n

section At

variable {paragraph xml : Bytes} {base k : ℕ} {run : OpenRun} {tag : Tag} {s s' : RunsState}

theorem openChild_shift (k : ℕ) (run : OpenRun) (tag : Tag) :
    (run.shift k).openChild (tag.shift k) = (run.openChild tag).shift k := by
  have hname : (tag.shift k).name = tag.name := rfl
  rw [OpenRun.openChild, OpenRun.openChild, hname]
  by_cases hrpr : tag.name = "rPr"
  · rw [if_pos hrpr, if_pos hrpr]
    rfl
  rw [if_neg hrpr, if_neg hrpr]
  by_cases htext : tag.name = "t"
  · rw [if_pos htext, if_pos htext]
    rfl
  · rw [if_neg htext, if_neg htext]
    rfl

theorem closeChild_shift (k : ℕ) (run : OpenRun) (tag : Tag) :
    (run.shift k).closeChild (tag.shift k) = (run.closeChild tag).shift k := by
  obtain ⟨opening, innerDepth, rpr, text, structured, nested⟩ := run
  have hname : (tag.shift k).name = tag.name := rfl
  rw [OpenRun.closeChild, OpenRun.closeChild, hname]
  by_cases hrpr : tag.name = "rPr"
  · rw [if_pos hrpr, if_pos hrpr]
    cases rpr <;> rfl
  rw [if_neg hrpr, if_neg hrpr]
  by_cases htext : tag.name = "t"
  · rw [if_pos htext, if_pos htext]
    cases text <;> rfl
  · rw [if_neg htext, if_neg htext]
    rfl

theorem step_shift (k : ℕ) (run : OpenRun) (tag : Tag) :
    (run.shift k).step (tag.shift k) = (run.step tag).shift k := by
  have hclosing : (tag.shift k).closing = tag.closing := rfl
  have hself : (tag.shift k).selfClosing = tag.selfClosing := rfl
  have hdepth : (run.shift k).innerDepth = run.innerDepth := rfl
  rw [OpenRun.step, OpenRun.step, openChild_shift, closeChild_shift, hclosing, hself, hdepth]
  cases tag.closing <;> cases tag.selfClosing <;> by_cases hone : run.innerDepth = 1 <;>
    by_cases htwo : run.innerDepth = 2 <;> simp only [hone, htwo] <;> rfl

theorem OpenRun.Within.openChild {n : ℕ} (h : run.Within n) (tag : Tag) :
    (run.openChild tag).Within n := by
  rw [OpenRun.openChild]
  split_ifs
  · exact ⟨h.tag, by simp, h.text⟩
  · exact ⟨h.tag, h.rpr, by simp⟩
  · exact ⟨h.tag, h.rpr, h.text⟩

theorem OpenRun.Within.closeChild {n : ℕ} (h : run.Within n) (hstart : tag.start ≤ n)
    (hstop : tag.stop ≤ n) : (run.closeChild tag).Within n := by
  have hentry : ∀ {entry : Option (ℕ × Option ℕ)} {m start stop : ℕ}, m ≤ n →
      (entry.map fun entry => (entry.1, some m)) = some (start, some stop) → stop ≤ n := by
    intro entry m start stop hm hsome
    obtain ⟨entry, -, heq⟩ := Option.map_eq_some_iff.mp hsome
    have : m = stop := Option.some.inj (Prod.ext_iff.mp heq).2
    omega
  rw [OpenRun.closeChild]
  split_ifs
  · exact ⟨h.tag, fun _ _ => hentry hstop, h.text⟩
  · exact ⟨h.tag, h.rpr, fun _ _ => hentry hstart⟩
  · exact ⟨h.tag, h.rpr, h.text⟩

theorem OpenRun.Within.step {n : ℕ} (h : run.Within n) (hstart : tag.start ≤ n)
    (hstop : tag.stop ≤ n) : (run.step tag).Within n := by
  rw [OpenRun.step]
  split_ifs
  · exact ⟨(h.openChild tag).tag, (h.openChild tag).rpr, (h.openChild tag).text⟩
  · exact ⟨h.tag, h.rpr, h.text⟩
  · exact ⟨h.tag, h.rpr, h.text⟩
  · exact h
  · have hchild := h.closeChild hstart hstop
    exact ⟨hchild.tag, hchild.rpr, hchild.text⟩
  · exact ⟨h.tag, h.rpr, h.text⟩

/-- The bytes of `xml` stand at `k` in the paragraph. -/
def StandsAt (paragraph xml : Bytes) (k : ℕ) : Prop :=
  ∀ i j, j ≤ xml.length → slice paragraph (k + i) (k + j) = slice xml i j

section

variable (hat : StandsAt paragraph xml k)

include hat

theorem rangeBytes_shift {entry : Option (ℕ × Option ℕ)}
    (h : ∀ start stop, entry = some (start, some stop) → stop ≤ xml.length) :
    rangeBytes paragraph (entry.map fun entry => (k + entry.1, entry.2.map (k + ·))) =
      rangeBytes xml entry := by
  cases entry with
  | none => rfl
  | some entry =>
    obtain ⟨start, stop⟩ := entry
    cases stop with
    | none => rfl
    | some stop => exact congrArg Except.ok (hat start stop (h start stop rfl))

theorem close_shift (h : run.Within xml.length) (runEnd : ℕ) :
    (run.shift k).close paragraph base (k + runEnd) = run.close xml (base + k) runEnd := by
  have htag : slice paragraph (run.shift k).tag.start (run.shift k).tag.stop =
      slice xml run.tag.start run.tag.stop := hat _ _ h.tag
  have hstart : base + (run.shift k).tag.start = base + k + run.tag.start :=
    (Nat.add_assoc ..).symm
  rw [OpenRun.close, OpenRun.close, htag, hstart, ← Nat.add_assoc]
  have htext := rangeBytes_shift hat h.text
  have hrpr := rangeBytes_shift hat h.rpr
  have hsome : (run.shift k).text.isSome = run.text.isSome := by
    rw [OpenRun.shift, Option.isSome_map]
  rw [hsome]
  simp only [OpenRun.shift] at htext hrpr ⊢
  rw [htext, hrpr]

theorem push_at (h : run.Within xml.length) (done : List RunSpan) (s : RunsState) (runEnd : ℕ) :
    (s.at done k).push paragraph base (run.shift k) (k + runEnd) =
      (s.push xml (base + k) run runEnd).map (·.at done k) := by
  rw [RunsState.push, RunsState.push, close_shift hat h]
  cases run.close xml (base + k) runEnd with
  | error e => rfl
  | ok span =>
    simp only [Except.map, RunsState.at, Option.map_none, append_assoc]

/-- One tag. -/
theorem runsStep_at (done : List RunSpan) (hs : ∀ run, s.current = some run → run.Within xml.length)
    (hstart : tag.start ≤ xml.length) (hstop : tag.stop ≤ xml.length) :
    runsStep paragraph base (s.at done k) (tag.shift k) =
      (runsStep xml (base + k) s tag).map (·.at done k) := by
  obtain ⟨runs, depth, current⟩ := s
  rw [runsStep, runsStep]
  cases current with
  | none =>
    have hclosing : (tag.shift k).closing = tag.closing := rfl
    have hself : (tag.shift k).selfClosing = tag.selfClosing := rfl
    have hname : (tag.shift k).name = tag.name := rfl
    simp only [RunsState.at, Option.map_none, hclosing, hself, hname]
    by_cases hclose : tag.closing = true
    · rw [if_pos hclose, if_pos hclose]
      rfl
    rw [if_neg hclose, if_neg hclose]
    by_cases hrun : tag.name = "r" ∧ tag.selfClosing = false
    · rw [if_pos hrun, if_pos hrun]
      rfl
    rw [if_neg hrun, if_neg hrun]
    by_cases hopen : tag.selfClosing = false
    · rw [if_pos hopen, if_pos hopen]
      rfl
    · rw [if_neg hopen, if_neg hopen]
      rfl
  | some run =>
    have hwithin := (hs run rfl).step hstart hstop
    have hdepth : ((run.step tag).shift k).innerDepth = (run.step tag).innerDepth := rfl
    simp only [RunsState.at, Option.map_some, step_shift, hdepth]
    split_ifs
    · exact push_at hat hwithin done ⟨runs, depth, some run⟩ tag.stop
    · rfl

end

theorem within_runsStep {n : ℕ} (hs : ∀ run, s.current = some run → run.Within n)
    (hstart : tag.start ≤ n) (hstop : tag.stop ≤ n) (h : runsStep xml base s tag = .ok s') :
    ∀ run, s'.current = some run → run.Within n := by
  rw [runsStep] at h
  cases hcurrent : s.current with
  | none =>
    simp only [hcurrent] at h
    split_ifs at h <;> obtain rfl := Except.ok.inj h <;> intro run hrun
    · cases hrun
    · obtain rfl := Option.some.inj hrun
      exact ⟨hstop, by simp, by simp⟩
    · cases hrun
    · rw [hcurrent] at hrun
      cases hrun
  | some run =>
    simp only [hcurrent] at h
    split_ifs at h
    · rw [RunsState.push] at h
      cases hclose : (run.step tag).close xml base tag.stop with
      | error e => rw [hclose] at h; cases h
      | ok span =>
        rw [hclose] at h
        obtain rfl := Except.ok.inj h
        simp
    · obtain rfl := Except.ok.inj h
      intro run' hrun
      obtain rfl := Option.some.inj hrun
      exact (hs run hcurrent).step hstart hstop

/-- The tags of the bytes, read where they stand. -/
theorem foldlM_at (hat : StandsAt paragraph xml k) (done : List RunSpan) : ∀ {tags : List Tag}
    {s : RunsState}, (∀ run, s.current = some run → run.Within xml.length) →
      (∀ tag ∈ tags, tag.start ≤ xml.length ∧ tag.stop ≤ xml.length) →
        (tags.map (Tag.shift k)).foldlM (runsStep paragraph base) (s.at done k) =
          (tags.foldlM (runsStep xml (base + k)) s).map (·.at done k)
  | [], _, _, _ => rfl
  | tag :: rest, s, hs, htags => by
    obtain ⟨⟨hstart, hstop⟩, hrest⟩ := forall_mem_cons.mp htags
    rw [map_cons, foldlM_cons, foldlM_cons, runsStep_at hat done hs hstart hstop]
    cases hstep : runsStep xml (base + k) s tag with
    | error e => rfl
    | ok next =>
      exact foldlM_at hat done (within_runsStep hs hstart hstop hstep) hrest

end At

/-! ## Pieces -/

/-- The run, where the bytes stand at `k`. -/
def RunSpan.raise (k : ℕ) (span : RunSpan) : RunSpan :=
  { span with start := k + span.start, stop := k + span.stop }

def RunsState.raise (k : ℕ) (s : RunsState) : RunsState :=
  { s with runs := s.runs.map (RunSpan.raise k) }

section Raise

variable {xml : Bytes} {base : ℕ} {s : RunsState} {tag : Tag}

theorem close_raise (k : ℕ) (run : OpenRun) (runEnd : ℕ) :
    run.close xml (k + base) runEnd = (run.close xml base runEnd).map (RunSpan.raise k) := by
  rw [OpenRun.close, OpenRun.close]
  cases rangeBytes xml run.text with
  | error e => rfl
  | ok raw =>
    cases rangeBytes xml run.rpr with
    | error e => rfl
    | ok rpr =>
      exact congrArg Except.ok (by simp only [RunSpan.raise, Nat.add_assoc])

theorem push_raise (k : ℕ) (s : RunsState) (run : OpenRun) (runEnd : ℕ) :
    (s.raise k).push xml (k + base) run runEnd = (s.push xml base run runEnd).map (·.raise k) := by
  rw [RunsState.push, RunsState.push, close_raise]
  cases run.close xml base runEnd with
  | error e => rfl
  | ok span => exact congrArg Except.ok (by simp [RunsState.raise])

theorem runsStep_raise (k : ℕ) (s : RunsState) (tag : Tag) :
    runsStep xml (k + base) (s.raise k) tag = (runsStep xml base s tag).map (·.raise k) := by
  obtain ⟨runs, depth, current⟩ := s
  rw [runsStep, runsStep]
  cases current with
  | none =>
    simp only [RunsState.raise]
    by_cases hclose : tag.closing = true
    · rw [if_pos hclose, if_pos hclose]
      rfl
    rw [if_neg hclose, if_neg hclose]
    by_cases hrun : tag.name = "r" ∧ tag.selfClosing = false
    · rw [if_pos hrun, if_pos hrun]
      rfl
    rw [if_neg hrun, if_neg hrun]
    by_cases hopen : tag.selfClosing = false
    · rw [if_pos hopen, if_pos hopen]
      rfl
    · rw [if_neg hopen, if_neg hopen]
      rfl
  | some run =>
    simp only [RunsState.raise]
    by_cases hzero : (run.step tag).innerDepth = 0
    · rw [if_pos hzero, if_pos hzero]
      exact push_raise k ⟨runs, depth, some run⟩ (run.step tag) tag.stop
    · rw [if_neg hzero, if_neg hzero]
      rfl

theorem foldlM_raise (k : ℕ) : ∀ (tags : List Tag) (s : RunsState),
    tags.foldlM (runsStep xml (k + base)) (s.raise k) =
      (tags.foldlM (runsStep xml base) s).map (·.raise k)
  | [], _ => rfl
  | tag :: rest, s => by
    rw [foldlM_cons, foldlM_cons, runsStep_raise]
    cases runsStep xml base s tag with
    | error e => rfl
    | ok next => exact foldlM_raise k rest next

end Raise

/-- The tags of some bytes, from a depth on. -/
def readFrom (xml : Bytes) (base depth : ℕ) : Except Failed RunsState :=
  (scanTags xml).foldlM (runsStep xml base) ⟨[], depth, none⟩

/-- The bytes hold these runs and no open one, and end at this depth. -/
structure Reads (xml : Bytes) (depth : ℕ) (runs : List RunSpan) (depth' : ℕ) : Prop where
  whole : WholeXml xml
  reads : readFrom xml 0 depth = .ok ⟨runs, depth', none⟩
  inside : ∀ run ∈ runs, run.stop ≤ xml.length

section Reads

variable {u v : Bytes} {depth depth' depth'' : ℕ} {runs more : List RunSpan}

theorem standsAt_zero (u v : Bytes) : StandsAt (u ++ v) u 0 := fun i j hj => by
  rw [Nat.zero_add, Nat.zero_add, slice_append_left _ _ hj]

theorem standsAt_length (u v : Bytes) : StandsAt (u ++ v) v u.length :=
  fun i j _ => slice_append_right u v i j

theorem scanTags_inside (xml : Bytes) :
    ∀ tag ∈ scanTags xml, tag.start ≤ xml.length ∧ tag.stop ≤ xml.length := fun tag htag => by
  have := (ordered_scanTags xml).inside tag htag
  omega

/-- What is read where the bytes stand first. -/
theorem foldlM_front (v : Bytes) (depth : ℕ) :
    (scanTags u).foldlM (runsStep (u ++ v) 0) ⟨[], depth, none⟩ = readFrom u 0 depth := by
  have h : ((scanTags u).map (Tag.shift 0)).foldlM (runsStep (u ++ v) 0)
      (RunsState.at ⟨[], depth, none⟩ [] 0) =
        ((scanTags u).foldlM (runsStep u (0 + 0)) ⟨[], depth, none⟩).map (·.at [] 0) :=
    foldlM_at (standsAt_zero u v) [] (by simp) (scanTags_inside u)
  have htags : (scanTags u).map (Tag.shift 0) = scanTags u := by
    have : Tag.shift 0 = id := funext fun tag => by simp [Tag.shift]
    rw [this, map_id]
  have hstate : ∀ s : RunsState, s.at [] 0 = s := fun s => by
    have : OpenRun.shift 0 = id := funext fun run => by
      simp [OpenRun.shift, Tag.shift]
    simp [RunsState.at, this]
  rw [htags, hstate, funext hstate] at h
  rw [h, readFrom]
  cases (scanTags u).foldlM (runsStep u (0 + 0)) ⟨[], depth, none⟩ <;> rfl

/-- What is read of bytes that stand in others. -/
theorem foldlM_standing {paragraph : Bytes} {k : ℕ} (hat : StandsAt paragraph v k)
    (runs : List RunSpan) (depth : ℕ) :
    ((scanTags v).map (Tag.shift k)).foldlM (runsStep paragraph 0) ⟨runs, depth, none⟩ =
      (readFrom v 0 depth).map fun s => (s.raise k).at runs k := by
  have h : ((scanTags v).map (Tag.shift k)).foldlM (runsStep paragraph 0)
      (RunsState.at ⟨[], depth, none⟩ runs k) =
        ((scanTags v).foldlM (runsStep v (0 + k)) ⟨[], depth, none⟩).map (·.at runs k) :=
    foldlM_at hat runs (by simp) (scanTags_inside v)
  have hraise : (scanTags v).foldlM (runsStep v (k + 0)) (RunsState.raise k ⟨[], depth, none⟩) =
      ((scanTags v).foldlM (runsStep v 0) ⟨[], depth, none⟩).map (·.raise k) :=
    foldlM_raise k (scanTags v) ⟨[], depth, none⟩
  have hempty : (⟨[], depth, none⟩ : RunsState).raise k = ⟨[], depth, none⟩ := rfl
  have hstart : (⟨[], depth, none⟩ : RunsState).at runs k = ⟨runs, depth, none⟩ := by
    simp [RunsState.at]
  rw [hempty, Nat.add_comm] at hraise
  rw [hstart, hraise] at h
  rw [h, readFrom]
  cases (scanTags v).foldlM (runsStep v 0) ⟨[], depth, none⟩ <;> rfl

/-- Where that leaves no open run. -/
theorem readFrom_standing {paragraph : Bytes} {k : ℕ} {all : List RunSpan}
    (hat : StandsAt paragraph v k)
    (h : ((scanTags v).map (Tag.shift k)).foldlM (runsStep paragraph 0) ⟨runs, depth, none⟩ =
      .ok ⟨all, depth', none⟩) :
    ∃ more, readFrom v 0 depth = .ok ⟨more, depth', none⟩ ∧
      all = runs ++ more.map (RunSpan.raise k) := by
  rw [foldlM_standing hat] at h
  cases hread : readFrom v 0 depth with
  | error e => rw [hread] at h; cases h
  | ok s =>
    rw [hread] at h
    obtain ⟨more, depth₁, current⟩ := s
    obtain ⟨hruns, hdepth, hcurrent⟩ := RunsState.mk.inj (Except.ok.inj h)
    obtain rfl : depth₁ = depth' := hdepth
    obtain rfl : current = none := Option.map_eq_none_iff.mp hcurrent
    exact ⟨more, rfl, hruns.symm⟩

theorem Reads.readFrom_append (h : Reads u depth runs depth') (v : Bytes) :
    readFrom (u ++ v) 0 depth =
      (readFrom v 0 depth').map fun s => (s.raise u.length).at runs u.length := by
  have hu : (scanTags u).foldlM (runsStep (u ++ v) 0) ⟨[], depth, none⟩ =
      .ok ⟨runs, depth', none⟩ := (foldlM_front v depth).trans h.reads
  rw [readFrom, scanTags_append h.whole, foldlM_append, bind_ok hu,
    foldlM_standing (standsAt_length u v)]

theorem Reads.readFrom_append_ok (h : Reads u depth runs depth')
    (hv : readFrom v 0 depth' = .ok ⟨more, depth'', none⟩) :
    readFrom (u ++ v) 0 depth = .ok ⟨runs ++ more.map (RunSpan.raise u.length), depth'', none⟩ := by
  rw [h.readFrom_append, hv]
  rfl

theorem Reads.append (hu : Reads u depth runs depth') (hv : Reads v depth' more depth'') :
    Reads (u ++ v) depth (runs ++ more.map (RunSpan.raise u.length)) depth'' where
  whole := hu.whole.append hv.whole
  reads := hu.readFrom_append_ok hv.reads
  inside run hrun := by
    rw [length_append]
    rcases mem_append.mp hrun with hrun | hrun
    · have := hu.inside run hrun
      omega
    · obtain ⟨span, hspan, rfl⟩ := mem_map.mp hrun
      have := hv.inside span hspan
      simp only [RunSpan.raise]
      omega

theorem reads_nil (depth : ℕ) : Reads [] depth [] depth :=
  ⟨whole_nil, rfl, by simp⟩

end Reads

/-! ## Ranges that nest -/

/-- The open elements after a tag, innermost first; a closing tag closes the innermost one by its
name, and one with nothing open before it is passed over. -/
def nestTag (names : List String) (tag : Tag) : Option (List String) :=
  if tag.closing then
    if tag.selfClosing then none
    else
      match names with
      | [] => some []
      | name :: rest => if name = tag.name then some rest else none
  else if tag.selfClosing then some names
  else some (tag.name :: names)

/-- The elements of a range nest, and no run is left open. -/
def Nests (xml : Bytes) : Prop :=
  ∃ names ∈ (scanTags xml).foldlM nestTag [], "r" ∉ names

instance (xml : Bytes) : Decidable (Nests xml) :=
  decidable_of_iff (((scanTags xml).foldlM nestTag []).map (fun names => decide ("r" ∉ names)) =
    some true) (by simp [Nests, Option.map_eq_some_iff])

/-- What an open run knows of the elements open in it. -/
def OpenIn (names : List String) (run : OpenRun) : Prop :=
  ∃ inner outer, names = inner ++ "r" :: outer ∧ run.innerDepth = inner.length + 1 ∧
    (∀ start, run.rpr = some (start, none) → inner.getLast? = some "rPr") ∧
    ∀ start, run.text = some (start, none) → inner.getLast? = some "t"

/-- Both ranges of a run have ended. -/
def OpenRun.Ended (run : OpenRun) : Prop :=
  (∀ start, run.rpr ≠ some (start, none)) ∧ ∀ start, run.text ≠ some (start, none)

section Nests

variable {names names' inner outer : List String} {run : OpenRun} {tag : Tag} {xml : Bytes}
  {base : ℕ}

theorem OpenRun.Ended.of_nil (hrpr : ∀ start, run.rpr = some (start, none) →
      ([] : List String).getLast? = some "rPr")
    (htext : ∀ start, run.text = some (start, none) → ([] : List String).getLast? = some "t") :
    run.Ended :=
  ⟨fun start h => absurd (hrpr start h) (by simp), fun start h => absurd (htext start h) (by simp)⟩

/-- Every child of the run that closes ends its range. -/
theorem closeChild_ended {name : String} (hname : name = tag.name)
    (hrpr : ∀ start, run.rpr = some (start, none) → [name].getLast? = some "rPr")
    (htext : ∀ start, run.text = some (start, none) → [name].getLast? = some "t") :
    (run.closeChild tag).Ended := by
  have hclosed : ∀ {entry : Option (ℕ × Option ℕ)} {n start : ℕ},
      (entry.map fun entry => (entry.1, some n)) ≠ some (start, none) := by
    intro entry n start h
    cases entry <;> cases h
  subst hname
  rw [OpenRun.closeChild]
  split_ifs with hr ht
  · refine ⟨fun start => hclosed, fun start h => ?_⟩
    have hsame : tag.name = "t" := Option.some.inj (htext start h)
    exact absurd (hr.symm.trans hsame) (by decide)
  · refine ⟨fun start h => ?_, fun start => hclosed⟩
    exact hr (Option.some.inj (hrpr start h))
  · exact ⟨fun start h => hr (Option.some.inj (hrpr start h)),
      fun start h => ht (Option.some.inj (htext start h))⟩

theorem openIn_opened (hdepth : run.innerDepth = inner.length + 1)
    (hrpr : ∀ start, run.rpr = some (start, none) → inner.getLast? = some "rPr")
    (htext : ∀ start, run.text = some (start, none) → inner.getLast? = some "t") :
    OpenIn (tag.name :: (inner ++ "r" :: outer))
      { (if run.innerDepth = 1 then run.openChild tag else run) with
        innerDepth := run.innerDepth + 1 } := by
  refine ⟨tag.name :: inner, outer, rfl, by simp [hdepth], ?_⟩
  cases inner with
  | nil =>
    obtain ⟨hnoRpr, hnoText⟩ := OpenRun.Ended.of_nil hrpr htext
    rw [if_pos (by simpa using hdepth), OpenRun.openChild]
    split_ifs with hr ht
    · exact ⟨fun start _ => congrArg some hr, fun start h => (hnoText start h).elim⟩
    · exact ⟨fun start h => (hnoRpr start h).elim, fun start _ => congrArg some ht⟩
    · exact ⟨fun start h => (hnoRpr start h).elim, fun start h => (hnoText start h).elim⟩
  | cons name rest =>
    rw [if_neg (by simp [hdepth]), getLast?_cons_cons]
    exact ⟨hrpr, htext⟩

/-- One tag: the run closes, its ranges ended, or it stays open. -/
theorem OpenIn.step (h : OpenIn names run) (hnest : nestTag names tag = some names') :
    (run.step tag).innerDepth = 0 ∧ (run.step tag).Ended ∨
      0 < (run.step tag).innerDepth ∧ OpenIn names' (run.step tag) := by
  obtain ⟨inner, outer, rfl, hdepth, hrpr, htext⟩ := h
  unfold nestTag at hnest
  rw [OpenRun.step]
  cases hclosing : tag.closing with
  | true =>
    cases hself : tag.selfClosing with
    | true => simp [hclosing, hself] at hnest
    | false =>
      simp only [hclosing, hself, Bool.not_true, Bool.false_and, Bool.false_eq_true, if_true,
        if_false] at hnest ⊢
      cases inner with
      | nil =>
        rw [if_neg (by simp [hdepth])]
        exact .inl ⟨by simp [hdepth], OpenRun.Ended.of_nil hrpr htext⟩
      | cons name rest =>
        simp only [cons_append] at hnest
        split at hnest
        next hname =>
          obtain rfl := Option.some.inj hnest
          refine .inr ⟨?_, rest, outer, rfl, by simp [hdepth], ?_⟩
          · simp [hdepth]
          · cases rest with
            | nil =>
              obtain ⟨hr, ht⟩ := closeChild_ended hname hrpr htext
              rw [if_pos (by simp [hdepth])]
              exact ⟨fun start h => (hr start h).elim, fun start h => (ht start h).elim⟩
            | cons next rest =>
              rw [if_neg (by simp [hdepth])]
              rw [getLast?_cons_cons] at hrpr htext
              exact ⟨hrpr, htext⟩
        next => cases hnest
  | false =>
    simp only [hclosing, Bool.not_false, Bool.true_and, Bool.false_eq_true, if_false] at hnest ⊢
    cases hself : tag.selfClosing with
    | true =>
      simp only [hself, Bool.not_true, Bool.false_eq_true, if_true, if_false,
        Option.some.injEq] at hnest ⊢
      subst hnest
      refine .inr ⟨?_, inner, outer, rfl, ?_⟩
      · split_ifs <;> simp only [hdepth] <;> omega
      · split_ifs
        · exact ⟨hdepth, hrpr, htext⟩
        · exact ⟨hdepth, hrpr, htext⟩
    | false =>
      simp only [hself, Bool.not_false, Bool.false_eq_true, if_true, if_false,
        Option.some.injEq] at hnest ⊢
      subst hnest
      exact .inr ⟨Nat.succ_pos _, openIn_opened hdepth hrpr htext⟩

theorem exists_close (h : run.Ended) (runEnd : ℕ) :
    ∃ span, run.close xml base runEnd = .ok span := by
  have hrange : ∀ {entry : Option (ℕ × Option ℕ)}, (∀ start, entry ≠ some (start, none)) →
      ∃ bytes, rangeBytes xml entry = .ok bytes := by
    intro entry hentry
    rcases entry with _ | ⟨start, _ | stop⟩
    · exact ⟨_, rfl⟩
    · exact (hentry start rfl).elim
    · exact ⟨_, rfl⟩
  obtain ⟨raw, hraw⟩ := hrange h.2
  obtain ⟨rpr, hrpr⟩ := hrange h.1
  rw [OpenRun.close, bind_ok hraw, bind_ok hrpr]
  exact ⟨_, rfl⟩

/-- A range that nests is read to its end. -/
theorem foldlM_nests : ∀ {tags : List Tag} {names : List String} {s : RunsState},
    (∀ run, s.current = some run → OpenIn names run) → tags.foldlM nestTag names = some names' →
      ∃ s', tags.foldlM (runsStep xml base) s = .ok s' ∧
        ∀ run, s'.current = some run → OpenIn names' run
  | [], names, s, h, hnest => by
    obtain rfl : names = names' := Option.some.inj hnest
    exact ⟨s, rfl, h⟩
  | tag :: tags, names, s, h, hnest => by
    rw [foldlM_cons] at hnest
    obtain ⟨next, htag, hnest⟩ := Option.bind_eq_some_iff.mp hnest
    have hgo : ∀ s₁ : RunsState, runsStep xml base s tag = .ok s₁ →
        (∀ run, s₁.current = some run → OpenIn next run) →
          ∃ s', (tag :: tags).foldlM (runsStep xml base) s = .ok s' ∧
            ∀ run, s'.current = some run → OpenIn names' run := by
      intro s₁ hstep hopen
      rw [foldlM_cons, bind_ok hstep]
      exact foldlM_nests hopen hnest
    obtain ⟨runs, depth, current⟩ := s
    cases current with
    | none =>
      by_cases hclose : tag.closing = true
      · exact hgo _ (by rw [runsStep]; simp only [if_pos hclose]; rfl) (by simp)
      by_cases hopen : tag.name = "r" ∧ tag.selfClosing = false
      · refine hgo _ (by rw [runsStep]; simp only [if_neg hclose, if_pos hopen]; rfl) ?_
        intro run hrun
        obtain rfl := Option.some.inj hrun
        simp only [nestTag, hclose, hopen.1, hopen.2, Bool.false_eq_true, if_false] at htag
        obtain rfl := Option.some.inj htag
        exact ⟨[], names, rfl, rfl, by simp, by simp⟩
      by_cases hself : tag.selfClosing = false
      · refine hgo ⟨runs, depth + 1, none⟩ ?_ (by simp)
        rw [runsStep]
        simp only [if_neg hclose, if_neg hopen, if_pos hself]
      · refine hgo ⟨runs, depth, none⟩ ?_ (by simp)
        rw [runsStep]
        simp only [if_neg hclose, if_neg hopen, if_neg hself]
    | some run =>
      rcases (h run rfl).step htag with ⟨hzero, hended⟩ | ⟨hpos, hopen⟩
      · obtain ⟨span, hspan⟩ : ∃ span, (run.step tag).close xml base tag.stop = .ok span :=
          exists_close hended tag.stop
        refine hgo ⟨runs ++ [span], depth, none⟩ ?_ (by simp)
        rw [runsStep]
        simp only [if_pos hzero, RunsState.push, hspan]
        rfl
      · refine hgo ⟨runs, depth, some (run.step tag)⟩ ?_ ?_
        · rw [runsStep]
          simp only [if_neg hpos.ne']
        · intro run' hrun'
          obtain rfl := Option.some.inj hrun'
          exact hopen

theorem Nests.exists_readFrom (h : Nests xml) (depth : ℕ) :
    ∃ runs depth', readFrom xml 0 depth = .ok ⟨runs, depth', none⟩ := by
  obtain ⟨names, hnames, hrun⟩ := h
  obtain ⟨⟨runs, depth', current⟩, hread, hopen⟩ :
      ∃ s, readFrom xml 0 depth = .ok s ∧ ∀ run, s.current = some run → OpenIn names run :=
    foldlM_nests (by simp) hnames
  cases current with
  | none => exact ⟨runs, depth', hread⟩
  | some run =>
    obtain ⟨inner, outer, rfl, -⟩ := hopen run rfl
    simp at hrun

end Nests

end Docx2Typed.Format
