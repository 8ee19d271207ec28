import Docx2Typed.Format.Apply
import Docx2Typed.Format.Dealt
import Docx2Typed.Format.Pieces

/-!
# What becomes of the runs of a range

`Rewrites` says, run by run, what a plan does to the runs of a range: a run is copied, or pieces
that tile its text take its place.  Where the plan deals its runs to the runs of the part,
`materialize` writes that or refuses (`materialize_clear`).
-/

namespace Docx2Typed.Format

open Library (Cut applyCuts)
open List

/-! ## Pieces of a run -/

section Made

variable (snapshot : Snapshot)

/-- The properties a piece is written with. -/
def plannedRpr (source : RunSpan) (planned : PlannedRun) : Bytes :=
  match planned.style with
  | some styleId => (snapshot.styles.lookup styleId).elim [] bytes
  | none => source.rpr

/-- The characters of a piece, of a run that starts at `cursor`. -/
def plannedText (source : RunSpan) (cursor : ℕ) (planned : PlannedRun) : Text :=
  (source.text.take (planned.range.stop - cursor)).drop (planned.range.start - cursor)

/-- A piece, and the run that is read of it. -/
def madeRun (source : RunSpan) (cursor : ℕ) (planned : PlannedRun) : Bytes × RunSpan :=
  (runBytes source.openTag (plannedRpr snapshot source planned) (plannedText source cursor planned),
    runRead source.openTag (plannedRpr snapshot source planned)
      (plannedText source cursor planned))

/-- Pieces one after the other. -/
def laidOut : List (Bytes × RunSpan) → Bytes × List RunSpan
  | [] => ([], [])
  | (piece, run) :: rest =>
    (piece ++ (laidOut rest).1, run :: (laidOut rest).2.map (RunSpan.raise piece.length))

/-- The plan cuts or restyles a run that starts at `cursor`. -/
def Touched (source : RunSpan) (cursor : ℕ) (block : List PlannedRun) : Prop :=
  block.map (fun planned => (planned.style, planned.range)) ≠
    [(none, ⟨cursor, cursor + source.text.length⟩)]

instance (source : RunSpan) (cursor : ℕ) (block : List PlannedRun) :
    Decidable (Touched source cursor block) :=
  inferInstanceAs (Decidable (_ ≠ _))

/-- What becomes of the runs from `cursor` on: one is copied, or its pieces take its place.  The
runs written again are `P`. -/
inductive Rewrites (P : RunSpan → Prop) : ℕ → List RunSpan → List PlannedRun → Choices → Prop
  | nil {cursor : ℕ} : Rewrites P cursor [] [] []
  | other {cursor : ℕ} {run : RunSpan} {runs : List RunSpan} {planned : List PlannedRun}
    {choices : Choices} (htext : run.hasText = false)
    (hrest : Rewrites P cursor runs planned choices) :
    Rewrites P cursor (run :: runs) planned (none :: choices)
  | copied {cursor : ℕ} {run : RunSpan} {runs : List RunSpan} {piece : PlannedRun}
    {planned : List PlannedRun} {choices : Choices} (htext : run.hasText = true)
    (hstyle : piece.style = none) (hrange : piece.range = ⟨cursor, cursor + run.text.length⟩)
    (hrest : Rewrites P (cursor + run.text.length) runs planned choices) :
    Rewrites P cursor (run :: runs) (piece :: planned) (none :: choices)
  | rebuilt {cursor : ℕ} {run : RunSpan} {runs : List RunSpan} {block planned : List PlannedRun}
    {choices : Choices} (htext : run.hasText = true) (hnested : run.nested = false)
    (hstructured : run.structured = none) (hne : block ≠ []) (htouched : Touched run cursor block)
    (htiles : Library.Tiles cursor (block.map (·.span)) (cursor + run.text.length))
    (hstyles : ∀ piece ∈ block, ∀ styleId ∈ piece.style, (snapshot.styles.lookup styleId).isSome)
    (hclear : P run)
    (hrest : Rewrites P (cursor + run.text.length) runs planned choices) :
    Rewrites P cursor (run :: runs) (block ++ planned)
      (some (laidOut (block.map (madeRun snapshot run cursor))) :: choices)

/-- The runs that the plan touches, and that are neither nested nor structured, are `P`. -/
def EachTouched (P : RunSpan → Prop) (planned : List PlannedRun) : ℕ → ℕ → List RunSpan → Prop
  | _, _, [] => True
  | position, cursor, run :: rest =>
    if run.hasText then
      (run.nested = false → run.structured = none →
          Touched run cursor (piecesOf planned position) → P run) ∧
        EachTouched P planned (position + 1) (cursor + run.text.length) rest
    else EachTouched P planned position cursor rest

instance decidableEachTouched (P : RunSpan → Prop) [DecidablePred P] (planned : List PlannedRun) :
    ∀ (position cursor : ℕ) (runs : List RunSpan),
      Decidable (EachTouched P planned position cursor runs)
  | _, _, [] => isTrue trivial
  | position, cursor, run :: rest =>
    have := decidableEachTouched P planned (position + 1) (cursor + run.text.length) rest
    have := decidableEachTouched P planned position cursor rest
    decidable_of_iff (if run.hasText then
      (run.nested = false → run.structured = none →
          Touched run cursor (piecesOf planned position) → P run) ∧
        EachTouched P planned (position + 1) (cursor + run.text.length) rest
    else EachTouched P planned position cursor rest) (by rw [EachTouched])

end Made

/-! ## Building -/

section Build

variable {snapshot : Snapshot} {source : RunSpan} {planned : PlannedRun} {cursor : ℕ}
  {block : List PlannedRun} {position : ℕ} {paragraph : ParagraphPlan}

/-- A piece inside its run is built, or its style is not there. -/
theorem buildPiece_inside (snapshot : Snapshot) (hstart : cursor ≤ planned.range.start)
    (hlt : planned.range.start < planned.range.stop)
    (hstop : planned.range.stop ≤ cursor + source.text.length) :
    (∃ e, buildPiece snapshot source ⟨cursor, cursor + source.text.length⟩ planned =
      .error (.refused e)) ∨
    buildPiece snapshot source ⟨cursor, cursor + source.text.length⟩ planned =
      .ok (madeRun snapshot source cursor planned).1 ∧
      ∀ styleId ∈ planned.style, (snapshot.styles.lookup styleId).isSome := by
  rw [buildPiece, if_pos (by simp only; omega), madeRun, plannedRpr]
  cases hstyle : planned.style with
  | none => exact .inr ⟨rfl, by simp⟩
  | some styleId =>
    cases hlookup : snapshot.styles.lookup styleId with
    | none =>
      refine .inl ⟨styleNotRegistered styleId, ?_⟩
      simp only [hlookup]
      rfl
    | some style =>
      refine .inr ⟨by simp only [hlookup]; rfl, fun other hother => ?_⟩
      obtain rfl : styleId = other := Option.some.inj hother
      rw [hlookup]
      rfl

theorem mapM_refused {α β : Type} {f : α → Except Failed β} {g : α → β} {P : α → Prop} :
    ∀ {xs : List α}, (∀ x ∈ xs, (∃ e, f x = .error (.refused e)) ∨ f x = .ok (g x) ∧ P x) →
      (∃ e, xs.mapM f = .error (.refused e)) ∨ xs.mapM f = .ok (xs.map g) ∧ ∀ x ∈ xs, P x
  | [], _ => .inr ⟨rfl, by simp⟩
  | x :: xs, h => by
    obtain ⟨hx, hxs⟩ := forall_mem_cons.mp h
    rw [mapM_cons]
    rcases hx with ⟨e, he⟩ | ⟨hx, hP⟩
    · exact .inl ⟨e, by rw [he]; rfl⟩
    · rw [bind_ok hx]
      rcases mapM_refused hxs with ⟨e, he⟩ | ⟨hrest, hPs⟩
      · exact .inl ⟨e, by rw [he]; rfl⟩
      · exact .inr ⟨by rw [hrest]; rfl, forall_mem_cons.mpr ⟨hP, hPs⟩⟩

theorem laidOut_fst (pieces : List (Bytes × RunSpan)) :
    (laidOut pieces).1 = (pieces.map (·.1)).flatten := by
  induction pieces with
  | nil => rfl
  | cons piece pieces ih => rw [laidOut, ih, map_cons, flatten_cons]

/-- A run whose pieces tile it is refused, copied or rebuilt. -/
theorem rewriteRun_tiled (snapshot : Snapshot) (hblock : piecesOf paragraph.runs position = block)
    (htiles : Library.Tiles cursor (block.map (·.span)) (cursor + source.text.length)) :
    (∃ e, rewriteRun snapshot paragraph source position ⟨cursor, cursor + source.text.length⟩ =
      .error (.refused e)) ∨
    block ≠ [] ∧
      (rewriteRun snapshot paragraph source position ⟨cursor, cursor + source.text.length⟩ =
            .ok none ∧
          (source.nested = true ∧ (∀ piece ∈ block, piece.style = none) ∨
            ¬ Touched source cursor block) ∨
        rewriteRun snapshot paragraph source position ⟨cursor, cursor + source.text.length⟩ =
            .ok (some ⟨source.start, source.stop,
              (laidOut (block.map (madeRun snapshot source cursor))).1⟩) ∧
          source.nested = false ∧ source.structured = none ∧ Touched source cursor block ∧
          ∀ piece ∈ block, ∀ styleId ∈ piece.style, (snapshot.styles.lookup styleId).isSome) := by
  rw [rewriteRun]
  simp only [hblock]
  by_cases hempty : block = []
  · exact .inl ⟨_, if_pos hempty⟩
  rw [if_neg hempty]
  by_cases hnested : source.nested = true
  · rw [if_pos hnested]
    split
    next => exact .inl ⟨_, rfl⟩
    next hany =>
      refine .inr ⟨hempty, .inl ⟨rfl, .inl ⟨hnested, fun piece hpiece => ?_⟩⟩⟩
      simpa using fun h => hany (any_eq_true.mpr ⟨piece, hpiece, h⟩)
  rw [if_neg hnested]
  by_cases hsame : block.map (fun planned => (planned.style, planned.range)) =
      [(none, ⟨cursor, cursor + source.text.length⟩)]
  · rw [if_pos hsame]
    exact .inr ⟨hempty, .inl ⟨rfl, .inr fun h => h hsame⟩⟩
  rw [if_neg hsame]
  cases hstructured : source.structured with
  | some child => exact .inl ⟨_, rfl⟩
  | none =>
    have hpieces := mapM_refused
      (f := buildPiece snapshot source ⟨cursor, cursor + source.text.length⟩)
      (g := fun piece => (madeRun snapshot source cursor piece).1) fun piece hpiece => by
        have := htiles.inside _ (mem_map_of_mem hpiece)
        simp only [PlannedRun.span] at this
        exact buildPiece_inside snapshot this.1 this.2.1 this.2.2
    rcases hpieces with ⟨e, he⟩ | ⟨hpieces, hstyles⟩
    · exact .inl ⟨e, by simp only [he]; rfl⟩
    · refine .inr ⟨hempty, .inr ⟨?_, by simpa using hnested, rfl, hsame, hstyles⟩⟩
      simp only [hpieces]
      rw [laidOut_fst, map_map]
      rfl

/-- A block without a style is one piece. -/
theorem block_untouched {c : ℕ} (hne : block ≠ [])
    (hsource : ∀ piece ∈ block, piece.sourceRun = position)
    (hstyle : ∀ piece ∈ block, piece.style = none)
    (hchain : block.IsChain fun a b => ¬ a.Joins b)
    (htiles : Library.Tiles cursor (block.map (·.span)) c) :
    ∃ piece, block = [piece] ∧ piece.style = none ∧ piece.range = ⟨cursor, c⟩ := by
  match block, hne with
  | [piece], _ =>
    obtain ⟨hstart, -, hstop⟩ := htiles
    refine ⟨piece, rfl, hstyle piece mem_cons_self, ?_⟩
    obtain ⟨⟨start, stop⟩, style, sourceRun⟩ := piece
    exact congrArg₂ DraftRange.mk hstart hstop
  | a :: b :: more, _ =>
    have hjoins : ¬ a.Joins b := (isChain_cons_cons.mp hchain).1
    obtain ⟨-, -, hmeet, -⟩ := htiles
    refine (hjoins ⟨?_, ?_, hmeet.symm⟩).elim
    · rw [hstyle a (by simp), hstyle b (by simp)]
    · rw [hsource a (by simp), hsource b (by simp)]

/-- The runs of a range whose plan deals its runs to them are refused or rewritten. -/
theorem splicesFrom_dealt (snapshot : Snapshot) {P : RunSpan → Prop} :
    ∀ {runs : List RunSpan} {position cursor : ℕ} {front planned : List PlannedRun},
      (∀ run ∈ front, run.sourceRun < position) →
      paragraph.runs = front ++ planned → planned.IsChain (fun a b => ¬ a.Joins b) →
      Dealt position cursor ((runs.filter (·.hasText)).map fun run => run.text.length) planned →
      EachTouched P paragraph.runs position cursor runs →
      (∃ e, splicesFrom snapshot paragraph position cursor (runs.filter (·.hasText)) =
        .error (.refused e)) ∨
      ∃ choices, splicesFrom snapshot paragraph position cursor (runs.filter (·.hasText)) =
        .ok (cutsOf runs choices) ∧ Rewrites snapshot P cursor runs planned choices
  | [], _, _, _, _, _, _, _, hdealt, _ => by
    obtain rfl : _ = [] := hdealt
    exact .inr ⟨[], rfl, .nil⟩
  | run :: runs, position, cursor, front, planned, hfront, hplanned, hchain, hdealt, hclear => by
    rw [EachTouched] at hclear
    by_cases htext : run.hasText = true
    · rw [filter_cons_of_pos htext] at hdealt ⊢
      rw [if_pos htext] at hclear
      obtain ⟨block, rest, rfl, hblock, htiles, hrest⟩ := hdealt
      have hpieces : piecesOf paragraph.runs position = block := by
        rw [hplanned]
        exact piecesOf_block hfront hblock (fun run hrun => hrest.position_le run hrun) htiles
      obtain ⟨hblockChain, hrestChain, -⟩ := isChain_append.mp hchain
      have hbefore : ∀ run ∈ front ++ block, run.sourceRun < position + 1 :=
        forall_mem_append.mpr ⟨fun run hrun => Nat.lt_succ_of_lt (hfront run hrun),
          fun run hrun => Nat.lt_succ_of_le (hblock run hrun).le⟩
      have hlater := splicesFrom_dealt snapshot hbefore
        (by rw [hplanned, append_assoc]) hrestChain hrest hclear.2
      rw [splicesFrom]
      rcases rewriteRun_tiled snapshot hpieces htiles with ⟨e, he⟩ | ⟨hne, hrun⟩
      · exact .inl ⟨e, by simp only [he]; rfl⟩
      rcases hlater with ⟨e, he⟩ | ⟨choices, hchoices, hrewrites⟩
      · rcases hrun with ⟨hrun, -⟩ | ⟨hrun, -⟩
        · exact .inl ⟨e, by simp only [hrun, he]; rfl⟩
        · exact .inl ⟨e, by simp only [hrun, he]; rfl⟩
      rcases hrun with ⟨hrun, hcopied⟩ | ⟨hrun, hnested, hstructured, htouched, hstyles⟩
      · obtain ⟨piece, rfl, hstyle, hrange⟩ : ∃ piece, block = [piece] ∧ piece.style = none ∧
            piece.range = ⟨cursor, cursor + run.text.length⟩ := by
          rcases hcopied with ⟨-, hstyles⟩ | htouched
          · exact block_untouched hne hblock hstyles hblockChain htiles
          · obtain ⟨piece, hpiece, hsame⟩ := map_eq_singleton_iff.mp (not_not.mp htouched)
            obtain ⟨hstyle, hrange⟩ := Prod.mk.inj hsame
            exact ⟨piece, hpiece, hstyle, hrange⟩
        refine .inr ⟨none :: choices, ?_, .copied htext hstyle hrange hrewrites⟩
        simp only [hrun, hchoices]
        rfl
      · refine .inr ⟨_ :: choices, ?_, .rebuilt htext hnested hstructured hne htouched htiles
          hstyles (hclear.1 hnested hstructured (hpieces ▸ htouched)) hrewrites⟩
        simp only [hrun, hchoices]
        rfl
    · rw [filter_cons_of_neg htext] at hdealt ⊢
      rw [if_neg htext] at hclear
      rcases splicesFrom_dealt snapshot hfront hplanned hchain hdealt hclear with
        hrefused | ⟨choices, hchoices, hrewrites⟩
      · exact .inl hrefused
      · exact .inr ⟨none :: choices, hchoices, .other (by simpa using htext) hrewrites⟩

end Build

/-! ## Reading the result -/

/-- The characters every text run holds, from `cursor` on. -/
def textSpans : ℕ → List RunSpan → List (ℕ × ℕ)
  | _, [] => []
  | cursor, run :: rest =>
    if run.hasText then
      (cursor, cursor + run.text.length) :: textSpans (cursor + run.text.length) rest
    else textSpans cursor rest

/-- The text the runs of a range show. -/
def shownText (xml : Bytes) (runs : List RunSpan) : Text :=
  runs.flatMap fun run => visibleText (slice xml run.start run.stop)

/-- A run whose properties are one element and whose text is what it shows. -/
def Clear (xml : Bytes) (run : RunSpan) : Prop :=
  OneRpr run.rpr ∧ visibleText (slice xml run.start run.stop) = run.text

instance (xml : Bytes) (run : RunSpan) : Decidable (Clear xml run) :=
  inferInstanceAs (Decidable (_ ∧ _))

section Read

variable {snapshot : Snapshot} {xml : Bytes} {source : RunSpan} {cursor a b : ℕ}
  {runs : List RunSpan} {planned : List PlannedRun} {choices : Choices} {P : RunSpan → Prop}

/-- Pieces that read one by one read together. -/
theorem reads_laidOut {depth : ℕ} : ∀ {pieces : List (Bytes × RunSpan)},
    (∀ piece ∈ pieces, Reads piece.1 depth [piece.2] depth) →
      Reads (laidOut pieces).1 depth (laidOut pieces).2 depth
  | [], _ => reads_nil depth
  | (piece, run) :: rest, h => by
    obtain ⟨hpiece, hrest⟩ := forall_mem_cons.mp h
    exact hpiece.append (reads_laidOut hrest)

/-- Every piece is read as the run it was built as, with its own bytes. -/
theorem held_laidOut : ∀ {pieces : List (Bytes × RunSpan)},
    (∀ piece ∈ pieces, piece.2.start = 0 ∧ piece.2.stop = piece.1.length) →
      (laidOut pieces).2.map (held (laidOut pieces).1) =
        pieces.map fun piece => (piece.2.content, piece.1)
  | [], _ => rfl
  | (piece, run) :: rest, h => by
    obtain ⟨⟨hstart, hstop⟩, hrest⟩ := forall_mem_cons.mp h
    rw [laidOut, map_cons, map_cons, map_map, ← held_laidOut hrest]
    congr 1
    · simp only at hstart hstop
      rw [held_front _ hstop.le, held, hstart, hstop, slice, take_length, drop_zero]
    · refine map_congr_left fun later _ => ?_
      rw [Function.comp_apply, held_back]

theorem held_madeRuns (snapshot : Snapshot) (source : RunSpan) (cursor : ℕ)
    (block : List PlannedRun) :
    heldOne xml source (some (laidOut (block.map (madeRun snapshot source cursor)))) =
      block.map fun piece =>
        ((madeRun snapshot source cursor piece).2.content,
          (madeRun snapshot source cursor piece).1) := by
  rw [heldOne, held_laidOut, map_map]
  · rfl
  · intro piece hpiece
    obtain ⟨planned, -, rfl⟩ := mem_map.mp hpiece
    exact ⟨rfl, rfl⟩

theorem oneRpr_plannedRpr {piece : PlannedRun} (hsource : OneRpr source.rpr)
    (hknown : ∀ styleId ∈ piece.style, (snapshot.styles.lookup styleId).isSome)
    (hstyles : ∀ styleId ∈ piece.style, ∀ style ∈ snapshot.styles.lookup styleId,
      OneRpr (bytes style)) : OneRpr (plannedRpr snapshot source piece) := by
  rw [plannedRpr]
  cases hstyle : piece.style with
  | none => exact hsource
  | some styleId =>
    obtain ⟨style, hlookup⟩ := Option.isSome_iff_exists.mp (hknown styleId hstyle)
    simp only [hlookup]
    exact hstyles styleId hstyle style hlookup

/-- What takes the place of a run reads as its pieces. -/
theorem Rewrites.fits (htags : ∀ run ∈ runs, run.hasText = true → RunTag run.openTag)
    (hP : ∀ run, P run → OneRpr run.rpr)
    (hstyles : ∀ piece ∈ planned, ∀ styleId ∈ piece.style,
      ∀ style ∈ snapshot.styles.lookup styleId, OneRpr (bytes style))
    (h : Rewrites snapshot P cursor runs planned choices) : List.Forall₂ Fits runs choices := by
  induction h with
  | nil => exact .nil
  | other _ _ ih =>
    exact .cons (by simp [Fits]) (ih (forall_mem_cons.mp htags).2 hstyles)
  | copied _ _ _ _ ih =>
    exact .cons (by simp [Fits])
      (ih (forall_mem_cons.mp htags).2 (forall_mem_cons.mp hstyles).2)
  | @rebuilt cursor run runs block planned choices htext hnested _ _ _ _ hknown hclear _ ih =>
    obtain ⟨htag, hlater⟩ := forall_mem_cons.mp htags
    obtain ⟨hblock, hplanned⟩ := forall_mem_append.mp hstyles
    refine .cons (fun made hmade depth hdepth => ?_) (ih hlater hplanned)
    obtain rfl := Option.some.inj hmade
    have hshallow : ¬ 1 < depth := of_decide_eq_false (hdepth.symm.trans hnested)
    refine reads_laidOut fun piece hpiece => ?_
    obtain ⟨entry, hentry, rfl⟩ := mem_map.mp hpiece
    exact reads_runBytes (htag htext) (oneRpr_plannedRpr (hP run hclear) (hknown entry hentry)
      (hblock entry hentry)) _ hshallow

theorem Rewrites.heldAfter_ne_nil (h : Rewrites snapshot P cursor runs planned choices)
    (hne : runs ≠ []) : heldAfter xml runs choices ≠ [] := by
  cases h with
  | nil => exact (hne rfl).elim
  | other => simp [heldAfter, heldOne]
  | copied => simp [heldAfter, heldOne]
  | rebuilt _ _ _ hblock => simp [heldAfter, held_madeRuns, hblock]

theorem length_plannedText (source : RunSpan) {piece : PlannedRun}
    (hstart : cursor ≤ piece.range.start) (hlt : piece.range.start < piece.range.stop)
    (hstop : piece.range.stop ≤ cursor + source.text.length) :
    piece.range.start + (plannedText source cursor piece).length = piece.range.stop := by
  rw [plannedText, length_drop, length_take_of_le (by omega)]
  omega

theorem textSpans_made (rest : List RunSpan) : ∀ {block : List PlannedRun} {a : ℕ}, cursor ≤ a →
    b ≤ cursor + source.text.length → Library.Tiles a (block.map (·.span)) b →
      textSpans a (block.map (fun piece => (madeRun snapshot source cursor piece).2.content) ++
          rest) =
        block.map (·.span) ++ textSpans b rest
  | [], a, _, _, h => by
    obtain rfl : a = b := h
    rfl
  | piece :: block, a, ha, hb, h => by
    have hinside := h.inside _ mem_cons_self
    obtain ⟨hstart, hlt, hrest⟩ := h
    simp only [PlannedRun.span] at hstart hlt hinside
    have hlength := length_plannedText source (by omega : cursor ≤ piece.range.start) hlt (by omega)
    rw [map_cons, cons_append, textSpans]
    rw [if_pos (by rfl), map_cons, cons_append]
    have htext : ((madeRun snapshot source cursor piece).2.content).text =
        plannedText source cursor piece := rfl
    rw [htext, ← hstart, hlength]
    exact congrArg _ (textSpans_made rest (by omega : cursor ≤ piece.range.stop) hb hrest)

/-- The result is read with the ranges of the plan. -/
theorem Rewrites.textSpans_eq (h : Rewrites snapshot P cursor runs planned choices) :
    textSpans cursor ((heldAfter xml runs choices).map (·.1)) = planned.map (·.span) := by
  induction h with
  | nil => rfl
  | @other cursor run runs planned choices htext _ ih =>
    rw [heldAfter, heldOne, singleton_append, map_cons, textSpans, if_neg, ih]
    simpa [held, RunSpan.content] using htext
  | @copied cursor run runs piece planned choices htext hstyle hrange _ ih =>
    rw [heldAfter, heldOne, singleton_append, map_cons, textSpans, if_pos]
    · rw [map_cons, PlannedRun.span, hrange]
      exact congrArg _ ih
    · simpa [held, RunSpan.content] using htext
  | @rebuilt cursor run runs block planned choices _ _ _ _ _ htiles _ _ _ ih =>
    rw [heldAfter, held_madeRuns, map_append, map_map, map_append, ← ih]
    exact textSpans_made _ le_rfl le_rfl htiles

theorem flatMap_plannedText : ∀ {block : List PlannedRun} {a : ℕ}, cursor ≤ a →
    b ≤ cursor + source.text.length → Library.Tiles a (block.map (·.span)) b →
      block.flatMap (plannedText source cursor) =
        (source.text.take (b - cursor)).drop (a - cursor)
  | [], a, _, _, h => by
    obtain rfl : a = b := h
    rw [flatMap_nil, drop_eq_nil_of_le (length_take_le _ _)]
  | piece :: block, a, ha, hb, h => by
    have hinside := h.inside _ mem_cons_self
    obtain ⟨hstart, hlt, hrest⟩ := h
    have hle := hrest.le
    simp only [PlannedRun.span] at hstart hlt hinside hle
    subst hstart
    rw [flatMap_cons, flatMap_plannedText (by simp only [PlannedRun.span]; omega) hb hrest,
      plannedText]
    simp only [PlannedRun.span]
    have hcut : source.text.take (piece.range.stop - cursor) =
        (source.text.take (b - cursor)).take (piece.range.stop - cursor) := by
      rw [take_take, Nat.min_eq_left (by omega)]
    have hlength : ((source.text.take (b - cursor)).take (piece.range.stop - cursor)).length =
        piece.range.stop - cursor := by
      rw [length_take_of_le]
      rw [length_take_of_le (by omega)]
      omega
    conv_rhs => rw [← take_append_drop (piece.range.stop - cursor) (source.text.take _)]
    rw [hcut, drop_append_of_le_length (by rw [hlength]; omega)]

/-- The text is shown as before. -/
theorem Rewrites.shown_eq (htags : ∀ run ∈ runs, run.hasText = true → RunTag run.openTag)
    (hstyles : ∀ piece ∈ planned, ∀ styleId ∈ piece.style,
      ∀ style ∈ snapshot.styles.lookup styleId, OneRpr (bytes style))
    (h : Rewrites snapshot (Clear xml) cursor runs planned choices) :
    (heldAfter xml runs choices).flatMap (fun held => visibleText held.2) = shownText xml runs := by
  induction h with
  | nil => rfl
  | other _ _ ih =>
    rw [heldAfter, heldOne, singleton_append, flatMap_cons, shownText, flatMap_cons,
      ih (forall_mem_cons.mp htags).2 hstyles]
    rfl
  | copied _ _ _ _ ih =>
    rw [heldAfter, heldOne, singleton_append, flatMap_cons, shownText, flatMap_cons,
      ih (forall_mem_cons.mp htags).2 (forall_mem_cons.mp hstyles).2]
    rfl
  | @rebuilt cursor run runs block planned choices htext _ _ _ _ htiles hknown hclear _ ih =>
    obtain ⟨htag, hlater⟩ := forall_mem_cons.mp htags
    obtain ⟨hblock, hplanned⟩ := forall_mem_append.mp hstyles
    have hpieces : block.flatMap (fun piece => visibleText (madeRun snapshot run cursor piece).1) =
        block.flatMap (plannedText run cursor) :=
      flatMap_congr fun piece hpiece => visibleText_runBytes (htag htext)
        (oneRpr_plannedRpr hclear.1 (hknown piece hpiece) (hblock piece hpiece)) _
    rw [heldAfter, held_madeRuns, flatMap_append, ih hlater hplanned, flatMap_map,
      hpieces, flatMap_plannedText le_rfl le_rfl htiles, Nat.sub_self, drop_zero,
      Nat.add_sub_cancel_left, take_length, shownText, shownText, flatMap_cons, hclear.2]

end Read

end Docx2Typed.Format
