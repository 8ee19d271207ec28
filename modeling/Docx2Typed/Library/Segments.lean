import Mathlib.Data.List.Chain
import Mathlib.Data.List.Destutter

/-!
# Labelled segments of a line

A segment is a half-open range of positions with a label.  `Claims l i b` says that some segment
of `l` gives position `i` the label `b`; two lists with the same claims describe the same
labelling.

* `eq_of_claims`: a labelling has at most one canonical list (nonempty segments in order, no two
  that could be one).
* `uniteFrom`: segments in the order of their starts are united into the canonical list, or
  refused when two of them claim a position with different labels (`isSome_uniteFrom`,
  `canonical_of_uniteFrom`, `claims_of_uniteFrom`).
* `Tiles`, `steps`: an increasing list of cuts tiles the positions between its ends.
-/

namespace Docx2Typed.Library

open List

universe u

/-- The positions from `start` up to `stop`, with one label. -/
structure Segment (β : Type u) where
  start : ℕ
  stop : ℕ
  label : β
  deriving DecidableEq

namespace Segment

variable {β : Type u} {s t : Segment β} {l l' : List (Segment β)} {i : ℕ} {b c : β}

def Covers (s : Segment β) (i : ℕ) : Prop := s.start ≤ i ∧ i < s.stop

def Claims (l : List (Segment β)) (i : ℕ) (b : β) : Prop := ∃ s ∈ l, s.Covers i ∧ s.label = b

/-- No position is claimed with two labels. -/
def Compatible (l : List (Segment β)) : Prop := ∀ i b c, Claims l i b → Claims l i c → b = c

/-- `t` comes after `s` and the two are not one segment. -/
def Apart (s t : Segment β) : Prop := s.stop < t.start ∨ s.stop = t.start ∧ s.label ≠ t.label

def Canonical (l : List (Segment β)) : Prop := (∀ s ∈ l, s.start < s.stop) ∧ l.IsChain Apart

/-! ## Claims -/

@[simp] theorem claims_nil : ¬ Claims ([] : List (Segment β)) i b := by simp [Claims]

theorem claims_cons : Claims (s :: l) i b ↔ s.Covers i ∧ s.label = b ∨ Claims l i b := by
  simp [Claims]

theorem claims_of_mem (hs : s ∈ l) (hi : s.Covers i) : Claims l i s.label := ⟨s, hs, hi, rfl⟩

theorem Compatible.of_claims (h : Compatible l) (hl : ∀ i b, Claims l' i b → Claims l i b) :
    Compatible l' :=
  fun i b c hb hc => h i b c (hl i b hb) (hl i c hc)

theorem Compatible.tail (h : Compatible (s :: l)) : Compatible l :=
  h.of_claims fun _ _ hb => claims_cons.mpr (.inr hb)

/-! ## The canonical list of a labelling -/

theorem Apart.le (h : Apart s t) : s.stop ≤ t.start := by
  rcases h with h | h
  · exact h.le
  · exact h.1.le

theorem Canonical.tail (h : Canonical (s :: l)) : Canonical l :=
  ⟨fun t ht => h.1 t (mem_cons_of_mem _ ht), h.2.tail⟩

/-- Everything after the first segment starts where it stops, or later. -/
theorem Canonical.stop_le : ∀ {l : List (Segment β)} {s : Segment β}, Canonical (s :: l) →
    ∀ t ∈ l, s.stop ≤ t.start
  | [], _, _ => by simp
  | u :: l, s, h => by
    have hsu : s.stop ≤ u.start := (isChain_cons_cons.mp h.2).1.le
    have hu : u.start < u.stop := h.1 u (by simp)
    intro t ht
    rcases mem_cons.mp ht with rfl | ht
    · exact hsu
    · exact hsu.trans (hu.le.trans (h.tail.stop_le t ht))

/-- Later segments claim nothing before the stop of the first. -/
theorem Canonical.not_claims_tail (h : Canonical (s :: l)) (hi : i < s.stop) : ¬ Claims l i b := by
  rintro ⟨t, ht, hti, -⟩
  have hst : s.stop ≤ t.start := h.stop_le t ht
  have hle : t.start ≤ i := hti.1
  omega

/-- What a canonical list claims before the stop of its first segment, that segment claims. -/
theorem Canonical.claims_first (h : Canonical (s :: l)) (hi : i < s.stop)
    (hb : Claims (s :: l) i b) : s.start ≤ i ∧ s.label = b := by
  obtain ⟨hs, hb⟩ := (claims_cons.mp hb).resolve_right (h.not_claims_tail hi)
  exact ⟨hs.1, hb⟩

theorem Canonical.start_le (h : Canonical (s :: l)) (hb : Claims (s :: l) i b) : s.start ≤ i := by
  by_contra hlt
  have hs : s.start < s.stop := h.1 s (by simp)
  exact hlt (h.claims_first (by omega) hb).1

/-- A position from the stop on is claimed by a later segment. -/
theorem claims_tail (hi : s.stop ≤ i) : Claims (s :: l) i b ↔ Claims l i b := by
  rw [claims_cons]
  refine ⟨fun h => h.resolve_left fun hs => ?_, .inr⟩
  have hlt : i < s.stop := hs.1.2
  omega

/-- The position where the first segment stops does not carry its label. -/
theorem Canonical.not_claims_stop (h : Canonical (s :: l)) : ¬ Claims (s :: l) s.stop s.label := by
  rw [claims_tail le_rfl]
  intro hb
  cases l with
  | nil => exact claims_nil hb
  | cons u rest =>
    have hsu : Apart s u := (isChain_cons_cons.mp h.2).1
    have hu : u.start < u.stop := h.1 u (by simp)
    have hle : s.stop ≤ u.start := hsu.le
    have hge : u.start ≤ s.stop := h.tail.start_le hb
    have hlabel : u.label = s.label := (h.tail.claims_first (by omega) hb).2
    rcases hsu with hlt | ⟨-, hne⟩
    · omega
    · exact hne hlabel.symm

theorem Canonical.compatible : ∀ {l : List (Segment β)}, Canonical l → Compatible l
  | [], _ => fun _ _ _ hb => absurd hb claims_nil
  | s :: l, h => fun i b c hb hc => by
    rcases Nat.lt_or_ge i s.stop with hi | hi
    · exact (h.claims_first hi hb).2.symm.trans (h.claims_first hi hc).2
    · exact h.tail.compatible i b c ((claims_tail hi).mp hb) ((claims_tail hi).mp hc)

theorem Canonical.claims_start (h : Canonical (s :: l)) : Claims (s :: l) s.start s.label :=
  claims_of_mem (by simp) ⟨le_rfl, h.1 s (by simp)⟩

theorem Canonical.stop_not_lt (h : Canonical (s :: l))
    (hstart : s.start = t.start) (hlabel : s.label = t.label)
    (hclaims : ∀ i b, Claims (t :: l') i b → Claims (s :: l) i b) : ¬ s.stop < t.stop := by
  intro hlt
  have hs : s.start < s.stop := h.1 s (by simp)
  refine h.not_claims_stop (hclaims _ _ ?_)
  exact hlabel ▸ claims_of_mem (by simp) ⟨by omega, hlt⟩

/-- A labelling has at most one canonical list. -/
theorem eq_of_claims : ∀ {l l' : List (Segment β)}, Canonical l → Canonical l' →
    (∀ i b, Claims l i b ↔ Claims l' i b) → l = l'
  | [], [], _, _, _ => rfl
  | [], t :: l', _, h', hclaims => absurd ((hclaims _ _).mpr h'.claims_start) claims_nil
  | s :: l, [], h, _, hclaims => absurd ((hclaims _ _).mp h.claims_start) claims_nil
  | s :: l, t :: l', h, h', hclaims => by
    have hs : Claims (t :: l') s.start s.label := (hclaims _ _).mp h.claims_start
    have ht : Claims (s :: l) t.start t.label := (hclaims _ _).mpr h'.claims_start
    have hstart : s.start = t.start := le_antisymm (h.start_le ht) (h'.start_le hs)
    have htlt : t.start < t.stop := h'.1 t (by simp)
    have hlabel : s.label = t.label := (h'.claims_first (by omega) hs).2.symm
    have hstop : s.stop = t.stop := le_antisymm
      (not_lt.mp (h'.stop_not_lt hstart.symm hlabel.symm fun i b => (hclaims i b).mp))
      (not_lt.mp (h.stop_not_lt hstart hlabel fun i b => (hclaims i b).mpr))
    obtain rfl : s = t := by
      cases s
      cases t
      simp_all
    refine congrArg (s :: ·) (eq_of_claims h.tail h'.tail fun i b => ?_)
    rcases Nat.lt_or_ge i s.stop with hi | hi
    · exact iff_of_false (h.not_claims_tail hi) (h'.not_claims_tail hi)
    · exact (claims_tail hi).symm.trans ((hclaims i b).trans (claims_tail hi))

/-! ## Uniting segments -/

/-- The segments are nonempty and start in order. -/
def Ordered (l : List (Segment β)) : Prop :=
  (∀ s ∈ l, s.start < s.stop) ∧ l.Pairwise fun s t => s.start ≤ t.start

theorem Ordered.tail (h : Ordered (s :: l)) : Ordered l :=
  ⟨fun t ht => h.1 t (mem_cons_of_mem _ ht), (pairwise_cons.mp h.2).2⟩

theorem Ordered.start_le (h : Ordered (s :: l)) (ht : t ∈ l) : s.start ≤ t.start :=
  (pairwise_cons.mp h.2).1 t ht

/-- Two segments that meet are replaced by their union. -/
theorem Ordered.union (h : Ordered (s :: t :: l)) :
    Ordered (⟨min s.start t.start, max s.stop t.stop, s.label⟩ :: l) := by
  have hst : s.start ≤ t.start := h.start_le (by simp)
  have hs : s.start < s.stop := h.1 s (by simp)
  refine ⟨fun u hu => ?_, pairwise_cons.mpr ⟨fun u hu => ?_, h.tail.tail.2⟩⟩
  · rcases mem_cons.mp hu with rfl | hu
    · simp only
      omega
    · exact h.tail.tail.1 u hu
  · have hsu : s.start ≤ u.start := h.start_le (mem_cons_of_mem _ hu)
    simp only
    omega

theorem claims_union (hst : s.start ≤ t.start) (hmeet : t.start ≤ s.stop)
    (hlabel : s.label = t.label) :
    Claims (⟨min s.start t.start, max s.stop t.stop, s.label⟩ :: l) i b ↔
      Claims (s :: t :: l) i b := by
  simp only [claims_cons, Covers, ← hlabel, ← or_assoc, ← or_and_right]
  refine or_congr (and_congr ?_ Iff.rfl) Iff.rfl
  omega

/-- Two segments of a compatible list that run into each other have one label. -/
theorem Compatible.label_eq (h : Compatible (s :: t :: l)) (hst : s.start ≤ t.start)
    (ht : t.start < t.stop) (hlt : t.start < s.stop) : s.label = t.label :=
  h t.start _ _ (claims_of_mem (by simp) ⟨hst, hlt⟩) (claims_of_mem (by simp) ⟨le_rfl, ht⟩)

section Unite

variable [DecidableEq β]

/-- The segments of a list in the order of their starts, united: a segment that meets the one
before it and has its label extends it, and one that runs into it with another label is
refused. -/
def uniteFrom (last : Segment β) : List (Segment β) → Option (List (Segment β))
  | [] => some [last]
  | s :: rest =>
    if last.start < s.stop ∧ s.start < last.stop ∧ last.label ≠ s.label then none
    else if last.start ≤ s.stop ∧ s.start ≤ last.stop ∧ last.label = s.label then
      uniteFrom ⟨min last.start s.start, max last.stop s.stop, last.label⟩ rest
    else (uniteFrom s rest).map (last :: ·)

/-- Segments that start in order and are compatible are united to the canonical list of what
they claim. -/
theorem canonical_of_uniteFrom : ∀ {l : List (Segment β)} {s : Segment β}, Ordered (s :: l) →
    Compatible (s :: l) → ∃ r, uniteFrom s l = some r ∧ Canonical r ∧
      (∀ i b, Claims r i b ↔ Claims (s :: l) i b) ∧
      ∃ stop rest, r = ⟨s.start, stop, s.label⟩ :: rest
  | [], s, h, _ =>
    ⟨[s], rfl, ⟨h.1, isChain_singleton _⟩, fun _ _ => Iff.rfl, s.stop, [], rfl⟩
  | t :: l, s, h, hcomp => by
    have hst : s.start ≤ t.start := h.start_le (by simp)
    have hs : s.start < s.stop := h.1 s (by simp)
    have ht : t.start < t.stop := h.1 t (by simp)
    have hnot : ¬ (s.start < t.stop ∧ t.start < s.stop ∧ s.label ≠ t.label) :=
      fun ⟨_, hlt, hne⟩ => hne (hcomp.label_eq hst ht hlt)
    rw [uniteFrom, if_neg hnot]
    split
    case isTrue hmeet =>
      have hunion : ∀ i b, Claims (⟨min s.start t.start, max s.stop t.stop, s.label⟩ :: l) i b ↔
          Claims (s :: t :: l) i b := fun i b => claims_union hst hmeet.2.1 hmeet.2.2
      obtain ⟨r, hr, hcanonical, hclaims, stop, rest, hhead⟩ :=
        canonical_of_uniteFrom h.union (hcomp.of_claims fun i b => (hunion i b).mp)
      refine ⟨r, hr, hcanonical, fun i b => (hclaims i b).trans (hunion i b), stop, rest, ?_⟩
      rw [hhead, min_eq_left hst]
    case isFalse hapart =>
      obtain ⟨r, hr, hcanonical, hclaims, stop, rest, rfl⟩ :=
        canonical_of_uniteFrom h.tail hcomp.tail
      have hle : s.label ≠ t.label → s.stop ≤ t.start := fun hne =>
        not_lt.mp fun hlt => hne (hcomp.label_eq hst ht hlt)
      have hlt : s.label = t.label → s.stop < t.start := fun heq =>
        not_le.mp fun hle => hapart ⟨by omega, hle, heq⟩
      refine ⟨s :: _, by rw [hr]; rfl, ⟨fun u hu => ?_, ?_⟩, fun i b => ?_, s.stop, _, rfl⟩
      · rcases mem_cons.mp hu with rfl | hu
        · exact hs
        · exact hcanonical.1 u hu
      · refine isChain_cons_cons.mpr ⟨?_, hcanonical.2⟩
        by_cases hlabel : s.label = t.label
        · exact .inl (hlt hlabel)
        · exact (hle hlabel).lt_or_eq.imp id fun heq => ⟨heq, hlabel⟩
      · rw [claims_cons, hclaims, ← claims_cons]

/-- Segments that are not refused are compatible. -/
theorem compatible_of_uniteFrom : ∀ {l r : List (Segment β)} {s : Segment β}, Ordered (s :: l) →
    uniteFrom s l = some r → Compatible (s :: l)
  | [], _, s, _, _ => by
    intro i b c hb hc
    simp only [claims_cons, claims_nil, or_false] at hb hc
    exact hb.2.symm.trans hc.2
  | t :: l, r, s, h, hr => by
    have hst : s.start ≤ t.start := h.start_le (by simp)
    have ht : t.start < t.stop := h.1 t (by simp)
    rw [uniteFrom] at hr
    split at hr
    · cases hr
    case isFalse hnot =>
      split at hr
      case isTrue hmeet =>
        exact (compatible_of_uniteFrom h.union hr).of_claims
          fun i b => (claims_union hst hmeet.2.1 hmeet.2.2).mpr
      case isFalse hapart =>
        obtain ⟨r', hr', -⟩ := Option.map_eq_some_iff.mp hr
        have hcomp : Compatible (t :: l) := compatible_of_uniteFrom h.tail hr'
        -- nothing after `s` starts before it stops
        have hstop : s.stop ≤ t.start := by
          by_contra hlt
          by_cases hlabel : s.label = t.label
          · exact hapart ⟨by omega, by omega, hlabel⟩
          · exact hnot ⟨by omega, by omega, hlabel⟩
        have hlater : ∀ i b, Claims (t :: l) i b → s.stop ≤ i := by
          rintro i b ⟨u, hu, hui, -⟩
          have htu : t.start ≤ u.start := by
            rcases mem_cons.mp hu with rfl | hu
            · exact le_rfl
            · exact h.tail.start_le hu
          exact hstop.trans (htu.trans hui.1)
        intro i b c hb hc
        rcases claims_cons.mp hb with ⟨hsi, hb⟩ | hb <;> rcases claims_cons.mp hc with ⟨hsi', hc⟩ | hc
        · exact hb.symm.trans hc
        · exact absurd hsi.2 (not_lt.mpr (hlater i c hc))
        · exact absurd hsi'.2 (not_lt.mpr (hlater i b hb))
        · exact hcomp i b c hb hc

end Unite

end Segment

/-! ## Cuts and tiles -/

/-- Half-open ranges, each starting where the one before stops, from `a` to `b`. -/
def Tiles : ℕ → List (ℕ × ℕ) → ℕ → Prop
  | a, [], b => a = b
  | a, r :: rest, b => r.1 = a ∧ r.1 < r.2 ∧ Tiles r.2 rest b

theorem Tiles.le : ∀ {a b : ℕ} {spans : List (ℕ × ℕ)}, Tiles a spans b → a ≤ b
  | _, _, [], h => Nat.le_of_eq h
  | _, _, _ :: _, h => by
    obtain ⟨rfl, hlt, hrest⟩ := h
    have := hrest.le
    omega

theorem Tiles.inside : ∀ {a b : ℕ} {spans : List (ℕ × ℕ)}, Tiles a spans b →
    ∀ span ∈ spans, a ≤ span.1 ∧ span.1 < span.2 ∧ span.2 ≤ b
  | _, _, [], _ => fun _ hmem => by cases hmem
  | _, _, span :: rest, h => by
    obtain ⟨rfl, hlt, hrest⟩ := h
    refine forall_mem_cons.mpr ⟨⟨le_rfl, hlt, hrest.le⟩, fun other hother => ?_⟩
    have := hrest.inside other hother
    omega

/-- The steps of a list of cuts (`windows(2)`). -/
def steps (cuts : List ℕ) : List (ℕ × ℕ) := cuts.zip cuts.tail

@[simp] theorem steps_cons_cons (a b : ℕ) (cuts : List ℕ) :
    steps (a :: b :: cuts) = (a, b) :: steps (b :: cuts) := rfl

section Steps

variable {a b : ℕ} {cuts : List ℕ} {step : ℕ × ℕ}

/-- Increasing cuts, the least `a` and the greatest `b`, tile the positions between them. -/
theorem tiles_steps : ∀ {a : ℕ} {cuts : List ℕ}, (a :: cuts).IsChain (· < ·) →
    b ∈ a :: cuts → (∀ c ∈ a :: cuts, c ≤ b) → Tiles a (steps (a :: cuts)) b
  | a, [], _, hb, _ => by
    rw [mem_singleton] at hb
    exact hb.symm
  | a, c :: cuts, h, hb, hle => by
    have hac : a < c := (isChain_cons_cons.mp h).1
    have hcb : c ≤ b := hle c (by simp)
    have hb' : b ∈ c :: cuts := (mem_cons.mp hb).resolve_left (by omega)
    exact ⟨rfl, hac, tiles_steps h.tail hb' fun d hd => hle d (mem_cons_of_mem _ hd)⟩

theorem head_le_of_isChain (h : (a :: cuts).IsChain (· < ·)) : ∀ c ∈ a :: cuts, a ≤ c := by
  intro c hc
  rcases mem_cons.mp hc with rfl | hc
  · exact le_rfl
  · exact (h.rel_cons hc).le

/-- A step goes from a cut to the next: no cut lies strictly between. -/
theorem of_mem_steps : ∀ {cuts : List ℕ}, cuts.IsChain (· < ·) → step ∈ steps cuts →
    step.1 < step.2 ∧ step.2 ∈ cuts ∧ ∀ c ∈ cuts, c ≤ step.1 ∨ step.2 ≤ c
  | [], _, hstep => by simp [steps] at hstep
  | [a], _, hstep => by simp [steps] at hstep
  | a :: c :: cuts, h, hstep => by
    have hac : a < c := (isChain_cons_cons.mp h).1
    rw [steps_cons_cons, mem_cons] at hstep
    rcases hstep with rfl | hstep
    · refine ⟨hac, by simp, fun d hd => ?_⟩
      rcases mem_cons.mp hd with rfl | hd
      · exact .inl le_rfl
      · exact .inr (head_le_of_isChain h.tail d hd)
    · obtain ⟨hlt, hmem, hbetween⟩ := of_mem_steps h.tail hstep
      refine ⟨hlt, mem_cons_of_mem _ hmem, fun d hd => ?_⟩
      rcases mem_cons.mp hd with rfl | hd
      · have hc : c ≤ step.1 := by
          have hzip := of_mem_zip (show (step.1, step.2) ∈ (c :: cuts).zip cuts from hstep)
          exact head_le_of_isChain h.tail step.1 hzip.1
        exact .inl (hac.le.trans hc)
      · exact hbetween d hd

end Steps

/-! ## Sorted without repetition -/

section Dedup

variable {α : Type u} [DecidableEq α] {x : α}

theorem mem_destutter' : ∀ {l : List α} {a : α}, x ∈ l.destutter' (· ≠ ·) a ↔ x = a ∨ x ∈ l
  | [], a => by simp
  | b :: l, a => by
    by_cases hab : a = b
    · rw [destutter'_cons_neg _ (by simpa using hab), mem_destutter', hab, mem_cons]
      tauto
    · rw [destutter'_cons_pos _ hab, mem_cons, mem_destutter', mem_cons]

/-- Dropping adjacent repetitions keeps every member. -/
theorem mem_destutter {l : List α} : x ∈ l.destutter (· ≠ ·) ↔ x ∈ l := by
  cases l with
  | nil => simp
  | cons a l => rw [destutter_cons', mem_destutter', mem_cons]

end Dedup

theorem isChain_lt_destutter {l : List ℕ} (h : l.Pairwise (· ≤ ·)) :
    (l.destutter (· ≠ ·)).IsChain (· < ·) := by
  have hle : (l.destutter (· ≠ ·)).IsChain (· ≤ ·) := (h.sublist (l.destutter_sublist _)).isChain
  have hne : (l.destutter (· ≠ ·)).IsChain (· ≠ ·) := l.isChain_destutter _
  generalize l.destutter (· ≠ ·) = m at hle hne
  induction m with
  | nil => exact .nil
  | cons a m ih =>
    rw [isChain_cons] at hle hne ⊢
    exact ⟨fun y hy => lt_of_le_of_ne (hle.1 y hy) (hne.1 y hy), ih hle.2 hne.2⟩

end Docx2Typed.Library
