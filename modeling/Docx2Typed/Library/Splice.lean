import Mathlib.Data.List.Sort

/-!
# Splices of a list

A cut replaces the entries of a range.  Cuts that lie apart can be applied one after the other,
the last range first, and the result is that of replacing all ranges of the original at once.

* `replaceAll`: the simultaneous replacement of ranges in order;
* `applyCuts_eq_replaceAll`: right to left is all at once;
* `ordered_insertionSort`: sorting ranges that lie apart puts them in order.
-/

namespace Docx2Typed.Library

open List

universe u

variable {α : Type u}

/-- The entries from `start` to `stop` become `content`. -/
structure Cut (α : Type u) where
  start : Nat
  stop : Nat
  content : List α

namespace Cut

/-- The range is one of a list of `n` entries. -/
def Inside (n : Nat) (cut : Cut α) : Prop := cut.start ≤ cut.stop ∧ cut.stop ≤ n

/-- One range ends before the other starts. -/
def Apart (a b : Cut α) : Prop := a.stop ≤ b.start ∨ b.stop ≤ a.start

def apply (cut : Cut α) (xs : List α) : List α :=
  xs.take cut.start ++ cut.content ++ xs.drop cut.stop

end Cut

/-- The cuts from the last to the first. -/
def applyCuts (xs : List α) (cuts : List (Cut α)) : List α := cuts.foldr Cut.apply xs

/-- The list from `offset` on, with all ranges replaced at once. -/
def replaceFrom (xs : List α) : Nat → List (Cut α) → List α
  | offset, [] => xs.drop offset
  | offset, cut :: rest =>
    (xs.take cut.start).drop offset ++ cut.content ++ replaceFrom xs cut.stop rest

def replaceAll (xs : List α) (cuts : List (Cut α)) : List α := replaceFrom xs 0 cuts

/-- Ranges one behind the other. -/
def OrderedCuts (cuts : List (Cut α)) : Prop := cuts.Pairwise fun a b => a.stop ≤ b.start

theorem take_applyCuts {xs : List α} {n : Nat} : ∀ {cuts : List (Cut α)},
    (∀ cut ∈ cuts, n ≤ cut.start) → n ≤ xs.length → (applyCuts xs cuts).take n = xs.take n
  | [], _, _ => rfl
  | cut :: rest, hcuts, hn => by
    obtain ⟨hcut, hrest⟩ := forall_mem_cons.mp hcuts
    have ih := take_applyCuts hrest hn
    have hlength : n ≤ (applyCuts xs rest).length := by
      have := congrArg List.length ih
      rw [length_take, length_take] at this
      omega
    rw [applyCuts, foldr_cons, Cut.apply, ← applyCuts, append_assoc,
      take_append_of_le_length (by rw [length_take]; omega), take_take,
      Nat.min_eq_left hcut, ih]

variable {xs : List α}

theorem drop_applyCuts : ∀ {cuts : List (Cut α)} {offset : Nat},
    OrderedCuts cuts → (∀ cut ∈ cuts, cut.Inside xs.length) → (∀ cut ∈ cuts, offset ≤ cut.start) →
      (applyCuts xs cuts).drop offset = replaceFrom xs offset cuts
  | [], _, _, _, _ => rfl
  | cut :: rest, offset, horder, hinside, hoffset => by
    obtain ⟨hcut, hrest⟩ := pairwise_cons.mp horder
    obtain ⟨⟨hle, hlen⟩, hinside⟩ := forall_mem_cons.mp hinside
    have hbehind : ∀ c ∈ rest, cut.stop ≤ c.start := hcut
    have ih := drop_applyCuts hrest hinside hbehind
    have hhead : (applyCuts xs rest).take cut.start = xs.take cut.start :=
      take_applyCuts (fun c hc => hle.trans (hbehind c hc)) (hle.trans hlen)
    have hfirst : offset ≤ cut.start := hoffset cut mem_cons_self
    rw [applyCuts, foldr_cons, Cut.apply, ← applyCuts, hhead, ih, replaceFrom,
      append_assoc, drop_append_of_le_length (by rw [length_take]; omega),
      append_assoc]

variable {cuts : List (Cut α)}

/-- Right to left is all at once. -/
theorem applyCuts_eq_replaceAll (horder : OrderedCuts cuts)
    (hinside : ∀ cut ∈ cuts, cut.Inside xs.length) : applyCuts xs cuts = replaceAll xs cuts :=
  drop_applyCuts horder hinside fun _ _ => Nat.zero_le _

theorem Cut.Apart.symm {a b : Cut α} (h : a.Apart b) : b.Apart a := Or.symm h

/-- Sorting ranges that lie apart, none of them empty, puts them in order. -/
theorem ordered_insertionSort (hapart : cuts.Pairwise Cut.Apart)
    (hne : ∀ cut ∈ cuts, cut.start < cut.stop) :
    OrderedCuts (cuts.insertionSort fun a b => a.start ≤ b.start) := by
  have hperm := perm_insertionSort (fun a b : Cut α => a.start ≤ b.start) cuts
  have hapart' := (hperm.pairwise_iff Cut.Apart.symm).mpr hapart
  have hsorted := pairwise_insertionSort (fun a b : Cut α => a.start ≤ b.start) cuts
  refine (hapart'.and hsorted).imp_of_mem ?_
  rintro a b ha hb ⟨hab | hba, hle⟩
  · exact hab
  · have := hne a (hperm.mem_iff.mp ha)
    have := hne b (hperm.mem_iff.mp hb)
    omega

/-! ## Cuts of a range -/

/-- Cuts that end before `stop` leave what follows. -/
theorem replaceFrom_take {stop : Nat} (hstop : stop ≤ xs.length) :
    ∀ {cuts : List (Cut α)} {offset : Nat}, (∀ cut ∈ cuts, cut.start ≤ cut.stop ∧ cut.stop ≤ stop) →
      offset ≤ stop → replaceFrom xs offset cuts =
        replaceFrom (xs.take stop) offset cuts ++ xs.drop stop
  | [], offset, _, hoffset => by
    rw [replaceFrom, replaceFrom]
    conv_lhs => rw [← take_append_drop stop xs]
    exact drop_append_of_le_length (by rw [length_take]; omega)
  | cut :: rest, offset, hcuts, hoffset => by
    obtain ⟨⟨hle, hcut⟩, hrest⟩ := forall_mem_cons.mp hcuts
    rw [replaceFrom, replaceFrom, replaceFrom_take hstop hrest hcut, take_take,
      Nat.min_eq_left (hle.trans hcut), append_assoc _ _ (xs.drop stop)]

/-- Cuts of a range replace the range. -/
theorem applyCuts_eq_append {start stop : Nat} (hstart : start ≤ stop) (hstop : stop ≤ xs.length)
    (horder : OrderedCuts cuts)
    (hinside : ∀ cut ∈ cuts, start ≤ cut.start ∧ cut.start ≤ cut.stop ∧ cut.stop ≤ stop) :
    applyCuts xs cuts =
      xs.take start ++ replaceFrom (xs.take stop) start cuts ++ xs.drop stop := by
  have htake : (applyCuts xs cuts).take start = xs.take start :=
    take_applyCuts (fun cut hcut => (hinside cut hcut).1) (hstart.trans hstop)
  have hdrop : (applyCuts xs cuts).drop start = replaceFrom xs start cuts := by
    refine drop_applyCuts horder (fun cut hcut => ?_) fun cut hcut => (hinside cut hcut).1
    exact ⟨(hinside cut hcut).2.1, (hinside cut hcut).2.2.trans hstop⟩
  have hrange := replaceFrom_take hstop (fun cut hcut => (hinside cut hcut).2) hstart
  rw [← take_append_drop start (applyCuts xs cuts), htake, hdrop, hrange, append_assoc]

/-- The cut, `k` entries further on. -/
def Cut.raise (k : Nat) (cut : Cut α) : Cut α := ⟨k + cut.start, k + cut.stop, cut.content⟩

/-- Cuts of what stands behind other entries. -/
theorem replaceFrom_raise (front back : List α) : ∀ (offset : Nat) (cuts : List (Cut α)),
    replaceFrom (front ++ back) (front.length + offset) (cuts.map (Cut.raise front.length)) =
      replaceFrom back offset cuts
  | offset, [] => drop_length_add_append ..
  | offset, cut :: rest => by
    have hstart : (cut.raise front.length).start = front.length + cut.start := rfl
    have hstop : (cut.raise front.length).stop = front.length + cut.stop := rfl
    have hcontent : (cut.raise front.length).content = cut.content := rfl
    rw [map_cons, replaceFrom, replaceFrom, hstart, hstop, hcontent,
      replaceFrom_raise front back cut.stop rest, take_length_add_append,
      drop_length_add_append]

theorem replaceFrom_append (front back : List α) : ∀ cuts : List (Cut α),
    replaceFrom (front ++ back) 0 (cuts.map (Cut.raise front.length)) =
      front ++ replaceFrom back 0 cuts
  | [] => rfl
  | cut :: rest => by
    have hstart : (cut.raise front.length).start = front.length + cut.start := rfl
    have hstop : (cut.raise front.length).stop = front.length + cut.stop := rfl
    have hcontent : (cut.raise front.length).content = cut.content := rfl
    rw [map_cons, replaceFrom, replaceFrom, hstart, hstop, hcontent, replaceFrom_raise,
      take_length_add_append, drop_zero, drop_zero]
    simp only [append_assoc]

theorem applyCuts_append (xs : List α) (front back : List (Cut α)) :
    applyCuts xs (front ++ back) = applyCuts (applyCuts xs back) front :=
  foldr_append ..

end Docx2Typed.Library
