import Mathlib.Data.List.Infix
import Mathlib.Data.List.TakeDrop
import Mathlib.Data.List.TakeWhile

/-!
# Searching a list for a block

The first place at which one list stands inside another, and what that place keeps when the
searched list grows to the right.  Byte-level scanners are built from exactly this search, so
the lemmas here are the ones a scanner needs to be cut into pieces:

* `findSub_eq_some_iff`: the place splits the list, and no earlier place does;
* `findSub_append_of_eq_some`: a hit survives any continuation;
* `takeWhile_ne_append`, `dropWhile_ne_append`: a scan up to one entry.
-/

namespace Docx2Typed

open List
namespace Library

variable {α : Type*}

/-! ## Scans that stop -/

variable [DecidableEq α]

variable {stop : α}

theorem takeWhile_ne_append {l m : List α} (h : stop ∉ l) :
    (l ++ stop :: m).takeWhile (· ≠ stop) = l := by
  have hall : ∀ a ∈ l, decide (a ≠ stop) = true := fun a ha =>
    decide_eq_true fun heq => h (heq ▸ ha)
  rw [takeWhile_append_of_pos hall]
  simp

theorem dropWhile_ne_append {l m : List α} (h : stop ∉ l) :
    (l ++ stop :: m).dropWhile (· ≠ stop) = stop :: m := by
  have hall : ∀ a ∈ l, decide (a ≠ stop) = true := fun a ha =>
    decide_eq_true fun heq => h (heq ▸ ha)
  rw [dropWhile_append_of_pos hall]
  simp

/-- Without the entry, `takeWhile` takes all and `dropWhile` leaves nothing. -/
theorem takeWhile_ne_eq_self {l : List α} (h : stop ∉ l) :
    l.takeWhile (· ≠ stop) = l ∧ l.dropWhile (· ≠ stop) = [] := by
  have hall : ∀ a ∈ l, decide (a ≠ stop) = true := fun a ha =>
    decide_eq_true fun heq => h (heq ▸ ha)
  exact ⟨takeWhile_eq_self_iff.mpr hall, dropWhile_eq_nil_iff.mpr hall⟩

/-- A list is what stands before the first occurrence of an entry, and what follows it. -/
theorem eq_takeWhile_append {l : List α} (h : stop ∈ l) :
    ∃ m, l = l.takeWhile (· ≠ stop) ++ stop :: m ∧ l.dropWhile (· ≠ stop) = stop :: m := by
  obtain ⟨before, m, rfl, hbefore⟩ := eq_append_cons_of_mem h
  exact ⟨m, by rw [takeWhile_ne_append hbefore], dropWhile_ne_append hbefore⟩

/-! ## The first place of a block -/

/-- The first index at which `needle` stands in the list. -/
def findSub (needle : List α) : List α → Option Nat
  | [] => if needle = [] then some 0 else none
  | a :: l => if needle <+: a :: l then some 0 else (findSub needle l).map (· + 1)

variable {needle l : List α}

theorem findSub_of_isPrefix (h : needle <+: l) : findSub needle l = some 0 := by
  cases l with
  | nil => simp [findSub, prefix_nil.mp h]
  | cons a l => simp [findSub, h]

theorem findSub_cons_of_not_isPrefix {needle : List α} {a : α} {l : List α}
    (h : ¬ needle <+: a :: l) :
    findSub needle (a :: l) = (findSub needle l).map (· + 1) := by
  rw [findSub, if_neg h]

/-- A hit is a split of the list, and the needle stands nowhere before it. -/
theorem findSub_eq_some_iff {needle : List α} :
    ∀ {l : List α} {i : Nat}, findSub needle l = some i ↔
      (∃ s, l.drop i = needle ++ s) ∧ i ≤ l.length ∧ ∀ j < i, ¬ needle <+: l.drop j
  | [], i => by
    by_cases hn : needle = []
    · subst hn
      constructor
      · intro h
        have hi : i = 0 := by simpa [findSub] using h.symm
        subst hi
        simp
      · rintro ⟨-, hi, -⟩
        have hi : i = 0 := by simpa using hi
        simp [findSub, hi]
    · constructor
      · intro h
        simp [findSub, hn] at h
      · rintro ⟨⟨s, hs⟩, -, -⟩
        simp [hn] at hs
  | a :: l, i => by
    by_cases hp : needle <+: a :: l
    · rw [findSub_of_isPrefix hp]
      constructor
      · intro h
        have hi : i = 0 := (Option.some.inj h).symm
        subst hi
        obtain ⟨s, hs⟩ := hp
        exact ⟨⟨s, by rw [drop_zero, hs]⟩, Nat.zero_le _, by simp⟩
      · rintro ⟨-, -, hfirst⟩
        by_contra hne
        have hpos : 0 < i := by
          rcases Nat.eq_zero_or_pos i with h0 | h0
          · exact absurd (by rw [h0]) hne
          · exact h0
        exact hfirst 0 hpos (by simpa using hp)
    · rw [findSub_cons_of_not_isPrefix hp]
      constructor
      · intro h
        obtain ⟨j, hj, rfl⟩ := Option.map_eq_some_iff.mp h
        obtain ⟨⟨s, hs⟩, hle, hfirst⟩ := findSub_eq_some_iff.mp hj
        refine ⟨⟨s, by simpa using hs⟩, by simpa using hle, ?_⟩
        intro k hk
        cases k with
        | zero => simpa using hp
        | succ k => simpa using hfirst k (by omega)
      · rintro ⟨⟨s, hs⟩, hle, hfirst⟩
        cases i with
        | zero => exact absurd ⟨s, by simpa using hs.symm⟩ hp
        | succ i =>
          have hi : findSub needle l = some i := by
            refine findSub_eq_some_iff.mpr ⟨⟨s, by simpa using hs⟩, by simpa using hle, ?_⟩
            intro j hj
            simpa using hfirst (j + 1) (by omega)
          rw [hi]
          rfl

/-- A hit ends inside the list. -/
theorem findSub_add_length_le {i : Nat} (h : findSub needle l = some i) :
    i + needle.length ≤ l.length := by
  obtain ⟨⟨s, hs⟩, hle, -⟩ := findSub_eq_some_iff.mp h
  have hlen := congrArg List.length hs
  rw [length_drop, length_append] at hlen
  omega

omit [DecidableEq α] in
/-- A block that fits into `l` stands at a place of `l ++ m` iff it stands there in `l`. -/
theorem prefix_drop_append_iff {needle l m : List α} {j : Nat}
    (h : j + needle.length ≤ l.length) :
    needle <+: (l ++ m).drop j ↔ needle <+: l.drop j := by
  rw [drop_append_of_le_length (by omega)]
  constructor
  · intro hp
    exact prefix_of_prefix_length_le hp (List.prefix_append _ _)
      (by rw [length_drop]; omega)
  · intro hp
    exact hp.trans (List.prefix_append _ _)

/-- A hit is not moved by what follows the searched list. -/
theorem findSub_append_of_eq_some {i : Nat} (m : List α) (h : findSub needle l = some i) :
    findSub needle (l ++ m) = some i := by
  have hfit := findSub_add_length_le h
  obtain ⟨⟨s, hs⟩, hle, hfirst⟩ := findSub_eq_some_iff.mp h
  refine findSub_eq_some_iff.mpr ⟨⟨s ++ m, ?_⟩, ?_, ?_⟩
  · rw [drop_append_of_le_length hle, hs, append_assoc]
  · rw [length_append]
    omega
  · intro j hj hp
    exact hfirst j hj ((prefix_drop_append_iff (by omega)).mp hp)

/-- A hit is found in every prefix that holds it. -/
theorem findSub_take_of_eq_some {i k : Nat} (h : findSub needle l = some i)
    (hk : i + needle.length ≤ k) : findSub needle (l.take k) = some i := by
  have hfit := findSub_add_length_le h
  obtain ⟨⟨s, hs⟩, hle, hfirst⟩ := findSub_eq_some_iff.mp h
  refine findSub_eq_some_iff.mpr ⟨⟨s.take (k - i - needle.length), ?_⟩, ?_, ?_⟩
  · rw [List.drop_take, hs, take_append, take_of_length_le (by omega)]
  · rw [length_take]
    omega
  · intro j hj hp
    rw [List.drop_take] at hp
    exact hfirst j hj (hp.trans (List.take_prefix _ _))

/-- No hit means the block stands nowhere. -/
theorem findSub_eq_none_iff {needle : List α} :
    ∀ {l : List α}, findSub needle l = none ↔ ¬ needle <:+: l
  | [] => by
    by_cases hn : needle = []
    · simp [findSub, hn]
    · simp [findSub, hn, infix_nil]
  | a :: l => by
    by_cases hp : needle <+: a :: l
    · rw [findSub_of_isPrefix hp]
      simp [hp.isInfix]
    · rw [findSub_cons_of_not_isPrefix hp, Option.map_eq_none_iff, findSub_eq_none_iff,
        infix_cons_iff]
      simp [hp]

/-- A stretch in which no hit starts is skipped. -/
theorem findSub_skip {needle word : List α} (rest : List α)
    (h : ∀ k, k < word.length → ¬ needle <+: word.drop k ++ rest) :
    findSub needle (word ++ rest) = (findSub needle rest).map (· + word.length) := by
  induction word with
  | nil => simp
  | cons c word ih =>
    have hhead : ¬ needle <+: c :: (word ++ rest) := h 0 (Nat.succ_pos _)
    rw [cons_append, findSub_cons_of_not_isPrefix hhead,
      ih fun k hk => h (k + 1) (Nat.succ_lt_succ hk), Option.map_map]
    rfl

/-! ## Separators -/

omit [DecidableEq α] in
/-- A block without the separator stands on one side of it. -/
theorem infix_append_cons {needle a b : List α} {c : α} (hc : c ∉ needle) :
    needle <:+: a ++ c :: b ↔ needle <:+: a ∨ needle <:+: b := by
  constructor
  · intro h
    rcases infix_append_iff.mp h with h | h | ⟨left, right, rfl, hleft, hright⟩
    · exact .inl h
    · rcases infix_cons_iff.mp h with h | h
      · cases needle with
        | nil => exact .inl (List.nil_infix)
        | cons d needle =>
          obtain ⟨rest, hrest⟩ := h
          rw [cons_append, List.cons.injEq] at hrest
          exact absurd (hrest.1 ▸ mem_cons_self) hc
      · exact .inr h
    · cases right with
      | nil => exact .inl (by simpa using hleft.isInfix)
      | cons d right =>
        obtain ⟨rest, hrest⟩ := hright
        rw [cons_append, List.cons.injEq] at hrest
        exact absurd (mem_append_right left (hrest.1 ▸ mem_cons_self)) hc
  · rintro (h | h)
    · exact h.trans (List.prefix_append _ _).isInfix
    · exact h.trans ((suffix_cons _ _).trans (suffix_append _ _)).isInfix

/-- The first separators of two equal lists stand at one place. -/
theorem append_cons_inj {a b x y : List α} (ha : stop ∉ a) (hb : stop ∉ b)
    (h : a ++ stop :: x = b ++ stop :: y) : a = b ∧ x = y := by
  have htake := congrArg (List.takeWhile (· ≠ stop)) h
  have hdrop := congrArg (List.dropWhile (· ≠ stop)) h
  rw [takeWhile_ne_append ha, takeWhile_ne_append hb] at htake
  rw [dropWhile_ne_append ha, dropWhile_ne_append hb, List.cons.injEq] at hdrop
  exact ⟨htake, hdrop.2⟩

/-- A block up to its first separator, where the list has the second separator at its end. -/
theorem suffix_of_infix_append_cons {name word before value : List α} (hname : stop ∉ name)
    (hword : stop ∈ word) (hbefore : stop ∉ before) (hvalue : stop ∉ value)
    (h : name ++ stop :: word <:+: before ++ stop :: (value ++ [stop])) : name <:+ before := by
  obtain ⟨pre, post, h⟩ := h
  have hpre : stop ∉ pre := by
    intro hmem
    have hcount := congrArg (List.count stop) h
    simp only [count_append, count_cons_self, count_nil,
      count_eq_zero.mpr hname, count_eq_zero.mpr hbefore,
      count_eq_zero.mpr hvalue] at hcount
    have hpos := count_pos_iff.mpr hmem
    have hpos' := count_pos_iff.mpr hword
    omega
  rw [append_assoc, append_assoc, cons_append, ← append_assoc] at h
  have hfront : stop ∉ pre ++ name := fun hmem => (mem_append.mp hmem).elim hpre hname
  exact (append_cons_inj hfront hbefore h).1 ▸ suffix_append _ _

end Library
end Docx2Typed
