import Mathlib.Data.List.Basic
import Mathlib.Order.Basic

/-!
# Searching a text that is spelled out

Every entry of a list is spelled by a chunk, and a word is searched for in the chunks put together.
A place where it stands there is taken for a place in the list of entries.

* `chunkSlice`: the spelling of some entries;
* `sound_iff`: each place is one where the entries spell the word, exactly when all entries up to
  its end are spelled by one letter each;
* `stands_of_letterByLetter`: then no such place is missed.
-/

namespace Docx2Typed.Library

open List

universe u

variable {β : Type u}

/-- The spelling of the entries `[start, start + n)`. -/
def chunkSlice (chunks : List (List β)) (start n : Nat) : List β :=
  ((chunks.drop start).take n).flatten

/-- All entries up to one are spelled by one letter each. -/
def LetterByLetter (chunks : List (List β)) (stop : Nat) : Prop :=
  stop ≤ chunks.length ∧ ∀ chunk ∈ chunks.take stop, chunk.length = 1

theorem length_le_length_flatten : ∀ {chunks : List (List β)},
    (∀ chunk ∈ chunks, chunk ≠ []) → chunks.length ≤ chunks.flatten.length
  | [], _ => Nat.le_refl _
  | chunk :: rest, h => by
    obtain ⟨hchunk, hrest⟩ := forall_mem_cons.mp h
    have hpos := length_pos_of_ne_nil hchunk
    have ih := length_le_length_flatten hrest
    rw [flatten_cons, length_append, length_cons]
    omega

/-- Entries whose spelling is no longer than they are many are spelled by one letter each. -/
theorem length_eq_one_of_length_flatten : ∀ {chunks : List (List β)},
    (∀ chunk ∈ chunks, chunk ≠ []) → chunks.flatten.length = chunks.length →
      ∀ chunk ∈ chunks, chunk.length = 1
  | [], _, _ => by simp
  | chunk :: rest, h, hlength => by
    obtain ⟨hchunk, hrest⟩ := forall_mem_cons.mp h
    have hpos := length_pos_of_ne_nil hchunk
    have hle := length_le_length_flatten hrest
    rw [flatten_cons, length_append, length_cons] at hlength
    exact forall_mem_cons.mpr
      ⟨by omega, length_eq_one_of_length_flatten hrest (by omega)⟩

theorem length_flatten_of_length_eq_one : ∀ {chunks : List (List β)},
    (∀ chunk ∈ chunks, chunk.length = 1) → chunks.flatten.length = chunks.length
  | [], _ => rfl
  | chunk :: rest, h => by
    obtain ⟨hchunk, hrest⟩ := forall_mem_cons.mp h
    rw [flatten_cons, length_append, length_cons, hchunk,
      length_flatten_of_length_eq_one hrest, Nat.add_comm]

variable {chunks : List (List β)} {needle : List β} {place : Nat}

/-- Behind the spelling of the first entries stands that of the others. -/
theorem drop_flatten (start : Nat) :
    chunks.flatten.drop (chunks.take start).flatten.length = (chunks.drop start).flatten := by
  conv_lhs => rw [← take_append_drop start chunks, flatten_append]
  rw [take_append_drop, drop_left]

theorem chunkSlice_starts (start n : Nat) :
    chunkSlice chunks start n <+: (chunks.drop start).flatten := by
  refine ⟨((chunks.drop start).drop n).flatten, ?_⟩
  rw [chunkSlice, ← flatten_append, take_append_drop]

/-- Where the entries spell the word, it stands behind the spelling of those in front. -/
theorem stands_of_chunkSlice (h : chunkSlice chunks place needle.length = needle) :
    needle <+: chunks.flatten.drop (chunks.take place).flatten.length := by
  rw [drop_flatten]
  exact h ▸ chunkSlice_starts place needle.length

theorem length_take_flatten (h : ∀ chunk ∈ chunks.take place, chunk.length = 1)
    (hplace : place ≤ chunks.length) : (chunks.take place).flatten.length = place := by
  rw [length_flatten_of_length_eq_one h, length_take, Nat.min_eq_left hplace]

/-- In step, the place where the word stands is one where the entries spell it. -/
theorem chunkSlice_of_letterByLetter (h : LetterByLetter chunks (place + needle.length))
    (hstands : needle <+: chunks.flatten.drop place) :
    chunkSlice chunks place needle.length = needle := by
  obtain ⟨hle, hone⟩ := h
  have hbefore : (chunks.take place).flatten.length = place := by
    refine length_take_flatten (fun chunk hchunk => hone chunk ?_) (by omega)
    exact (take_subset_take_left chunks (Nat.le_add_right place _)) hchunk
  have hslice : (chunkSlice chunks place needle.length).length = needle.length := by
    have hmem : ∀ chunk ∈ (chunks.drop place).take needle.length, chunk.length = 1 := by
      intro chunk hchunk
      refine hone chunk ?_
      rw [take_add]
      exact mem_append_right _ hchunk
    rw [chunkSlice, length_flatten_of_length_eq_one hmem, length_take, length_drop]
    omega
  rw [← hbefore, drop_flatten] at hstands
  exact ((prefix_of_prefix_length_le hstands (chunkSlice_starts place needle.length)
    (Nat.le_of_eq hslice.symm)).eq_of_length hslice.symm).symm

/-- The places found are places of the entries exactly where the spelling is in step with them. -/
theorem sound_iff (hchunks : ∀ chunk ∈ chunks, chunk ≠ []) :
    (∀ place, needle <+: chunks.flatten.drop place →
        place + needle.length ≤ chunks.length ∧
          chunkSlice chunks place needle.length = needle) ↔
      ∀ place, needle <+: chunks.flatten.drop place →
        LetterByLetter chunks (place + needle.length) := by
  constructor
  · intro hsound place hstands
    -- by induction from the last place on: a spelling out of step would put the word further on
    induction hn : chunks.length - place using Nat.strongRecOn generalizing place with
    | _ n ih =>
      obtain ⟨hle, hslice⟩ := hsound place hstands
      have hhere : ∀ chunk ∈ (chunks.drop place).take needle.length, chunk.length = 1 := by
        refine length_eq_one_of_length_flatten (fun chunk hchunk => hchunks chunk
          (mem_of_mem_drop (mem_of_mem_take hchunk))) ?_
        have hlength := congrArg List.length hslice
        rw [chunkSlice] at hlength
        rw [hlength, length_take, length_drop]
        omega
      have htaken : ∀ chunk ∈ chunks.take place, chunk ≠ [] := fun chunk hchunk =>
        hchunks chunk (mem_of_mem_take hchunk)
      have hfurther := length_le_length_flatten htaken
      rw [length_take, Nat.min_eq_left (by omega)] at hfurther
      have hbefore : ∀ chunk ∈ chunks.take place, chunk.length = 1 := by
        rcases Nat.eq_or_lt_of_le hfurther with hsame | hlt
        · refine length_eq_one_of_length_flatten htaken ?_
          rw [← hsame, length_take, Nat.min_eq_left (by omega)]
        · have hstands' := stands_of_chunkSlice hslice
          have hbound := (hsound _ hstands').1
          have hstep := ih (chunks.length - (chunks.take place).flatten.length) (by omega) _
            hstands' rfl
          intro chunk hchunk
          exact hstep.2 chunk (take_subset_take_left chunks (by omega) hchunk)
      refine ⟨hle, fun chunk hchunk => ?_⟩
      rw [take_add] at hchunk
      rcases mem_append.mp hchunk with hchunk | hchunk
      · exact hbefore chunk hchunk
      · exact hhere chunk hchunk
  · intro hstep place hstands
    exact ⟨(hstep place hstands).1, chunkSlice_of_letterByLetter (hstep place hstands) hstands⟩

/-- In step, no place is missed where the entries spell the word. -/
theorem stands_of_letterByLetter
    (hstep : ∀ place, needle <+: chunks.flatten.drop place →
      LetterByLetter chunks (place + needle.length))
    (hchunks : ∀ chunk ∈ chunks, chunk ≠ []) (hplace : place + needle.length ≤ chunks.length)
    (h : chunkSlice chunks place needle.length = needle) :
    needle <+: chunks.flatten.drop place := by
  have hstands := stands_of_chunkSlice h
  have hone := (hstep _ hstands).2
  have hle := @length_le_length_flatten _ (chunks.take place) fun chunk hchunk =>
    hchunks chunk (mem_of_mem_take hchunk)
  rw [length_take, Nat.min_eq_left (by omega)] at hle
  have hbefore : (chunks.take place).flatten.length = place :=
    length_take_flatten (fun chunk hchunk =>
      hone chunk (take_subset_take_left chunks (by omega) hchunk)) (by omega)
  rwa [hbefore] at hstands

end Docx2Typed.Library
