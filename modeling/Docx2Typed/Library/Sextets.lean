import Mathlib.Algebra.Ring.Nat
import Mathlib.Data.List.Basic

/-!
# Bytes as groups of six bits

Three bytes make four groups of six bits.  A last chunk of one or two bytes makes two or three
groups, the missing bits being zeros; no group stands for padding.  Reading back shifts the groups
into a word of 32 bits and takes a byte out of it whenever eight bits are there
(`octetsFrom_sextets`).
-/

namespace Docx2Typed.Library

/-- The groups of one chunk, given by its length and its three bytes, missing ones as zero. -/
def chunkSextets (length : Nat) (first second third : UInt8) : List Nat :=
  let packed := first.toNat * 2 ^ 16 + second.toNat * 2 ^ 8 + third.toNat
  ([(0, 18), (1, 12), (2, 6), (3, 0)].filter fun slot : Nat × Nat => slot.1 ≤ length).map
    fun slot => packed / 2 ^ slot.2 % 64

/-- The groups of a list of bytes, chunk by chunk. -/
def sextets : List UInt8 → List Nat
  | [] => []
  | [first] => chunkSextets 1 first 0 0
  | [first, second] => chunkSextets 2 first second 0
  | first :: second :: third :: rest => chunkSextets 3 first second third ++ sextets rest

/-- The bytes of a list of groups, from a word of which `bits` bits are not used up. -/
def octetsFrom (packed bits : Nat) : List Nat → List UInt8
  | [] => []
  | value :: rest =>
    -- a shift to the left drops what leaves the word
    let packed := packed * 64 % 2 ^ 32 + value
    if 8 ≤ bits + 6 then
      UInt8.ofNat (packed / 2 ^ (bits + 6 - 8)) :: octetsFrom packed (bits + 6 - 8) rest
    else octetsFrom packed (bits + 6) rest

/-- The bytes of a list of groups. -/
def octets (values : List Nat) : List UInt8 := octetsFrom 0 0 values

theorem chunkSextets_three (first second third : UInt8) : chunkSextets 3 first second third =
    [first.toNat / 4, first.toNat % 4 * 16 + second.toNat / 16,
      second.toNat % 16 * 4 + third.toNat / 64, third.toNat % 64] := by
  have hfirst := first.toNat_lt
  have hsecond := second.toNat_lt
  have hthird := third.toNat_lt
  simp [chunkSextets]
  refine ⟨?_, ?_, ?_, ?_⟩ <;> omega

theorem chunkSextets_two (first second : UInt8) : chunkSextets 2 first second 0 =
    [first.toNat / 4, first.toNat % 4 * 16 + second.toNat / 16, second.toNat % 16 * 4] := by
  have hfirst := first.toNat_lt
  have hsecond := second.toNat_lt
  simp [chunkSextets]
  refine ⟨?_, ?_, ?_⟩ <;> omega

theorem chunkSextets_one (first : UInt8) : chunkSextets 1 first 0 0 =
    [first.toNat / 4, first.toNat % 4 * 16] := by
  have hfirst := first.toNat_lt
  simp [chunkSextets]
  constructor <;> omega

theorem ofNat_eq {n : Nat} {b : UInt8} (h : n % 256 = b.toNat) : UInt8.ofNat n = b := by
  apply UInt8.toNat_inj.mp
  rw [UInt8.toNat_ofNat', h]

theorem octetsFrom_keep {packed bits value : Nat} {rest : List Nat} (h : bits + 6 < 8) :
    octetsFrom packed bits (value :: rest) =
      octetsFrom (packed * 64 % 2 ^ 32 + value) (bits + 6) rest := by
  rw [octetsFrom, if_neg (Nat.not_le_of_lt h)]

theorem octetsFrom_give {packed bits value : Nat} {rest : List Nat} (h : 8 ≤ bits + 6) :
    octetsFrom packed bits (value :: rest) =
      UInt8.ofNat ((packed * 64 % 2 ^ 32 + value) / 2 ^ (bits + 6 - 8)) ::
        octetsFrom (packed * 64 % 2 ^ 32 + value) (bits + 6 - 8) rest := by
  rw [octetsFrom, if_pos h]

/-- Every group has six bits. -/
theorem lt_of_mem_sextets {value : Nat} {bytes : List UInt8} (h : value ∈ sextets bytes) :
    value < 64 := by
  have hchunk : ∀ {length : Nat} {first second third : UInt8},
      value ∈ chunkSextets length first second third → value < 64 := by
    intro length first second third hmem
    obtain ⟨slot, -, rfl⟩ := List.mem_map.mp hmem
    exact Nat.mod_lt _ (by decide)
  induction bytes using sextets.induct with
  | case1 => exact absurd h List.not_mem_nil
  | case2 first => exact hchunk h
  | case3 first second => exact hchunk h
  | case4 first second third rest ih =>
    rw [sextets, List.mem_append] at h
    exact h.elim hchunk ih

/-- The groups read back as the bytes, whatever was shifted out before. -/
theorem octetsFrom_sextets (bytes : List UInt8) : ∀ packed : Nat,
    octetsFrom packed 0 (sextets bytes) = bytes := by
  induction bytes using sextets.induct with
  | case1 => exact fun _ => rfl
  | case2 first =>
    intro packed
    have hfirst := first.toNat_lt
    rw [sextets, chunkSextets_one, octetsFrom_keep (by decide), octetsFrom_give (by decide)]
    exact congrArg₂ List.cons (ofNat_eq (by omega)) rfl
  | case3 first second =>
    intro packed
    have hfirst := first.toNat_lt
    have hsecond := second.toNat_lt
    rw [sextets, chunkSextets_two, octetsFrom_keep (by decide), octetsFrom_give (by decide),
      octetsFrom_give (by decide)]
    exact congrArg₂ List.cons (ofNat_eq (by omega))
      (congrArg₂ List.cons (ofNat_eq (by omega)) rfl)
  | case4 first second third rest ih =>
    intro packed
    have hfirst := first.toNat_lt
    have hsecond := second.toNat_lt
    have hthird := third.toNat_lt
    simp only [sextets, chunkSextets_three, List.cons_append, List.nil_append]
    rw [octetsFrom_keep (by decide), octetsFrom_give (by decide), octetsFrom_give (by decide),
      octetsFrom_give (by decide)]
    exact congrArg₂ List.cons (ofNat_eq (by omega)) (congrArg₂ List.cons (ofNat_eq (by omega))
      (congrArg₂ List.cons (ofNat_eq (by omega)) (ih _)))

theorem octets_sextets (bytes : List UInt8) : octets (sextets bytes) = bytes :=
  octetsFrom_sextets bytes 0

end Docx2Typed.Library
