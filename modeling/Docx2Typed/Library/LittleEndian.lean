import Mathlib.Data.List.Basic
import Mathlib.Tactic.Ring

/-!
# Little-endian numbers

`write w n` is the number `n` modulo `256 ^ w` in `w` bytes, least significant byte first, and
`read` the number some bytes stand for.
-/

namespace Docx2Typed.Library.LittleEndian

def write : Nat → Nat → List UInt8
  | 0, _ => []
  | width + 1, n => UInt8.ofNat (n % 256) :: write width (n / 256)

def read : List UInt8 → Nat
  | [] => 0
  | b :: rest => b.toNat + 256 * read rest

@[simp] theorem length_write : ∀ (width n : Nat), (write width n).length = width
  | 0, _ => rfl
  | width + 1, n => by rw [write, List.length_cons, length_write width]

theorem toNat_ofNat_mod (n : Nat) : (UInt8.ofNat (n % 256)).toNat = n % 256 := by
  rw [UInt8.toNat_ofNat']
  omega

theorem read_write_mod : ∀ width n : Nat, read (write width n) = n % 256 ^ width
  | 0, n => by simp [read, write, Nat.mod_one]
  | width + 1, n => by
    rw [write, read, toNat_ofNat_mod, read_write_mod width, Nat.pow_succ', Nat.mod_mul]

theorem read_write {width n : Nat} (h : n < 256 ^ width) : read (write width n) = n := by
  rw [read_write_mod, Nat.mod_eq_of_lt h]

theorem write_mod : ∀ width n : Nat, write width (n % 256 ^ width) = write width n
  | 0, _ => rfl
  | width + 1, n => by
    have hlow : n % (256 * 256 ^ width) % 256 = n % 256 := Nat.mod_mul_right_mod n 256 _
    have hhigh : n % (256 * 256 ^ width) / 256 = n / 256 % 256 ^ width :=
      Nat.mod_mul_right_div_self n 256 _
    rw [write, write, Nat.pow_succ', hlow, hhigh, write_mod width]

/-- Two numbers of one width are written alike only if they are equal there. -/
theorem write_inj {width m n : Nat} (hm : m < 256 ^ width) (hn : n < 256 ^ width) :
    write width m = write width n ↔ m = n :=
  ⟨fun h => by rw [← read_write hm, h, read_write hn], fun h => by rw [h]⟩

end Docx2Typed.Library.LittleEndian
