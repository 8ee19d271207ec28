import Docx2Typed.Library.Utf8
import Mathlib.Algebra.Ring.Int.Defs
import Mathlib.Algebra.Ring.Nat

/-!
# Bytes, texts and outcomes

The Rust code works on `&[u8]` for parts and packages and on `String` for decoded text.  Here a
byte buffer is a list of bytes and a decoded text is a list of characters; names and ids, which
the code only compares and prints, stay strings.

An operation ends in a value, in a refusal (`Err` of a `CoreError`), or in a panic (an index out
of range, an `expect` on `None`).  The last two are kept apart: a caller of the code can handle
the first and not the second.
-/

namespace Docx2Typed

open List

abbrev Bytes := List UInt8

abbrev Text := List Char

instance : LawfulBEq Text := inferInstanceAs (LawfulBEq (List Char))

/-- UTF-8 of a text. -/
abbrev utf8 (text : Text) : Bytes := Library.Utf8.encode text

/-- The bytes of a literal (`b"..."`). -/
def bytes (s : String) : Bytes := utf8 s.toList

/-- A literal is the characters it is written with; evaluating `toList` would decode it again. -/
theorem bytes_ofList {text : Text} : bytes (String.ofList text) = utf8 text :=
  congrArg utf8 String.toList_ofList

/-- The byte of an ASCII character (`b'<'`). -/
abbrev byte (c : Char) : UInt8 := c.toUInt8

/-- `CoreError`; what an I/O error says is not modelled. -/
inductive CoreError where
  | io
  | domain (message : String)
  | message (message : String)
  deriving DecidableEq, Repr

/-- How an operation can fail to produce its value. -/
inductive Failure where
  | refused (error : CoreError)
  | panic
  deriving DecidableEq, Repr

abbrev Outcome (α : Type) := Except Failure α

/-- `Err(CoreError::Domain(..))`. -/
def refuse {α : Type} (message : String) : Outcome α := .error (.refused (.domain message))

/-- The value of an `Option` the code unwraps. -/
def expect {α : Type} : Option α → Outcome α
  | some a => .ok a
  | none => .error .panic

/-! ## Reading an outcome -/

section Outcome

variable {ε α β : Type}

theorem bind_eq_ok {x : Except ε α} {f : α → Except ε β} {b : β} (h : (x >>= f) = .ok b) :
    ∃ a, x = .ok a ∧ f a = .ok b := by
  cases x with
  | error e => exact absurd h (by simp [bind, Except.bind])
  | ok a => exact ⟨a, rfl, h⟩

theorem bind_ok {x : Except ε α} {f : α → Except ε β} {a : α} (h : x = .ok a) :
    (x >>= f) = f a := by
  rw [h]
  rfl

theorem exists_bind_ok {x : Except ε α} {f : α → Except ε β} :
    (∃ b, (x >>= f) = .ok b) ↔ ∃ a, x = .ok a ∧ ∃ b, f a = .ok b := by
  constructor
  · rintro ⟨b, h⟩
    obtain ⟨a, ha, hb⟩ := bind_eq_ok h
    exact ⟨a, ha, b, hb⟩
  · rintro ⟨a, ha, b, hb⟩
    exact ⟨b, by rw [bind_ok ha, hb]⟩

theorem refuse_ne_ok {message : String} {a : α} : (refuse message : Outcome α) ≠ .ok a := by
  simp [refuse]

theorem mapM_eq_ok {f : α → Except ε β} : ∀ {xs : List α} {ys : List β},
    xs.mapM f = .ok ys → List.Forall₂ (fun x y => f x = .ok y) xs ys
  | [], ys, h => by
    obtain rfl : ([] : List β) = ys := by simpa [pure, Except.pure] using h
    exact .nil
  | x :: xs, ys, h => by
    rw [mapM_cons] at h
    obtain ⟨y, hy, h⟩ := bind_eq_ok h
    obtain ⟨rest, hrest, h⟩ := bind_eq_ok h
    obtain rfl : y :: rest = ys := by simpa [pure, Except.pure] using h
    exact .cons hy (mapM_eq_ok hrest)

theorem exists_mapM_eq_ok {f : α → Except ε β} {P : α → β → Prop} : ∀ {xs : List α},
    (∀ x ∈ xs, ∃ y, f x = .ok y ∧ P x y) → ∃ ys, xs.mapM f = .ok ys ∧ List.Forall₂ P xs ys
  | [], _ => ⟨[], rfl, .nil⟩
  | x :: xs, h => by
    obtain ⟨y, hy, hP⟩ := h x (by simp)
    obtain ⟨ys, hys, hPs⟩ := exists_mapM_eq_ok fun x' hx' => h x' (mem_cons_of_mem _ hx')
    refine ⟨y :: ys, ?_, .cons hP hPs⟩
    rw [mapM_cons, bind_ok hy, bind_ok hys]
    rfl

theorem exists_of_forall₂_of_mem {R : α → β → Prop} {xs : List α} {ys : List β}
    (h : List.Forall₂ R xs ys) {y : β} (hy : y ∈ ys) : ∃ x ∈ xs, R x y := by
  induction h with
  | nil => cases hy
  | @cons x y' xs ys hxy _ ih =>
    rcases mem_cons.mp hy with rfl | hy
    · exact ⟨x, mem_cons_self, hxy⟩
    · obtain ⟨x, hx, hxy⟩ := ih hy
      exact ⟨x, mem_cons_of_mem _ hx, hxy⟩

theorem mapM_eq_map {f : α → Except ε β} {g : α → β} : ∀ {xs : List α},
    (∀ x ∈ xs, f x = .ok (g x)) → xs.mapM f = .ok (xs.map g)
  | [], _ => rfl
  | x :: xs, h => by
    obtain ⟨hx, hxs⟩ := forall_mem_cons.mp h
    rw [mapM_cons, bind_ok hx, bind_ok (mapM_eq_map hxs)]
    rfl

theorem mapM_ok_iff {f : α → Except ε β} : ∀ {xs : List α},
    (∃ ys, xs.mapM f = .ok ys) ↔ ∀ x ∈ xs, ∃ y, f x = .ok y
  | [] => iff_of_true ⟨[], rfl⟩ (by simp)
  | x :: xs => by
    rw [forall_mem_cons, ← mapM_ok_iff, mapM_cons, exists_bind_ok]
    constructor
    · rintro ⟨y, hy, h⟩
      obtain ⟨ys, hys, -⟩ := exists_bind_ok.mp h
      exact ⟨⟨y, hy⟩, ys, hys⟩
    · rintro ⟨⟨y, hy⟩, ys, hys⟩
      exact ⟨y, hy, exists_bind_ok.mpr ⟨ys, hys, y :: ys, rfl⟩⟩

theorem mapM_congr {m : Type → Type} [Monad m] [LawfulMonad m] {f g : α → m β} :
    ∀ {xs : List α}, (∀ x ∈ xs, f x = g x) → xs.mapM f = xs.mapM g
  | [], _ => by simp
  | x :: xs, h => by
    rw [mapM_cons, mapM_cons, h x mem_cons_self,
      mapM_congr fun x' hx' => h x' (mem_cons_of_mem x hx')]

theorem exists_ok_of_map {x : Except ε α} {f : α → β} {b : β} (h : x.toOption.map f = some b) :
    ∃ a, x = .ok a ∧ f a = b := by
  cases x with
  | error e => cases h
  | ok a => exact ⟨a, rfl, Option.some.inj h⟩

theorem expect_eq_ok_iff {x : Option α} {a : α} : expect x = .ok a ↔ x = some a := by
  cases x with
  | none => simp [expect]
  | some b => simp [expect]

end Outcome

end Docx2Typed
