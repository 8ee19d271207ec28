import Mathlib.Logic.Basic

/-!
# Programs that may stop at any step

A program works on a state in atomic steps.  Each step takes effect, or fails and leaves the state
as it is, or the process stops before it; what becomes of the steps is a list that the program is
run on, and once the list is used up every step takes effect.  A run ends with a value, with an
error, or stopped.

`Meets P p Q E C` says what holds then: from a state with `P`, the program ends in `Q` with a
value, in `E` with an error, and in `C` where it stops.
-/

namespace Docx2Typed.Library

open List

/-- What becomes of one step. -/
inductive Fate where
  | done
  | fail
  | stop
  deriving DecidableEq, Repr

/-- How a run ends. -/
inductive Ending (ε α : Type) where
  | returned (value : α)
  | failed (error : ε)
  | stopped
  deriving DecidableEq, Repr

/-- The value of a run that ends with one. -/
def Ending.given {ε α : Type} : Ending ε α → Option α
  | .returned value => some value
  | _ => none

theorem Ending.given_eq_some {ε α : Type} {ending : Ending ε α} {value : α}
    (h : ending.given = some value) : ending = .returned value := by
  cases ending with
  | returned value' => rw [Option.some.inj h]
  | failed error => cases h
  | stopped => cases h

/-- What a run leaves: how it ended, the state, and the fates it has not used. -/
structure Left (σ ε α : Type) where
  ending : Ending ε α
  state : σ
  fates : List Fate

/-- A program over states `σ` with errors `ε`. -/
def Program (σ ε α : Type) := σ → List Fate → Left σ ε α

namespace Program

variable {σ ε α β : Type}

def give (value : α) : Program σ ε α := fun state fates => ⟨.returned value, state, fates⟩

def andThen (p : Program σ ε α) (f : α → Program σ ε β) : Program σ ε β := fun state fates =>
  let left := p state fates
  match left.ending with
  | .returned value => f value left.state left.fates
  | .failed error => ⟨.failed error, left.state, left.fates⟩
  | .stopped => ⟨.stopped, left.state, left.fates⟩

instance : Monad (Program σ ε) where
  pure := give
  bind := andThen

def fail (error : ε) : Program σ ε α := fun state fates => ⟨.failed error, state, fates⟩

/-- What the state shows. -/
def look (f : σ → α) : Program σ ε α := fun state fates => ⟨.returned (f state), state, fates⟩

/-- One step; it may fail with an error. -/
def act (error : ε) (f : σ → σ) : Program σ ε Unit := fun state fates =>
  match fates with
  | [] => ⟨.returned (), f state, []⟩
  | .done :: fates => ⟨.returned (), f state, fates⟩
  | .fail :: fates => ⟨.failed error, state, fates⟩
  | .stop :: fates => ⟨.stopped, state, fates⟩

/-- One step whose failure goes unnoticed. -/
def attempt (f : σ → σ) : Program σ ε Unit := fun state fates =>
  match fates with
  | [] => ⟨.returned (), f state, []⟩
  | .done :: fates => ⟨.returned (), f state, fates⟩
  | .fail :: fates => ⟨.returned (), state, fates⟩
  | .stop :: fates => ⟨.stopped, state, fates⟩

/-- An error is handled; a stop is not. -/
def handle (p : Program σ ε α) (h : ε → Program σ ε α) : Program σ ε α := fun state fates =>
  let left := p state fates
  match left.ending with
  | .returned _ => left
  | .failed error => h error left.state left.fates
  | .stopped => left

/-- A program for each entry of a list, in turn. -/
def each (f : β → Program σ ε Unit) : List β → Program σ ε Unit
  | [] => give ()
  | b :: bs => andThen (f b) fun _ => each f bs

/-! ## Rules -/

/-- What a program ends in. -/
def Meets (P : σ → Prop) (p : Program σ ε α) (Q : α → σ → Prop) (E : ε → σ → Prop)
    (C : σ → Prop) : Prop :=
  ∀ state fates, P state →
    match (p state fates).ending with
    | .returned value => Q value (p state fates).state
    | .failed error => E error (p state fates).state
    | .stopped => C (p state fates).state

variable {P : σ → Prop} {Q : α → σ → Prop} {E : ε → σ → Prop} {C : σ → Prop}

variable {p : Program σ ε α}

variable {E' : ε → σ → Prop} {Q' : α → σ → Prop}

theorem Meets.weaken {P' : σ → Prop} {C' : σ → Prop} (h : Meets P p Q E C)
    (hP : ∀ state, P' state → P state) (hQ : ∀ value state, Q value state → Q' value state)
    (hE : ∀ error state, E error state → E' error state) (hC : ∀ state, C state → C' state) :
    Meets P' p Q' E' C' := by
  intro state fates hstate
  have hends := h state fates (hP state hstate)
  cases hending : (p state fates).ending with
  | returned value =>
    rw [hending] at hends
    exact hQ _ _ hends
  | failed error =>
    rw [hending] at hends
    exact hE _ _ hends
  | stopped =>
    rw [hending] at hends
    exact hC _ hends

variable {known : Prop}

theorem Meets.of_imp {P' : σ → Prop} (h : Meets P p Q E C) (hP : ∀ state, P' state → P state) :
    Meets P' p Q E C :=
  fun state fates hstate => h state fates (hP state hstate)

theorem Meets.imp {Q' : α → σ → Prop} (h : Meets P p Q E C)
    (hQ : ∀ value state, Q value state → Q' value state) : Meets P p Q' E C :=
  h.weaken (fun _ h => h) hQ (fun _ _ h => h) fun _ h => h

/-- One state at a time. -/
theorem meets_of_start (h : ∀ start, P start → Meets (fun state => state = start) p Q E C) :
    Meets P p Q E C :=
  fun state fates hstate => h state hstate state fates rfl

/-- What is known beforehand and says nothing of the state. -/
theorem meets_knowing (h : known → Meets P p Q E C) :
    Meets (fun state => P state ∧ known) p Q E C :=
  fun state fates hstate => h hstate.2 state fates hstate.1

variable {value : α}

theorem meets_give (h : ∀ state, P state → Q value state) :
    Meets P (give value : Program σ ε α) Q E C :=
  fun state _ hstate => h state hstate

variable {error : ε}

theorem meets_fail (h : ∀ state, P state → E error state) :
    Meets P (fail error : Program σ ε α) Q E C :=
  fun state _ hstate => h state hstate

theorem meets_look {f : σ → α} (h : ∀ state, P state → Q (f state) state) :
    Meets P (look f : Program σ ε α) Q E C :=
  fun state _ hstate => h state hstate

section

variable {f : σ → σ} {Q : Unit → σ → Prop} (hdone : ∀ state, P state → Q () (f state))

include hdone

theorem meets_act (hfail : ∀ state, P state → E error state) (hstop : ∀ state, P state → C state) :
    Meets P (act error f) Q E C := by
  intro state fates hstate
  rcases fates with _ | ⟨fate, fates⟩
  · exact hdone state hstate
  · cases fate with
    | done => exact hdone state hstate
    | fail => exact hfail state hstate
    | stop => exact hstop state hstate

theorem meets_attempt (hfail : ∀ state, P state → Q () state) (hstop : ∀ state, P state → C state) :
    Meets P (attempt f : Program σ ε Unit) Q E C := by
  intro state fates hstate
  rcases fates with _ | ⟨fate, fates⟩
  · exact hdone state hstate
  · cases fate with
    | done => exact hdone state hstate
    | fail => exact hfail state hstate
    | stop => exact hstop state hstate

end

variable {R : α → σ → Prop} {f : α → Program σ ε β}

theorem meets_andThen {Q : β → σ → Prop} (hp : Meets P p R E C)
    (hf : ∀ value, Meets (R value) (f value) Q E C) : Meets P (andThen p f) Q E C := by
  intro state fates hstate
  have hends := hp state fates hstate
  rw [andThen]
  cases hending : (p state fates).ending with
  | returned value =>
    rw [hending] at hends
    exact hf value _ _ hends
  | failed error =>
    rw [hending] at hends
    exact hends
  | stopped =>
    rw [hending] at hends
    exact hends

variable {h : ε → Program σ ε α}

theorem meets_handle {R : ε → σ → Prop} (hp : Meets P p Q R C)
    (hh : ∀ error, Meets (R error) (h error) Q E C) : Meets P (handle p h) Q E C := by
  intro state fates hstate
  have hends := hp state fates hstate
  rw [handle]
  cases hending : (p state fates).ending with
  | returned value =>
    rw [hending] at hends
    simp only [hending]
    exact hends
  | failed error =>
    rw [hending] at hends
    exact hh error _ _ hends
  | stopped =>
    rw [hending] at hends
    simp only [hending]
    exact hends

variable {I : σ → Prop}

/-- What every round keeps, the loop keeps. -/
theorem meets_each {f : β → Program σ ε Unit} : ∀ {bs : List β},
    (∀ b ∈ bs, Meets I (f b) (fun _ => I) E C) → Meets I (each f bs) (fun _ => I) E C
  | [], _ => meets_give fun _ h => h
  | b :: bs, h => by
    refine meets_andThen (h b mem_cons_self) fun _ => ?_
    exact meets_each fun b' hb' => h b' (mem_cons_of_mem b hb')

variable {state : σ}

/-- However the program ends. -/
theorem Meets.left (h : Meets P p (fun _ => I) (fun _ => I) I) (hstate : P state)
    (fates : List Fate) : I (p state fates).state := by
  have hends := h state fates hstate
  cases hending : (p state fates).ending <;> (rw [hending] at hends; exact hends)

/-- The program keeps a property however it ends. -/
def Keeps (I : σ → Prop) (p : Program σ ε α) : Prop := Meets I p (fun _ => I) (fun _ => I) I

theorem Keeps.left (h : Keeps I p) (hstate : I state) (fates : List Fate) :
    I (p state fates).state :=
  Meets.left h hstate fates

section Keeps

variable {I : σ → Prop}

theorem keeps_give : Keeps I (give value : Program σ ε α) := meets_give fun _ h => h

theorem keeps_fail : Keeps I (fail error : Program σ ε α) := meets_fail fun _ h => h

theorem keeps_look {f : σ → α} : Keeps I (look f : Program σ ε α) := meets_look fun _ h => h

theorem keeps_act {f : σ → σ} (h : ∀ state, I state → I (f state)) : Keeps I (act error f) :=
  meets_act h (fun _ h => h) fun _ h => h

theorem keeps_attempt {f : σ → σ} (h : ∀ state, I state → I (f state)) :
    Keeps I (attempt f : Program σ ε Unit) :=
  meets_attempt h (fun _ h => h) fun _ h => h

theorem keeps_andThen (hp : Keeps I p) (hf : ∀ value, Keeps I (f value)) : Keeps I (andThen p f) :=
  meets_andThen hp hf

theorem keeps_bind (hp : Keeps I p) (hf : ∀ value, Keeps I (f value)) : Keeps I (p >>= f) :=
  meets_andThen hp hf

theorem keeps_handle (hp : Keeps I p) (hh : ∀ error, Keeps I (h error)) : Keeps I (handle p h) :=
  meets_handle hp hh

/-- What is told of a step and of its failure changes nothing. -/
theorem meets_told {P : σ → Prop} {told : α → β} {failed : ε → β}
    (hp : Meets P p (fun _ => I) (fun _ => I) I) :
    Meets P (handle (andThen p fun value => give (told value)) fun error => give (failed error))
      (fun _ => I) (fun _ => I) I :=
  meets_handle (R := fun _ => I) (meets_andThen (R := fun _ => I) hp fun _ => keeps_give)
    fun _ => keeps_give

theorem keeps_ite {c : Prop} [Decidable c] {p q : Program σ ε α} (hp : Keeps I p)
    (hq : Keeps I q) : Keeps I (if c then p else q) := by
  split
  · exact hp
  · exact hq

/-- What would follow an error does not run. -/
theorem keeps_fail_bind : Keeps I ((fail error : Program σ ε α) >>= f) :=
  fun _ _ h => h

theorem keeps_each {f : β → Program σ ε Unit} {bs : List β} (h : ∀ b, Keeps I (f b)) :
    Keeps I (each f bs) :=
  meets_each fun b _ => h b

end Keeps

theorem look_bind {g : σ → α} {state : σ} {fates : List Fate} :
    ((look g : Program σ ε α) >>= f) state fates = f (g state) state fates :=
  rfl

theorem meets_bind {Q : β → σ → Prop} (hp : Meets P p R E C)
    (hf : ∀ value, Meets (R value) (f value) Q E C) : Meets P (p >>= f) Q E C :=
  meets_andThen hp hf

/-- What is looked up in a state that is known. -/
theorem meets_look_at {g : σ → α} {start : σ} {Q : β → σ → Prop}
    (h : Meets (fun state => state = start) (f (g start)) Q E C) :
    Meets (fun state => state = start) (look g >>= f) Q E C := by
  rintro state fates rfl
  exact h state fates rfl

/-- The program gives no value. -/
def Fails (p : Program σ ε α) : Prop := ∀ state fates value, (p state fates).ending ≠ .returned value

theorem fails_fail : Fails (fail error : Program σ ε α) := fun _ _ _ h => by cases h

theorem fails_bind (hf : ∀ value, Fails (f value)) : Fails (p >>= f) := by
  intro state fates value
  change (andThen p f state fates).ending ≠ _
  rw [andThen]
  cases (p state fates).ending with
  | returned value' => exact hf value' _ _ value
  | failed error => exact fun h => by cases h
  | stopped => exact fun h => by cases h

theorem Keeps.fails (h : Keeps I p) (hp : Fails p) : Meets I p Q (fun _ => I) I := by
  intro state fates hstate
  have hends := h state fates hstate
  cases hending : (p state fates).ending with
  | returned value => exact absurd hending (hp state fates value)
  | failed error =>
    rw [hending] at hends
    exact hends
  | stopped =>
    rw [hending] at hends
    exact hends

/-! ## Runs that are not stopped -/

/-- What a program ends in when none of its steps is a stop. -/
def Ends (P : σ → Prop) (p : Program σ ε α) (Q : α → σ → Prop) (E : ε → σ → Prop) : Prop :=
  ∀ state fates, P state → .stop ∉ fates → .stop ∉ (p state fates).fates ∧
    match (p state fates).ending with
    | .returned value => Q value (p state fates).state
    | .failed error => E error (p state fates).state
    | .stopped => False

theorem Ends.weaken {P' : σ → Prop} (h : Ends P p Q E) (hP : ∀ state, P' state → P state)
    (hQ : ∀ value state, Q value state → Q' value state)
    (hE : ∀ error state, E error state → E' error state) : Ends P' p Q' E' := by
  intro state fates hstate hfates
  obtain ⟨hleft, hends⟩ := h state fates (hP state hstate) hfates
  refine ⟨hleft, ?_⟩
  cases hending : (p state fates).ending with
  | returned value =>
    rw [hending] at hends
    exact hQ _ _ hends
  | failed error =>
    rw [hending] at hends
    exact hE _ _ hends
  | stopped =>
    rw [hending] at hends
    exact hends

theorem Ends.of_imp {P' : σ → Prop} (h : Ends P p Q E) (hP : ∀ state, P' state → P state) :
    Ends P' p Q E :=
  fun state fates hstate => h state fates (hP state hstate)

theorem ends_knowing (h : known → Ends P p Q E) : Ends (fun state => P state ∧ known) p Q E :=
  fun state fates hstate => h hstate.2 state fates hstate.1

theorem ends_give (h : ∀ state, P state → Q value state) :
    Ends P (give value : Program σ ε α) Q E :=
  fun state _ hstate hfates => ⟨hfates, h state hstate⟩

theorem ends_fail (h : ∀ state, P state → E error state) :
    Ends P (fail error : Program σ ε α) Q E :=
  fun state _ hstate hfates => ⟨hfates, h state hstate⟩

theorem ends_look {f : σ → α} (h : ∀ state, P state → Q (f state) state) :
    Ends P (look f : Program σ ε α) Q E :=
  fun state _ hstate hfates => ⟨hfates, h state hstate⟩

/-- What is looked up in a state that is known. -/
theorem ends_look_at {g : σ → α} {start : σ} {Q : β → σ → Prop}
    (h : Ends (fun state => state = start) (f (g start)) Q E) :
    Ends (fun state => state = start) (andThen (look g) f) Q E := by
  rintro state fates rfl
  exact h state fates rfl

section

variable {f : σ → σ} {Q : Unit → σ → Prop} (hdone : ∀ state, P state → Q () (f state))

include hdone

theorem ends_act (hfail : ∀ state, P state → E error state) : Ends P (act error f) Q E := by
  intro state fates hstate hfates
  rcases fates with _ | ⟨fate, fates⟩
  · exact ⟨hfates, hdone state hstate⟩
  · have hleft : .stop ∉ fates := fun h => hfates (mem_cons_of_mem fate h)
    cases fate with
    | done => exact ⟨hleft, hdone state hstate⟩
    | fail => exact ⟨hleft, hfail state hstate⟩
    | stop => exact absurd mem_cons_self hfates

theorem ends_attempt (hfail : ∀ state, P state → Q () state) :
    Ends P (attempt f : Program σ ε Unit) Q E := by
  intro state fates hstate hfates
  rcases fates with _ | ⟨fate, fates⟩
  · exact ⟨hfates, hdone state hstate⟩
  · have hleft : .stop ∉ fates := fun h => hfates (mem_cons_of_mem fate h)
    cases fate with
    | done => exact ⟨hleft, hdone state hstate⟩
    | fail => exact ⟨hleft, hfail state hstate⟩
    | stop => exact absurd mem_cons_self hfates

end

theorem ends_andThen {Q : β → σ → Prop} (hp : Ends P p R E)
    (hf : ∀ value, Ends (R value) (f value) Q E) : Ends P (andThen p f) Q E := by
  intro state fates hstate hfates
  obtain ⟨hleft, hends⟩ := hp state fates hstate hfates
  rw [andThen]
  cases hending : (p state fates).ending with
  | returned value =>
    rw [hending] at hends
    exact hf value _ _ hends hleft
  | failed error =>
    rw [hending] at hends
    exact ⟨hleft, hends⟩
  | stopped =>
    rw [hending] at hends
    exact hends.elim

theorem ends_handle {R : ε → σ → Prop} (hp : Ends P p Q R)
    (hh : ∀ error, Ends (R error) (h error) Q E) : Ends P (handle p h) Q E := by
  intro state fates hstate hfates
  obtain ⟨hleft, hends⟩ := hp state fates hstate hfates
  rw [handle]
  cases hending : (p state fates).ending with
  | returned value =>
    rw [hending] at hends
    simp only [hending]
    exact ⟨hleft, hends⟩
  | failed error =>
    rw [hending] at hends
    exact hh error _ _ hends hleft
  | stopped =>
    rw [hending] at hends
    exact hends.elim

theorem ends_each {f : β → Program σ ε Unit} : ∀ {bs : List β},
    (∀ b ∈ bs, Ends I (f b) (fun _ => I) E) → Ends I (each f bs) (fun _ => I) E
  | [], _ => ends_give fun _ h => h
  | b :: bs, h => by
    refine ends_andThen (h b mem_cons_self) fun _ => ?_
    exact ends_each fun b' hb' => h b' (mem_cons_of_mem b hb')

/-! ## Programs with a number of steps -/

/-- The program has `n` steps.  Where they all take effect it ends in `Q`; where fewer do and the
next one fails or is not reached, it ends in `C`. -/
def Paces (P : σ → Prop) (n : Nat) (p : Program σ ε α) (Q : α → σ → Prop) (C : σ → Prop) : Prop :=
  ∀ state, P state →
    (∃ value left, Q value left ∧ ∀ fates, (∀ fate ∈ fates.take n, fate = .done) →
      p state fates = ⟨.returned value, left, fates.drop n⟩) ∧
    ∀ taken < n, ∃ left, C left ∧ ∀ rest,
      p state (List.replicate taken .done ++ .stop :: rest) = ⟨.stopped, left, rest⟩ ∧
      ∃ error, p state (List.replicate taken .done ++ .fail :: rest) = ⟨.failed error, left, rest⟩

theorem paces_give (h : ∀ state, P state → Q value state) :
    Paces P 0 (give value : Program σ ε α) Q C :=
  fun state hstate => ⟨⟨value, state, h state hstate, fun _ _ => rfl⟩, fun _ hlt => by omega⟩

theorem paces_look {f : σ → α} (h : ∀ state, P state → Q (f state) state) :
    Paces P 0 (look f : Program σ ε α) Q C :=
  fun state hstate => ⟨⟨f state, state, h state hstate, fun _ _ => rfl⟩, fun _ hlt => by omega⟩

theorem paces_act {f : σ → σ} {Q : Unit → σ → Prop} (hdone : ∀ state, P state → Q () (f state))
    (hcut : ∀ state, P state → C state) : Paces P 1 (act error f) Q C := by
  intro state hstate
  refine ⟨⟨(), f state, hdone state hstate, fun fates hfates => ?_⟩, fun taken htaken => ?_⟩
  · rcases fates with _ | ⟨fate, fates⟩
    · rfl
    · obtain rfl := hfates fate (by simp)
      rfl
  · obtain rfl : taken = 0 := by omega
    exact ⟨state, hcut state hstate, fun rest => ⟨rfl, error, rfl⟩⟩

theorem paces_knowing {n : Nat} (h : known → Paces P n p Q C) :
    Paces (fun state => P state ∧ known) n p Q C :=
  fun state hstate => h hstate.2 state hstate.1

variable {n m : Nat}

theorem Paces.of_eq (h : Paces P n p Q C) (hn : n = m) : Paces P m p Q C :=
  hn ▸ h

/-- Enough steps take effect, and the program is through. -/
theorem Paces.passed {n : Nat} (h : Paces P n p Q C) (hstate : P state) :
    ∃ value left, Q value left ∧ ∀ taken, n ≤ taken → ∀ fates,
      p state (List.replicate taken .done ++ fates) =
        ⟨.returned value, left, List.replicate (taken - n) .done ++ fates⟩ := by
  obtain ⟨⟨value, left, hleft, hdone⟩, -⟩ := h state hstate
  refine ⟨value, left, hleft, fun taken htaken fates => ?_⟩
  rw [hdone _ fun fate hmem => ?_]
  · rw [drop_append_of_le_length (by simpa using htaken), drop_replicate]
  · rw [take_append_of_le_length (by simpa using htaken)] at hmem
    exact eq_of_mem_replicate (mem_of_mem_take hmem)

theorem paces_andThen {Q : β → σ → Prop} (hp : Paces P n p R C)
    (hf : ∀ value, Paces (R value) m (f value) Q C) : Paces P (n + m) (andThen p f) Q C := by
  intro state hstate
  obtain ⟨⟨value, middle, hmiddle, hdone⟩, hcut⟩ := hp state hstate
  obtain ⟨⟨result, final, hfinal, hrest⟩, -⟩ := hf value middle hmiddle
  refine ⟨⟨result, final, hfinal, fun fates hfates => ?_⟩, fun taken htaken => ?_⟩
  · rw [take_add] at hfates
    simp only [andThen, hdone fates fun fate hmem => hfates fate (mem_append_left _ hmem),
      hrest _ fun fate hmem => hfates fate (mem_append_right _ hmem), drop_drop]
  · by_cases hlt : taken < n
    · obtain ⟨left, hleft, hruns⟩ := hcut taken hlt
      refine ⟨left, hleft, fun rest => ?_⟩
      obtain ⟨hstop, error, hfail⟩ := hruns rest
      exact ⟨by simp only [andThen, hstop], error, by simp only [andThen, hfail]⟩
    · obtain ⟨value', middle', hmiddle', hpassed⟩ := hp.passed hstate
      obtain ⟨left, hleft, hruns⟩ := (hf value' middle' hmiddle').2 (taken - n) (by omega)
      refine ⟨left, hleft, fun rest => ?_⟩
      obtain ⟨hstop, error, hfail⟩ := hruns rest
      have hreach := hpassed taken (Nat.not_lt.mp hlt)
      exact ⟨by simp only [andThen, hreach, hstop], error, by simp only [andThen, hreach, hfail]⟩

theorem paces_bind {Q : β → σ → Prop} (hp : Paces P n p R C)
    (hf : ∀ value, Paces (R value) m (f value) Q C) : Paces P (n + m) (p >>= f) Q C :=
  paces_andThen hp hf

theorem paces_each {f : β → Program σ ε Unit} : ∀ {bs : List β},
    (∀ b, Paces I 1 (f b) (fun _ => I) C) → Paces I bs.length (each f bs) (fun _ => I) C
  | [], _ => paces_give fun _ h => h
  | b :: bs, h => by
    have hrun : Paces I (1 + bs.length) (each f (b :: bs)) (fun _ => I) C :=
      paces_andThen (h b) fun _ => paces_each h
    rwa [Nat.add_comm] at hrun

end Program

end Docx2Typed.Library
