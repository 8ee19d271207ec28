import Docx2Typed.Library.Scan

/-!
# Two scanners in step

A scanner cuts its tokens with one function and labels them with another.  Where a second scanner
ends its tokens no later than the first, what both read can be compared token by token: they stay
in step as long as the second finds no opener between its own end of a token and that of the first.

* `readScan_eq`: the scanners read the same list if they read each token alike;
* `inStep_of_readScan_eq`: the converse, unless a token nobody reads throws the second scanner out
  of step.
-/

namespace Docx2Typed.Library

open List

universe u v

variable {α : Type u} {β : Type v} [DecidableEq α]

section Readers

variable (opener : α) (width : List α → Option ℕ) (label : List α → Option β)

/-- What a token is read as, with its place. -/
def readToken (token : List α) (start stop : ℕ) : Option (β × ℕ × ℕ) :=
  (label token).map fun b => (b, start, stop)

/-- What a scanner reads from `offset` on; a round takes at least one entry, so the length of the
list is fuel enough. -/
def readScan : ℕ → ℕ → List α → List (β × ℕ × ℕ)
  | 0, _, _ => []
  | fuel + 1, offset, xs =>
    let start := offset + (xs.takeWhile (· != opener)).length
    let rest := xs.dropWhile (· != opener)
    if rest = [] then []
    else
      match width rest with
      | none => []
      | some n =>
        (readToken label (rest.take n) start (start + n)).toList ++
          readScan fuel (start + n) (rest.drop n)

/-- The tokens of a scanner. -/
def scanTokens : ℕ → List α → List (List α)
  | 0, _ => []
  | fuel + 1, xs =>
    let rest := xs.dropWhile (· != opener)
    if rest = [] then []
    else
      match width rest with
      | none => []
      | some n => rest.take n :: scanTokens fuel (rest.drop n)

/-- What a scanner leaves: it starts at an opener whose token has no end, or is empty. -/
def scanRest : ℕ → List α → List α
  | 0, _ => []
  | fuel + 1, xs =>
    let rest := xs.dropWhile (· != opener)
    if rest = [] then []
    else
      match width rest with
      | none => rest
      | some n => scanRest fuel (rest.drop n)

end Readers

section Rounds

variable {opener : α} {width : List α → Option ℕ} {label : List α → Option β}

/-- Entries before the next opener are passed over. -/
theorem readScan_append {before : List α} (hbefore : opener ∉ before) (fuel offset : ℕ)
    (xs : List α) : readScan opener width label fuel offset (before ++ xs) =
      readScan opener width label fuel (offset + before.length) xs := by
  have hpass : ∀ b ∈ before, (b != opener) = true := by
    intro b hb
    have : b ≠ opener := fun heq => hbefore (heq ▸ hb)
    simpa using this
  cases fuel with
  | zero => rfl
  | succ fuel =>
    rw [readScan, readScan, takeWhile_append_of_pos hpass, dropWhile_append_of_pos hpass,
      length_append, Nat.add_assoc]

theorem drop_nil_or_head (opener : α) (xs : List α) :
    xs.dropWhile (· != opener) = [] ∨ ∃ tail, xs.dropWhile (· != opener) = opener :: tail := by
  cases h : xs.dropWhile (· != opener) with
  | nil => exact .inl rfl
  | cons x tail =>
    refine .inr ⟨tail, ?_⟩
    have hne : xs.dropWhile (· != opener) ≠ [] := by simp [h]
    have hx := head_dropWhile_not (· != opener) hne
    have hx' : x = opener := by simpa [h] using hx
    rw [hx']

/-- A scanner is its spans and what it reads of them. -/
theorem readScan_eq_scan (hwidth : Measures opener width) : ∀ {fuel : ℕ} {xs : List α} (offset : ℕ),
    xs.length ≤ fuel → readScan opener width label fuel offset xs =
      (scan opener width 0 offset xs).filterMap fun span =>
        readToken label ((xs.take (span.2 - offset)).drop (span.1 - offset)) span.1 span.2
  | 0, xs, offset, h => by
    obtain rfl := length_eq_zero_iff.mp (Nat.le_zero.mp h)
    rfl
  | fuel + 1, xs, offset, h => by
    rw [readScan, scan_round hwidth]
    have hsplit : xs.takeWhile (· != opener) ++ xs.dropWhile (· != opener) = xs :=
      takeWhile_append_dropWhile
    rcases drop_nil_or_head opener xs with hnil | ⟨tail, htail⟩
    · simp [hnil]
    · simp only [htail] at hsplit ⊢
      simp only [reduceCtorEq, if_false]
      cases hn : width (opener :: tail) with
      | none => rfl
      | some n =>
        have hpos := hwidth.pos hn
        have hle := hwidth.le hn
        set k := (xs.takeWhile (· != opener)).length with hk
        have hdrop : ∀ j, xs.drop (k + j) = (opener :: tail).drop j := fun j => by
          rw [← hsplit, hk, drop_append]
          simp
        have htoken : (xs.take (offset + k + n - offset)).drop (offset + k - offset) =
            (opener :: tail).take n := by
          rw [Nat.add_assoc, Nat.add_sub_cancel_left, Nat.add_sub_cancel_left, ← take_drop,
            ← Nat.add_zero k, hdrop]
          simp
        have hfuel : ((opener :: tail).drop n).length ≤ fuel := by
          have hlength := congrArg List.length hsplit
          rw [length_append] at hlength
          rw [length_drop]
          simp only [length_cons] at hlength ⊢
          omega
        have hslice : ∀ span ∈ scan opener width 0 (offset + k + n) ((opener :: tail).drop n),
            (((opener :: tail).drop n).take (span.2 - (offset + k + n))).drop
                (span.1 - (offset + k + n)) =
              (xs.take (span.2 - offset)).drop (span.1 - offset) := by
          intro span hspan
          have hinside := scan_inside hwidth hspan
          have hstart : k + n + (span.1 - (offset + k + n)) = span.1 - offset := by omega
          have hstop : k + n + (span.2 - (offset + k + n)) = span.2 - offset := by omega
          rw [← hdrop n, take_drop, drop_drop, hstart, hstop]
        have htail' := filterMap_congr fun span hspan =>
          congrArg (readToken label · span.1 span.2) (hslice span hspan)
        simp only
        rw [readScan_eq_scan hwidth _ hfuel, htail', filterMap_cons, htoken]
        cases readToken label ((opener :: tail).take n) (offset + k) (offset + k + n) <;> rfl

end Rounds

section Ends

variable {opener : α} {width : List α → Option ℕ}

/-- What a scanner leaves has no end. -/
theorem width_scanRest (hempty : width [] = none) : ∀ (fuel : ℕ) (xs : List α),
    width (scanRest opener width fuel xs) = none
  | 0, _ => hempty
  | fuel + 1, xs => by
    rw [scanRest]
    by_cases hne : xs.dropWhile (· != opener) = []
    · simp only [hne, if_true, hempty]
    · simp only [if_neg hne]
      cases hn : width (xs.dropWhile (· != opener)) with
      | none => exact hn
      | some n => exact width_scanRest hempty fuel _

end Ends

section Step

variable (opener : α) (width width' : List α → Option ℕ) (label label' : List α → Option β)

/-- The second scanner reads the token as the first does, and to its end if it reads it at all; it
meets no opener between its own end of the token and that of the first. -/
def InStep (token : List α) : Prop :=
  ∃ m, width' token = some m ∧ label token = label' (token.take m) ∧
    (label token ≠ none → m = token.length) ∧ opener ∉ token.drop m

/-- A token neither scanner reads, with an opener behind its end for the second. -/
def Astray (token : List α) : Prop :=
  ∃ m, width' token = some m ∧ label token = none ∧ label' (token.take m) = none ∧
    opener ∈ token.drop m

/-- The second scanner ends a token within that of the first, and knows its end from the token. -/
def EndsWithin : Prop :=
  ∀ {xs n}, width (opener :: xs) = some n → ∃ m, width' (opener :: xs) = some m ∧
    width' ((opener :: xs).take n) = some m ∧ m ≤ n

end Step

section Agreement

variable {opener : α} {width width' : List α → Option ℕ} {label label' : List α → Option β}

theorem le_start_of_mem : ∀ {fuel offset : ℕ} {xs : List α} {x : β × ℕ × ℕ},
    x ∈ readScan opener width label fuel offset xs → offset ≤ x.2.1
  | 0, _, _, _, h => by simp [readScan] at h
  | fuel + 1, offset, xs, x, h => by
    rw [readScan] at h
    rcases drop_nil_or_head opener xs with hnil | ⟨tail, htail⟩
    · simp [hnil] at h
    · simp only [htail, reduceCtorEq, if_false] at h
      cases hn : width (opener :: tail) with
      | none => simp [hn] at h
      | some n =>
        simp only [hn, mem_append, Option.mem_toList] at h
        rcases h with h | h
        · obtain ⟨b, -, rfl⟩ := Option.map_eq_some_iff.mp h
          exact Nat.le_add_right ..
        · have := le_start_of_mem h
          omega

omit [DecidableEq α] in
/-- Two lists that may begin with an entry at `lo` and go on behind it. -/
theorem toList_append_inj {lo hi hi' : ℕ} {token token' : List α} {l l' : List (β × ℕ × ℕ)}
    (hl : ∀ x ∈ l, lo < x.2.1) (hl' : ∀ x ∈ l', lo < x.2.1)
    (h : (readToken label token lo hi).toList ++ l =
      (readToken label' token' lo hi').toList ++ l') :
    label token = label' token' ∧ (label token ≠ none → hi = hi') ∧ l = l' := by
  cases hlabel : label token with
  | none =>
    cases hlabel' : label' token' with
    | none => simpa [readToken, hlabel, hlabel'] using h
    | some b' =>
      simp only [readToken, hlabel, hlabel', Option.map_none, Option.map_some, Option.toList_none,
        Option.toList_some, nil_append, singleton_append] at h
      exact absurd (hl (b', lo, hi') (h ▸ mem_cons_self)) (lt_irrefl _)
  | some b =>
    cases hlabel' : label' token' with
    | none =>
      simp only [readToken, hlabel, hlabel', Option.map_none, Option.map_some, Option.toList_none,
        Option.toList_some, nil_append, singleton_append] at h
      exact absurd (hl' (b, lo, hi) (h ▸ mem_cons_self)) (lt_irrefl _)
    | some b' =>
      simp only [readToken, hlabel, hlabel', Option.map_some, Option.toList_some,
        singleton_append, List.cons.injEq, Prod.mk.injEq, true_and] at h
      exact ⟨congrArg some h.1.1, fun _ => h.1.2, h.2⟩

/-- Behind a token without an opener between the two ends, both scanners go on at one place. -/
theorem readScan_rejoin {m n : ℕ} (fuel lo : ℕ) (rest : List α) (hle : m ≤ n)
    (hn : n ≤ rest.length) (hfree : opener ∉ (rest.take n).drop m) :
    readScan opener width' label' fuel (lo + m) (rest.drop m) =
      readScan opener width' label' fuel (lo + n) (rest.drop n) := by
  have hsplit : rest.drop m = (rest.take n).drop m ++ rest.drop n := by
    conv_lhs => rw [← take_append_drop n rest]
    rw [drop_append_of_le_length (by rw [length_take]; omega)]
  rw [hsplit, readScan_append hfree]
  congr 1
  rw [length_drop, length_take]
  omega

/-- Scanners that read each token alike read the same. -/
theorem readScan_eq (hwidth : Measures opener width) (hends : EndsWithin opener width width') :
    ∀ {fuel : ℕ} (offset : ℕ) (xs : List α),
      (∀ token ∈ scanTokens opener width fuel xs, InStep opener width' label label' token) →
      width' (scanRest opener width fuel xs) = none →
        readScan opener width label fuel offset xs = readScan opener width' label' fuel offset xs
  | 0, _, _, _, _ => rfl
  | fuel + 1, offset, xs, htokens, hunended => by
    rw [scanTokens] at htokens
    rw [scanRest] at hunended
    rw [readScan, readScan]
    rcases drop_nil_or_head opener xs with hnil | ⟨tail, htail⟩
    · simp only [hnil, if_true]
    · simp only [htail, reduceCtorEq, if_false] at htokens hunended ⊢
      cases hn : width (opener :: tail) with
      | none =>
        simp only [hn] at hunended
        simp only [hunended]
      | some n =>
        simp only [hn, mem_cons, forall_eq_or_imp] at htokens hunended
        obtain ⟨m, hm, hm', hle⟩ := hends hn
        obtain ⟨⟨k, hk, hsame, hwhole, hfree⟩, hrest⟩ := htokens
        obtain rfl : m = k := Option.some.inj (hm'.symm.trans hk)
        have hlength : n ≤ (opener :: tail).length := hwidth.le hn
        rw [length_take_of_le hlength] at hwhole
        rw [take_take, Nat.min_eq_left hle] at hsame
        simp only [hm]
        rw [readScan_rejoin fuel _ _ hle hlength hfree, readScan_eq hwidth hends _ _ hrest hunended]
        congr 2
        rw [readToken, readToken, ← hsame]
        cases hlabel : label ((opener :: tail).take n) with
        | none => rfl
        | some b => rw [hwhole (by simp [hlabel])]

/-- Where both scanners read the same, they read each token alike, unless a token that neither
reads leads the second scanner astray. -/
theorem inStep_of_readScan_eq (hwidth : Measures opener width) (hwidth' : Measures opener width')
    (hends : EndsWithin opener width width') (hempty : width' [] = none) :
    ∀ {fuel : ℕ} (offset : ℕ) (xs : List α),
      (∀ token ∈ scanTokens opener width fuel xs, ¬ Astray opener width' label label' token) →
      (∀ m, width' (scanRest opener width fuel xs) = some m →
        label' ((scanRest opener width fuel xs).take m) ≠ none) →
      readScan opener width label fuel offset xs = readScan opener width' label' fuel offset xs →
        (∀ token ∈ scanTokens opener width fuel xs, InStep opener width' label label' token) ∧
          width' (scanRest opener width fuel xs) = none
  | 0, _, xs, _, _, _ => ⟨by simp [scanTokens], hempty⟩
  | fuel + 1, offset, xs, hstray, hunended, heq => by
    rw [scanTokens] at hstray ⊢
    rw [scanRest] at hunended ⊢
    rw [readScan, readScan] at heq
    rcases drop_nil_or_head opener xs with hnil | ⟨tail, htail⟩
    · simp [hnil, hempty]
    · simp only [htail, reduceCtorEq, if_false] at hstray hunended heq ⊢
      set lo := offset + (xs.takeWhile (· != opener)).length with hlo
      cases hn : width (opener :: tail) with
      | none =>
        simp only [hn] at hunended heq ⊢
        refine ⟨by simp, Option.eq_none_iff_forall_ne_some.mpr fun m hm => hunended m hm ?_⟩
        simp only [hm] at heq
        have hnone := (append_eq_nil_iff.mp heq.symm).1
        rw [Option.toList_eq_nil_iff, readToken, Option.map_eq_none_iff] at hnone
        exact hnone
      | some n =>
        simp only [hn, mem_cons, forall_eq_or_imp] at hstray hunended heq ⊢
        obtain ⟨m, hm, hm', hle⟩ := hends hn
        have hpos := hwidth.pos hn
        have hpos' := hwidth'.pos hm
        have hlength : n ≤ (opener :: tail).length := hwidth.le hn
        have htake : ((opener :: tail).take n).length = n := length_take_of_le hlength
        have htake' : ((opener :: tail).take n).take m = (opener :: tail).take m := by
          rw [take_take, Nat.min_eq_left hle]
        simp only [hm] at heq
        -- the token read at `lo`, and the lists behind it, can only agree apart
        obtain ⟨hsame, hwhole, htails⟩ := toList_append_inj
          (fun x hx => by have := le_start_of_mem hx; omega)
          (fun x hx => by have := le_start_of_mem hx; omega) heq
        have hend : label ((opener :: tail).take n) ≠ none → m = n := fun hne => by
          have := hwhole hne
          omega
        have hfree : opener ∉ ((opener :: tail).take n).drop m := by
          intro hmem
          by_cases hnone : label ((opener :: tail).take n) = none
          · exact hstray.1 ⟨m, hm', hnone, by rw [htake', ← hsame, hnone], hmem⟩
          · rw [hend hnone, drop_eq_nil_of_le (le_of_eq htake)] at hmem
            exact absurd hmem not_mem_nil
        rw [readScan_rejoin fuel _ _ hle hlength hfree] at htails
        obtain ⟨htokens, hnone⟩ := inStep_of_readScan_eq hwidth hwidth' hends hempty _ _
          hstray.2 hunended htails
        exact ⟨⟨⟨m, hm', by rw [htake', hsame], by rwa [htake], hfree⟩, htokens⟩, hnone⟩

end Agreement

end Docx2Typed.Library
