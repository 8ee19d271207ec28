import Mathlib.Data.List.Basic

/-!
# Lines of a text

Splitting a text into lines at the characters of a predicate, where `\r\n` is one break, and the
round trip with joining by `\n`.  The last line needs no break after it.

* `linesFrom_append_newline`: the lines of two texts with a newline between them.
* `not_isBreak_of_mem_linesFrom`: no line holds a break.
* `filter_linesFrom`: where nothing breaks but `\n`, the lines are the pieces between newlines,
  up to lines a filter drops anyway.
-/

namespace Docx2Typed.Library

open List

/-- The lines of a text that breaks at `isBreak`, with the line read so far; `\r\n` is one
break. -/
def linesFrom (isBreak : Char → Bool) (current : List Char) : List Char → List (List Char)
  | [] => if current = [] then [] else [current]
  | '\r' :: '\n' :: rest => current :: linesFrom isBreak [] rest
  | c :: rest =>
    if isBreak c then current :: linesFrom isBreak [] rest
    else linesFrom isBreak (current ++ [c]) rest

variable {isBreak : Char → Bool}

@[simp] theorem linesFrom_nil (current : List Char) :
    linesFrom isBreak current [] = if current = [] then [] else [current] := by
  rw [linesFrom]

theorem linesFrom_crlf (current rest : List Char) :
    linesFrom isBreak current ('\r' :: '\n' :: rest) = current :: linesFrom isBreak [] rest := by
  rw [linesFrom]

variable {c : Char}

theorem linesFrom_cons {rest : List Char} (current : List Char)
    (h : c ≠ '\r' ∨ rest.head? ≠ some '\n') :
    linesFrom isBreak current (c :: rest) =
      if isBreak c then current :: linesFrom isBreak [] rest
      else linesFrom isBreak (current ++ [c]) rest := by
  rw [linesFrom]
  rintro tail rfl rfl
  rcases h with h | h
  · exact h rfl
  · exact h rfl

theorem head_append {text : List Char}
    (hcrlf : ∀ rest : List Char, c = '\r' → text = '\n' :: rest → False)
    (hlone : ¬ (c = '\r' ∧ text = [])) {tail : List Char} :
    c ≠ '\r' ∨ (text ++ tail).head? ≠ some '\n' := by
  by_cases hc : c = '\r'
  · right
    cases text with
    | nil => exact absurd ⟨hc, rfl⟩ hlone
    | cons d text =>
      intro hhead
      obtain rfl : d = '\n' := Option.some.inj hhead
      exact hcrlf text hc rfl
  · exact .inl hc

theorem linesFrom_newline (hnewline : isBreak '\n' = true) (current rest : List Char) :
    linesFrom isBreak current ('\n' :: rest) = current :: linesFrom isBreak [] rest := by
  rw [linesFrom_cons current (.inl (by decide)), if_pos hnewline]

theorem linesFrom_return_newline (rest current : List Char) :
    linesFrom isBreak current ('\r' :: '\n' :: rest) =
      linesFrom isBreak current ['\r', '\n'] ++ linesFrom isBreak [] rest := by
  rw [linesFrom_crlf, linesFrom_crlf, linesFrom_nil, if_pos rfl, singleton_append]

theorem linesFrom_append_newline (hnewline : isBreak '\n' = true) (rest current text : List Char) :
    linesFrom isBreak current (text ++ '\n' :: rest) =
      linesFrom isBreak current (text ++ ['\n']) ++ linesFrom isBreak [] rest := by
  induction current, text using linesFrom.induct isBreak with
  | case1 =>
    show linesFrom isBreak [] ('\n' :: rest) = linesFrom isBreak [] ['\n'] ++ _
    rw [linesFrom_newline hnewline, linesFrom_newline hnewline, linesFrom_nil, if_pos rfl,
      singleton_append]
  | case2 current =>
    show linesFrom isBreak current ('\n' :: rest) = linesFrom isBreak current ['\n'] ++ _
    rw [linesFrom_newline hnewline, linesFrom_newline hnewline, linesFrom_nil, if_pos rfl,
      singleton_append]
  | case3 current text ih =>
    simp only [cons_append]
    rw [linesFrom_crlf, linesFrom_crlf, ih, cons_append]
  | case4 current c text hcrlf hbreak ih =>
    by_cases hlone : c = '\r' ∧ text = []
    · obtain ⟨rfl, rfl⟩ := hlone
      exact linesFrom_return_newline rest current
    · rw [cons_append, cons_append, linesFrom_cons current (head_append hcrlf hlone),
        linesFrom_cons current (head_append hcrlf hlone), if_pos hbreak, if_pos hbreak, ih,
        cons_append]
  | case5 current c text hcrlf hbreak ih =>
    by_cases hlone : c = '\r' ∧ text = []
    · obtain ⟨rfl, rfl⟩ := hlone
      exact linesFrom_return_newline rest current
    · rw [cons_append, cons_append, linesFrom_cons current (head_append hcrlf hlone),
        linesFrom_cons current (head_append hcrlf hlone), if_neg hbreak, if_neg hbreak, ih]

/-- A text without breaks is one line. -/
theorem linesFrom_line : ∀ {text current : List Char}, (∀ c ∈ text, isBreak c = false) →
    '\r' ∉ text →
      linesFrom isBreak current text = if current ++ text = [] then [] else [current ++ text]
  | [], current, _, _ => by rw [linesFrom_nil, append_nil]
  | c :: text, current, htext, hreturn => by
    have hc : c ≠ '\r' := fun h => hreturn (h ▸ mem_cons_self)
    rw [linesFrom_cons current (.inl hc),
      if_neg (Bool.eq_false_iff.mp (htext c mem_cons_self)),
      linesFrom_line (fun d hd => htext d (mem_cons_of_mem _ hd))
        (fun h => hreturn (mem_cons_of_mem _ h)), append_assoc, singleton_append]

theorem linesFrom_line_newline (hnewline : isBreak '\n' = true) (rest : List Char) :
    ∀ {line current : List Char}, (∀ c ∈ line, isBreak c = false) → '\r' ∉ line →
      linesFrom isBreak current (line ++ '\n' :: rest) =
        (current ++ line) :: linesFrom isBreak [] rest
  | [], current, _, _ => by rw [nil_append, append_nil, linesFrom_newline hnewline]
  | c :: line, current, hline, hreturn => by
    have hc : c ≠ '\r' := fun h => hreturn (h ▸ mem_cons_self)
    rw [cons_append, linesFrom_cons current (.inl hc),
      if_neg (Bool.eq_false_iff.mp (hline c mem_cons_self)),
      linesFrom_line_newline hnewline rest (fun d hd => hline d (mem_cons_of_mem _ hd))
        (fun h => hreturn (mem_cons_of_mem _ h)), append_assoc, singleton_append]

variable {text current line : List Char}

/-- What holds of the characters that are no break holds throughout a line. -/
theorem of_mem_linesFrom {P : Char → Prop} (hcurrent : ∀ c ∈ current, P c)
    (htext : ∀ c ∈ text, isBreak c = false → P c)
    (hline : line ∈ linesFrom isBreak current text) (hc : c ∈ line) : P c := by
  induction current, text using linesFrom.induct isBreak with
  | case1 => simp at hline
  | case2 current hne =>
    rw [linesFrom_nil, if_neg hne, mem_singleton] at hline
    exact hcurrent c (hline ▸ hc)
  | case3 current text ih =>
    rw [linesFrom_crlf, mem_cons] at hline
    rcases hline with rfl | hline
    · exact hcurrent c hc
    · exact ih (fun c h => absurd h not_mem_nil)
        (fun c h => htext c (mem_cons_of_mem _ (mem_cons_of_mem _ h))) hline
  | case4 current d text hcrlf hbreak ih =>
    rw [linesFrom, if_pos hbreak, mem_cons] at hline
    · rcases hline with rfl | hline
      · exact hcurrent c hc
      · exact ih (fun c h => absurd h not_mem_nil)
          (fun c h => htext c (mem_cons_of_mem _ h)) hline
    · exact hcrlf
  | case5 current d text hcrlf hbreak ih =>
    rw [linesFrom, if_neg hbreak] at hline
    · refine ih (fun c h => ?_) (fun c h => htext c (mem_cons_of_mem _ h)) hline
      rcases mem_append.mp h with h | h
      · exact hcurrent c h
      · obtain rfl := mem_singleton.mp h
        exact htext c mem_cons_self (Bool.eq_false_iff.mpr hbreak)
    · exact hcrlf

/-- Where a character of a line comes from. -/
theorem mem_of_mem_linesFrom (hline : line ∈ linesFrom isBreak current text) (hc : c ∈ line) :
    c ∈ current ∨ c ∈ text :=
  of_mem_linesFrom (P := fun c => c ∈ current ∨ c ∈ text) (fun _ => .inl) (fun _ h _ => .inr h)
    hline hc

/-- No line holds a break. -/
theorem not_isBreak_of_mem_linesFrom (hcurrent : ∀ c ∈ current, isBreak c = false)
    (hline : line ∈ linesFrom isBreak current text) (hc : c ∈ line) : isBreak c = false :=
  of_mem_linesFrom hcurrent (fun _ _ h => h) hline hc

/-! ## Pieces -/

/-- The pieces between separators hold everything else. -/
theorem flatten_splitOnP {α : Type} (p : α → Bool) (xs : List α) :
    (xs.splitOnP p).flatten = xs.filter (!p ·) := by
  induction xs with
  | nil => rfl
  | cons x xs ih =>
    rw [splitOnP_cons_eq_if_modifyHead]
    by_cases hx : p x = true
    · rw [if_pos hx, flatten_cons, nil_append, ih, filter_cons_of_neg (by simp [hx])]
    · rw [if_neg hx, filter_cons_of_pos (by simp [hx]), ← ih]
      cases hsplit : xs.splitOnP p with
      | nil => exact absurd hsplit (splitOnP_ne_nil p xs)
      | cons piece pieces => rfl

/-! ## Up to empty lines -/

variable {p : List Char → Bool}

/-- A newline at the end opens no line that counts. -/
theorem filter_linesFrom_append_newline (hempty : p [] = false) (hnewline : isBreak '\n' = true)
    (current text : List Char) (hreturn : isBreak '\r' = true ∨ '\r' ∉ text) :
    (linesFrom isBreak current (text ++ ['\n'])).filter p =
      (linesFrom isBreak current text).filter p := by
  induction current, text using linesFrom.induct isBreak with
  | case1 =>
    show (linesFrom isBreak [] ['\n']).filter p = _
    rw [linesFrom_newline hnewline, linesFrom_nil, if_pos rfl, filter_singleton, hempty]
    rfl
  | case2 current hne =>
    show (linesFrom isBreak current ['\n']).filter p = _
    rw [linesFrom_newline hnewline, linesFrom_nil, linesFrom_nil, if_pos rfl, if_neg hne]
  | case3 current text ih =>
    simp only [cons_append]
    rw [linesFrom_crlf, linesFrom_crlf, filter_cons, filter_cons,
      ih (hreturn.imp_right fun h hmem => h (mem_cons_of_mem _ (mem_cons_of_mem _ hmem)))]
  | case4 current c text hcrlf hbreak ih =>
    by_cases hlone : c = '\r' ∧ text = []
    · obtain ⟨rfl, rfl⟩ := hlone
      show (linesFrom isBreak current ['\r', '\n']).filter p = _
      rw [linesFrom_crlf, linesFrom_cons current (.inr (by simp)), if_pos hbreak]
    · rw [cons_append, linesFrom_cons current (head_append hcrlf hlone), if_pos hbreak,
        filter_cons, ih (hreturn.imp_right fun h hmem => h (mem_cons_of_mem _ hmem)),
        linesFrom, if_pos hbreak, filter_cons]
      exact hcrlf
  | case5 current c text hcrlf hbreak ih =>
    have hc : c ≠ '\r' := by
      rintro rfl
      exact hreturn.elim hbreak fun h => h mem_cons_self
    rw [cons_append, linesFrom_cons current (.inl hc), if_neg hbreak,
      ih (hreturn.imp_right fun h hmem => h (mem_cons_of_mem _ hmem)), linesFrom,
      if_neg hbreak]
    exact hcrlf

/-- Where nothing breaks but `\n`, the lines are the pieces between the newlines. -/
theorem filter_linesFrom (hempty : p [] = false) (hnewline : isBreak '\n' = true) :
    ∀ (text current : List Char), '\n' ∉ current → '\r' ∉ text →
      (∀ c ∈ text, isBreak c = true → c = '\n') →
        (linesFrom isBreak current text).filter p = ((current ++ text).splitOn '\n').filter p
  | [], current, hcurrent, _, _ => by
    rw [append_nil, splitOn_eq_singleton hcurrent, linesFrom_nil]
    split_ifs with h
    · rw [h, filter_singleton, hempty]
      rfl
    · rfl
  | c :: text, current, hcurrent, hreturn, hbreaks => by
    have hc : c ≠ '\r' := fun h => hreturn (h ▸ mem_cons_self)
    have hreturn' : '\r' ∉ text := fun h => hreturn (mem_cons_of_mem _ h)
    have hbreaks' : ∀ d ∈ text, isBreak d = true → d = '\n' :=
      fun d hd => hbreaks d (mem_cons_of_mem _ hd)
    rw [linesFrom_cons current (.inl hc)]
    by_cases hbreak : isBreak c = true
    · obtain rfl := hbreaks c mem_cons_self hbreak
      rw [if_pos hbreak, splitOn_append_cons_self_of_not_mem hcurrent, filter_cons,
        filter_cons, filter_linesFrom hempty hnewline text [] not_mem_nil hreturn' hbreaks',
        nil_append]
    · have hnot : '\n' ∉ current ++ [c] := by
        refine not_mem_append hcurrent fun h => hbreak ?_
        rw [← mem_singleton.mp h]
        exact hnewline
      rw [if_neg hbreak, filter_linesFrom hempty hnewline text (current ++ [c]) hnot hreturn' hbreaks',
        append_assoc, singleton_append]

/-- That no character of a text breaks it can be computed. -/
theorem not_isBreak_of_all {text : List Char} (h : (text.all fun c => !isBreak c) = true) :
    ∀ c ∈ text, isBreak c = false := by
  intro c hc
  have hc := all_eq_true.mp h c hc
  rwa [Bool.not_eq_true'] at hc

end Docx2Typed.Library
