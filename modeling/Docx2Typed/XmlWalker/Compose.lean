import Docx2Typed.XmlWalker
import Mathlib.Tactic.SplitIfs

/-!
# Scanning piece by piece

A structural pass of the program cuts a part at tag boundaries and splices bytes there, so the
scanner has to be understood on concatenations.  A byte string is `Complete` when scanning it
ends outside every token, whatever follows; character data without `<` and whole tokens are
complete, and complete strings concatenate.

* `scanAt_eq`: the scanner's own recursion, freed from its fuel;
* `complete_plain`, `complete_token`, `Complete.append`: the pieces;
* `exists_split_of_scanAt`: every tag cuts the input into a complete prefix, its own token and
  the rest;
* `scanAt_ordered`: the tags stand in order, without overlap.
-/

namespace Docx2Typed

open Library List

/-! ## The scanner without fuel -/

/-- The scan of `xml` standing at `offset`. -/
def scanAt (offset : Nat) (xml : Bytes) : List Tag := scanTagsFrom xml.length offset xml

theorem scanTags_eq_scanAt (xml : Bytes) : scanTags xml = scanAt 0 xml := rfl

variable {l : Bytes} {n : Nat} {quote : Option UInt8}

theorem scanAngleToken_pos (h : scanAngleToken quote l = some n) : 0 < n ∧ n ≤ l.length := by
  induction l generalizing quote n with
  | nil => simp [scanAngleToken] at h
  | cons b rest ih =>
    cases quote with
    | some q =>
      rw [scanAngleToken] at h
      obtain ⟨m, hm, rfl⟩ := Option.map_eq_some_iff.mp h
      have := ih hm
      simp only [length_cons]
      omega
    | none =>
      rw [scanAngleToken] at h
      split at h
      · obtain ⟨m, hm, rfl⟩ := Option.map_eq_some_iff.mp h
        have := ih hm
        simp only [length_cons]
        omega
      · split at h
        · have hn : n = 1 := (Option.some.inj h).symm
          simp only [length_cons]
          omega
        · obtain ⟨m, hm, rfl⟩ := Option.map_eq_some_iff.mp h
          have := ih hm
          simp only [length_cons]
          omega

theorem scanAngleToken_append (m : Bytes) (h : scanAngleToken quote l = some n) :
    scanAngleToken quote (l ++ m) = some n := by
  induction l generalizing quote n with
  | nil => simp [scanAngleToken] at h
  | cons b rest ih =>
    rw [cons_append]
    cases quote with
    | some q =>
      rw [scanAngleToken] at h ⊢
      obtain ⟨k, hk, rfl⟩ := Option.map_eq_some_iff.mp h
      rw [ih hk]
      rfl
    | none =>
      rw [scanAngleToken] at h ⊢
      split at h
      next hq =>
        obtain ⟨k, hk, rfl⟩ := Option.map_eq_some_iff.mp h
        rw [if_pos hq, ih hk]
        rfl
      next hq =>
        rw [if_neg hq]
        split at h
        next hg => rw [if_pos hg, h]
        next hg =>
          obtain ⟨k, hk, rfl⟩ := Option.map_eq_some_iff.mp h
          rw [if_neg hg, ih hk]
          rfl

/-- A block search that starts `k` bytes in, and the length of the token it ends. -/
theorem length_le_of_search (needle : Bytes) {k n : Nat} (hk : k ≤ l.length)
    (h : (findSub needle (l.drop k)).map (· + k + needle.length) = some n) : n ≤ l.length := by
  obtain ⟨i, hi, rfl⟩ := Option.map_eq_some_iff.mp h
  have := findSub_add_length_le hi
  rw [length_drop] at this
  omega

theorem search_append (needle : Bytes) {k n : Nat} (m : Bytes) (hk : k ≤ l.length)
    (h : (findSub needle (l.drop k)).map (· + k + needle.length) = some n) :
    (findSub needle ((l ++ m).drop k)).map (· + k + needle.length) = some n := by
  obtain ⟨i, hi, rfl⟩ := Option.map_eq_some_iff.mp h
  rw [drop_append_of_le_length hk, findSub_append_of_eq_some m hi]
  rfl

private theorem prefix_length {p l : Bytes} (h : p <+: l) : p.length ≤ l.length := h.length_le

variable {rest : Bytes}

theorem tokenLength_pos (hne : rest ≠ []) (h : tokenLength rest = some n) :
    0 < n ∧ n ≤ rest.length := by
  have hlen : 0 < rest.length := length_pos_iff.mpr hne
  rw [tokenLength] at h
  split at h
  next hp =>
    have h4 : 4 ≤ rest.length := prefix_length hp
    have := length_le_of_search (bytes "-->") h4 h
    obtain ⟨i, -, rfl⟩ := Option.map_eq_some_iff.mp h
    omega
  next =>
    split at h
    next hp =>
      have h9 : 9 ≤ rest.length := prefix_length hp
      have := length_le_of_search (bytes "]]>") h9 h
      obtain ⟨i, -, rfl⟩ := Option.map_eq_some_iff.mp h
      omega
    next =>
      split at h
      next hp =>
        have h2 : 2 ≤ rest.length := prefix_length hp
        have := length_le_of_search (bytes "?>") h2 h
        obtain ⟨i, -, rfl⟩ := Option.map_eq_some_iff.mp h
        omega
      next =>
        obtain ⟨i, hi, rfl⟩ := Option.map_eq_some_iff.mp h
        have := (scanAngleToken_pos hi).2
        rw [length_drop] at this
        omega

theorem length_drop_token_lt {xml : Bytes} {n : Nat} (hrest : xml.dropWhile (· != byte '<') ≠ [])
    (htok : tokenLength (xml.dropWhile (· != byte '<')) = some n) :
    ((xml.dropWhile (· != byte '<')).drop n).length < xml.length := by
  have hn := tokenLength_pos hrest htok
  have hle := (dropWhile_suffix (l := xml) (· != byte '<')).length_le
  rw [length_drop]
  omega

/-- The scanner's recursion does not depend on the fuel, once there is enough. -/
theorem scanTagsFrom_eq_scanAt :
    ∀ {fuel : Nat} {offset : Nat} {xml : Bytes}, xml.length ≤ fuel →
      scanTagsFrom fuel offset xml = scanAt offset xml := by
  have key : ∀ (fuel fuel' offset : Nat) (xml : Bytes), xml.length ≤ fuel → xml.length ≤ fuel' →
      scanTagsFrom fuel offset xml = scanTagsFrom fuel' offset xml := by
    intro fuel
    induction fuel with
    | zero =>
      intro fuel' offset xml h _
      have hnil : xml = [] := length_eq_zero_iff.mp (Nat.le_zero.mp h)
      subst hnil
      cases fuel' with
      | zero => rfl
      | succ fuel' => simp [scanTagsFrom]
    | succ fuel ih =>
      intro fuel' offset xml h h'
      cases fuel' with
      | zero =>
        have hnil : xml = [] := length_eq_zero_iff.mp (Nat.le_zero.mp h')
        subst hnil
        simp [scanTagsFrom]
      | succ fuel' =>
        rw [scanTagsFrom, scanTagsFrom]
        by_cases hrest : xml.dropWhile (· != byte '<') = []
        · simp [hrest]
        · simp only [hrest, if_false]
          cases htok : tokenLength (xml.dropWhile (· != byte '<')) with
          | none => rfl
          | some n =>
            have hlen := length_drop_token_lt hrest htok
            simp only [append_cancel_left_eq]
            exact ih _ _ _ (by omega) (by omega)
  intro fuel offset xml h
  exact key _ _ _ _ h le_rfl

/-- One round of the scanner. -/
theorem scanAt_eq (offset : Nat) (xml : Bytes) :
    scanAt offset xml =
      if xml.dropWhile (· != byte '<') = [] then []
      else
        match tokenLength (xml.dropWhile (· != byte '<')) with
        | none => []
        | some n =>
          (parseTag ((xml.dropWhile (· != byte '<')).take n)
              (offset + (xml.takeWhile (· != byte '<')).length)
              (offset + (xml.takeWhile (· != byte '<')).length + n)).toList ++
            scanAt (offset + (xml.takeWhile (· != byte '<')).length + n)
              ((xml.dropWhile (· != byte '<')).drop n) := by
  cases hx : xml with
  | nil => simp [scanAt, scanTagsFrom]
  | cons b l =>
    rw [← hx]
    conv_lhs => rw [scanAt, hx, length_cons, scanTagsFrom, ← hx]
    by_cases hrest : xml.dropWhile (· != byte '<') = []
    · simp [hrest]
    · simp only [hrest, if_false]
      cases htok : tokenLength (xml.dropWhile (· != byte '<')) with
      | none => rfl
      | some n =>
        have hlen := (length_drop_token_lt hrest htok).trans_eq (congrArg List.length hx)
        simp only [append_cancel_left_eq]
        exact scanTagsFrom_eq_scanAt (Nat.le_of_lt_succ hlen)

variable {token : Bytes}

/-- A tag records the place it was parsed at. -/
theorem parseTag_position {start stop : Nat} {t : Tag} (h : parseTag token start stop = some t) :
    t.start = start ∧ t.stop = stop := by
  dsimp only [parseTag] at h
  split_ifs at h
  · rw [← Option.some.inj h]
    exact ⟨rfl, rfl⟩
  · rw [← Option.some.inj h]
    exact ⟨rfl, rfl⟩

/-! ## Character data and tokens -/

/-- Character data without markup. -/
def Plain (text : Bytes) : Prop := ∀ b ∈ text, b ≠ byte '<'

instance (text : Bytes) : Decidable (Plain text) :=
  inferInstanceAs (Decidable (∀ b ∈ text, b ≠ byte '<'))

/-- One whole markup token: it starts with `<` and ends where the scanner ends it. -/
structure IsToken (token : Bytes) : Prop where
  head : token.head? = some (byte '<')
  length : tokenLength token = some token.length

variable {text : Bytes}

theorem Plain.takeWhile_append (h : Plain text) (rest : Bytes) :
    (text ++ rest).takeWhile (· != byte '<') = text ++ rest.takeWhile (· != byte '<') :=
  takeWhile_append_of_pos fun b hb => by simpa using h b hb

theorem Plain.dropWhile_append (h : Plain text) (rest : Bytes) :
    (text ++ rest).dropWhile (· != byte '<') = rest.dropWhile (· != byte '<') :=
  dropWhile_append_of_pos fun b hb => by simpa using h b hb

theorem takeWhile_of_head (h : rest.head? = some (byte '<')) :
    rest.takeWhile (· != byte '<') = [] := by
  cases rest with
  | nil => rfl
  | cons b l =>
    have hb : b = byte '<' := by simpa using h
    subst hb
    simp

theorem dropWhile_of_head (h : rest.head? = some (byte '<')) :
    rest.dropWhile (· != byte '<') = rest := by
  cases rest with
  | nil => rfl
  | cons b l =>
    have hb : b = byte '<' := by simpa using h
    subst hb
    simp

theorem plain_nil : Plain [] := by
  intro b hb
  simp at hb

theorem scanAt_plain (h : Plain text) (offset : Nat) : scanAt offset text = [] := by
  have hd : text.dropWhile (· != byte '<') = [] := by
    simpa using h.dropWhile_append []
  rw [scanAt_eq, if_pos hd]

/-- Character data in front only moves the scan. -/
theorem scanAt_plain_append (h : Plain text) (rest : Bytes) (offset : Nat) :
    scanAt offset (text ++ rest) = scanAt (offset + text.length) rest := by
  rw [scanAt_eq, scanAt_eq (offset + text.length), h.takeWhile_append, h.dropWhile_append,
    length_append, Nat.add_assoc]

/-- A token in front gives its tag, and the scan goes on behind it. -/
theorem scanAt_of_tokenLength (hhead : rest.head? = some (byte '<'))
    (hn : tokenLength rest = some n) (offset : Nat) :
    scanAt offset rest =
      (parseTag (rest.take n) offset (offset + n)).toList ++ scanAt (offset + n) (rest.drop n) := by
  have hne : rest ≠ [] := by
    rintro rfl
    simp at hhead
  rw [scanAt_eq, takeWhile_of_head hhead, dropWhile_of_head hhead, if_neg hne, hn]
  rfl

/-- The prefixes that select a token's kind hold no `>`, so a whole token has shown its kind. -/
theorem prefix_append_iff_of_length {p token : Bytes} (m : Bytes) (h : p.length ≤ token.length) :
    p <+: token ++ m ↔ p <+: token := by
  have hzero : 0 + p.length ≤ token.length := by rwa [Nat.zero_add]
  simpa using prefix_drop_append_iff (m := m) hzero

private theorem length_of_prefix_append_not {p token m : Bytes} (h : p <+: token ++ m)
    (hn : ¬ p <+: token) : token <+: p := by
  rcases prefix_or_prefix_of_prefix h (List.prefix_append token m) with h' | h'
  · exact absurd h' hn
  · exact h'

/-- Where a tag-shaped scan ends there is a `>`. -/
theorem getElem_scanAngleToken (h : scanAngleToken quote l = some n) : byte '>' ∈ l.take n := by
  induction l generalizing quote n with
  | nil => simp [scanAngleToken] at h
  | cons b rest ih =>
    cases quote with
    | some q =>
      rw [scanAngleToken] at h
      obtain ⟨k, hk, rfl⟩ := Option.map_eq_some_iff.mp h
      rw [take_succ_cons]
      exact mem_cons_of_mem _ (ih hk)
    | none =>
      rw [scanAngleToken] at h
      split at h
      · obtain ⟨k, hk, rfl⟩ := Option.map_eq_some_iff.mp h
        rw [take_succ_cons]
        exact mem_cons_of_mem _ (ih hk)
      · split at h
        next hg =>
          rw [← Option.some.inj h, hg]
          simp
        next =>
          obtain ⟨k, hk, rfl⟩ := Option.map_eq_some_iff.mp h
          rw [take_succ_cons]
          exact mem_cons_of_mem _ (ih hk)

theorem tokenLength_append (m : Bytes) (hne : token ≠ []) (h : tokenLength token = some n) :
    tokenLength (token ++ m) = some n := by
  have hlen : 1 ≤ token.length := length_pos_iff.mpr hne
  have hn := tokenLength_pos hne h
  rw [tokenLength] at h ⊢
  by_cases h1 : bytes "<!--" <+: token
  · rw [if_pos h1] at h
    rw [if_pos (h1.trans (List.prefix_append _ _))]
    exact search_append (bytes "-->") m (prefix_length h1) h
  rw [if_neg h1] at h
  by_cases h2 : bytes "<![CDATA[" <+: token
  · rw [if_pos h2] at h
    have h1' : ¬ bytes "<!--" <+: token ++ m := by
      rw [prefix_append_iff_of_length m ((by decide : (bytes "<!--").length ≤ 9).trans
        (prefix_length h2))]
      exact h1
    rw [if_neg h1', if_pos (h2.trans (List.prefix_append _ _))]
    exact search_append (bytes "]]>") m (prefix_length h2) h
  rw [if_neg h2] at h
  by_cases h3 : bytes "<?" <+: token
  · rw [if_pos h3] at h
    have hq : ∀ p : Bytes, 2 ≤ p.length → ¬ bytes "<?" <+: p → ¬ p <+: token ++ m := by
      intro p hp hnot hpre
      refine hnot ?_
      exact prefix_of_prefix_length_le (h3.trans (List.prefix_append _ _)) hpre
        ((by decide : (bytes "<?").length = 2) ▸ hp)
    rw [if_neg (hq _ (by decide) (by decide)), if_neg (hq _ (by decide) (by decide)),
      if_pos (h3.trans (List.prefix_append _ _))]
    exact search_append (bytes "?>") m (prefix_length h3) h
  rw [if_neg h3] at h
  obtain ⟨k, hk, rfl⟩ := Option.map_eq_some_iff.mp h
  -- a whole tag token holds a `>`, the selecting prefixes do not
  have hgt : byte '>' ∈ token := mem_of_mem_drop (mem_of_mem_take
    (getElem_scanAngleToken hk))
  have hnot : ∀ p : Bytes, byte '>' ∉ p → ¬ p <+: token → ¬ p <+: token ++ m := by
    intro p hp hn' hpre
    exact hp ((length_of_prefix_append_not hpre hn').subset hgt)
  rw [if_neg (hnot _ (by decide) h1), if_neg (hnot _ (by decide) h2),
    if_neg (hnot _ (by decide) h3), drop_append_of_le_length hlen,
    scanAngleToken_append m hk]
  rfl

theorem IsToken.append (h : IsToken token) (rest : Bytes) :
    tokenLength (token ++ rest) = some token.length := by
  refine tokenLength_append rest ?_ h.length
  rintro rfl
  exact absurd h.head (by simp)

theorem IsToken.head_append (h : IsToken token) (rest : Bytes) :
    (token ++ rest).head? = some (byte '<') := by
  cases token with
  | nil => exact absurd h.head (by simp)
  | cons b l => simpa using h.head

theorem IsToken.scanAt_append (h : IsToken token) (rest : Bytes) (offset : Nat) :
    scanAt offset (token ++ rest) =
      (parseTag token offset (offset + token.length)).toList ++
        scanAt (offset + token.length) rest := by
  rw [scanAt_of_tokenLength (h.head_append rest) (h.append rest), take_left', drop_left']
  · rfl
  · rfl

theorem IsToken.scanAt (h : IsToken token) (offset : Nat) :
    scanAt offset token = (parseTag token offset (offset + token.length)).toList := by
  have hscan := h.scanAt_append [] offset
  rw [append_nil, scanAt_plain plain_nil, append_nil] at hscan
  exact hscan

/-! ### Cutting a token off -/

theorem scanAngleToken_take {n k : Nat} (h : scanAngleToken quote l = some n) (hk : n ≤ k) :
    scanAngleToken quote (l.take k) = some n := by
  induction l generalizing quote n k with
  | nil => simp [scanAngleToken] at h
  | cons b rest ih =>
    have hpos := (scanAngleToken_pos h).1
    obtain ⟨k, rfl⟩ : ∃ k', k = k' + 1 := ⟨k - 1, by omega⟩
    rw [take_succ_cons]
    cases quote with
    | some q =>
      rw [scanAngleToken] at h ⊢
      obtain ⟨m, hm, rfl⟩ := Option.map_eq_some_iff.mp h
      rw [ih hm (by omega)]
      rfl
    | none =>
      rw [scanAngleToken] at h ⊢
      split at h
      next hq =>
        obtain ⟨m, hm, rfl⟩ := Option.map_eq_some_iff.mp h
        rw [if_pos hq, ih hm (by omega)]
        rfl
      next hq =>
        rw [if_neg hq]
        split at h
        next hg => rw [if_pos hg, h]
        next hg =>
          obtain ⟨m, hm, rfl⟩ := Option.map_eq_some_iff.mp h
          rw [if_neg hg, ih hm (by omega)]
          rfl

private theorem search_take (needle : Bytes) {k n : Nat}
    (h : (findSub needle (l.drop k)).map (· + k + needle.length) = some n) :
    (findSub needle ((l.take n).drop k)).map (· + k + needle.length) = some n := by
  obtain ⟨i, hi, rfl⟩ := Option.map_eq_some_iff.mp h
  have hcut : (l.take (i + k + needle.length)).drop k = (l.drop k).take (i + needle.length) := by
    rw [List.drop_take]
    congr 1
    omega
  rw [hcut, findSub_take_of_eq_some hi le_rfl]
  rfl

theorem tokenLength_take (h : tokenLength rest = some n) : tokenLength (rest.take n) = some n := by
  have hnot : ∀ p : Bytes, ¬ p <+: rest → ¬ p <+: rest.take n :=
    fun p hp hpre => hp (hpre.trans (List.take_prefix n rest))
  have hyes : ∀ p : Bytes, p.length ≤ n → p <+: rest → p <+: rest.take n :=
    fun p hp hpre => prefix_take_iff.mpr ⟨hpre, hp⟩
  rw [tokenLength] at h ⊢
  by_cases h1 : bytes "<!--" <+: rest
  · rw [if_pos h1] at h
    have hn : 4 ≤ n := by
      obtain ⟨i, -, rfl⟩ := Option.map_eq_some_iff.mp h
      omega
    rw [if_pos (hyes (bytes "<!--") hn h1)]
    exact search_take (bytes "-->") h
  rw [if_neg h1] at h
  rw [if_neg (hnot _ h1)]
  by_cases h2 : bytes "<![CDATA[" <+: rest
  · rw [if_pos h2] at h
    have hn : 9 ≤ n := by
      obtain ⟨i, -, rfl⟩ := Option.map_eq_some_iff.mp h
      omega
    rw [if_pos (hyes (bytes "<![CDATA[") hn h2)]
    exact search_take (bytes "]]>") h
  rw [if_neg h2] at h
  rw [if_neg (hnot _ h2)]
  by_cases h3 : bytes "<?" <+: rest
  · rw [if_pos h3] at h
    have hn : 2 ≤ n := by
      obtain ⟨i, -, rfl⟩ := Option.map_eq_some_iff.mp h
      omega
    rw [if_pos (hyes (bytes "<?") hn h3)]
    exact search_take (bytes "?>") h
  rw [if_neg h3] at h
  rw [if_neg (hnot _ h3)]
  obtain ⟨k, hk, rfl⟩ := Option.map_eq_some_iff.mp h
  have hcut : (rest.take (k + 1)).drop 1 = (rest.drop 1).take k := by
    rw [List.drop_take]
    rfl
  rw [hcut, scanAngleToken_take hk le_rfl]
  rfl

/-- The first token of a list, cut off. -/
theorem isToken_take (hhead : rest.head? = some (byte '<')) (hn : tokenLength rest = some n) :
    IsToken (rest.take n) := by
  have hne : rest ≠ [] := by
    rintro rfl
    simp at hhead
  have hpos := tokenLength_pos hne hn
  refine ⟨?_, ?_⟩
  · rw [head?_take, if_neg (by omega), hhead]
  · rw [tokenLength_take hn, length_take, Nat.min_eq_left hpos.2]

/-! ## Complete strings -/

/-- Scanning `a` ends outside every token, whatever follows. -/
def Complete (a : Bytes) : Prop :=
  ∀ (b : Bytes) (offset : Nat),
    scanAt offset (a ++ b) = scanAt offset a ++ scanAt (offset + a.length) b

theorem complete_plain (h : Plain text) : Complete text := by
  intro b offset
  rw [scanAt_plain_append h, scanAt_plain h]
  rfl

theorem complete_token (h : IsToken token) : Complete token := by
  intro b offset
  rw [h.scanAt_append, h.scanAt]

theorem Complete.append {a b : Bytes} (ha : Complete a) (hb : Complete b) : Complete (a ++ b) := by
  intro c offset
  rw [append_assoc, ha (b ++ c), hb c, ha b, append_assoc, length_append,
    Nat.add_assoc]

/-- Every tag cuts its input: a complete prefix with the tags before it, the tag's own token,
and the rest with the tags behind it. -/
theorem exists_split_of_scanAt {xml : Bytes} {offset : Nat} {before after : List Tag} {t : Tag}
    (h : scanAt offset xml = before ++ t :: after) :
    ∃ a token b, xml = a ++ (token ++ b) ∧ Complete a ∧ IsToken token ∧
      scanAt offset a = before ∧ t.start = offset + a.length ∧
      t.stop = t.start + token.length ∧ parseTag token t.start t.stop = some t ∧
      scanAt t.stop b = after := by
  induction hlen : xml.length using Nat.strong_induction_on generalizing xml offset before with
  | _ len ih =>
    subst hlen
    set text := xml.takeWhile (· != byte '<') with htext
    set rest := xml.dropWhile (· != byte '<') with hrest
    have hxml : xml = text ++ rest := (takeWhile_append_dropWhile).symm
    have hplain : Plain text := by
      intro b hb
      simpa using mem_takeWhile_imp hb
    have hscan : scanAt offset xml = scanAt (offset + text.length) rest := by
      conv_lhs => rw [hxml]
      exact scanAt_plain_append hplain rest offset
    by_cases hnil : rest = []
    · rw [hscan, hnil, scanAt_plain plain_nil] at h
      exact absurd h (by simp)
    have hhead : rest.head? = some (byte '<') := by
      have := head_dropWhile_not (· != byte '<') hnil
      rw [head?_eq_some_head hnil]
      simpa using this
    cases hn : tokenLength rest with
    | none =>
      have hempty : scanAt (offset + text.length) rest = [] := by
        rw [scanAt_eq, dropWhile_of_head hhead, if_neg hnil, hn]
      rw [hscan, hempty] at h
      exact absurd h (by simp)
    | some n =>
      have htok := isToken_take hhead hn
      have hpos := tokenLength_pos hnil hn
      have htlen : (rest.take n).length = n := by
        rw [length_take, Nat.min_eq_left hpos.2]
      rw [hscan, scanAt_of_tokenLength hhead hn] at h
      have hsplit : rest = rest.take n ++ rest.drop n := (take_append_drop n rest).symm
      have hcomplete : Complete (text ++ rest.take n) :=
        (complete_plain hplain).append (complete_token htok)
      have hfront : scanAt offset (text ++ rest.take n) =
          (parseTag (rest.take n) (offset + text.length) (offset + text.length + n)).toList := by
        rw [scanAt_plain_append hplain, htok.scanAt, htlen]
      -- a cut of what follows is one of the whole
      have hbehind : ∀ {later},
          scanAt (offset + text.length + n) (rest.drop n) = later ++ t :: after →
            ∃ a token b, xml = a ++ (token ++ b) ∧ Complete a ∧ IsToken token ∧
              scanAt offset a = (parseTag (rest.take n) (offset + text.length)
                (offset + text.length + n)).toList ++ later ∧
              t.start = offset + a.length ∧ t.stop = t.start + token.length ∧
              parseTag token t.start t.stop = some t ∧ scanAt t.stop b = after := by
        intro later h
        have hlt : (rest.drop n).length < xml.length := by
          rw [length_drop, hxml, length_append]
          omega
        obtain ⟨a, token, b, hb, ha, htoken, hbefore, hstart, hstop, hpt, hafter⟩ :=
          ih _ hlt h rfl
        refine ⟨text ++ rest.take n ++ a, token, b, ?_, hcomplete.append ha, htoken, ?_, ?_,
          hstop, hpt, hafter⟩
        · rw [append_assoc, append_assoc, ← hb, ← hsplit, ← hxml]
        · rw [hcomplete, hfront, length_append, htlen, ← Nat.add_assoc, hbefore]
        · rw [hstart, length_append, length_append, htlen]
          omega
      cases hparse : parseTag (rest.take n) (offset + text.length) (offset + text.length + n) with
      | none =>
        rw [hparse] at h hbehind
        exact hbehind h
      | some t' =>
        rw [hparse, Option.toList_some, singleton_append] at h
        cases before with
        | nil =>
          obtain ⟨rfl, hafter⟩ := List.cons.inj h
          obtain ⟨hst, hsp⟩ := parseTag_position hparse
          refine ⟨text, rest.take n, rest.drop n, ?_, complete_plain hplain, htok,
            scanAt_plain hplain offset, hst, ?_, ?_, ?_⟩
          · rw [← hsplit, ← hxml]
          · rw [hst, hsp, htlen]
          · rw [hst, hsp, hparse]
          · rw [hsp, hafter]
        | cons t₀ before =>
          obtain ⟨rfl, hrest'⟩ := List.cons.inj h
          rw [hparse] at hbehind
          exact hbehind hrest'

/-- The tags of a scan stand in order, without overlap, inside the bytes scanned. -/
theorem scanAt_ordered (offset : Nat) (xml : Bytes) :
    (scanAt offset xml).Pairwise (fun a b => a.stop ≤ b.start) ∧
      ∀ t ∈ scanAt offset xml,
        offset ≤ t.start ∧ t.start < t.stop ∧ t.stop ≤ offset + xml.length := by
  have hin : ∀ (offset : Nat) (xml : Bytes), ∀ t ∈ scanAt offset xml,
      offset ≤ t.start ∧ t.start < t.stop ∧ t.stop ≤ offset + xml.length := by
    intro offset xml t ht
    obtain ⟨before, after, hsplit⟩ := append_of_mem ht
    obtain ⟨a, token, b, rfl, -, htoken, -, hstart, hstop, -, -⟩ := exists_split_of_scanAt hsplit
    have hpos : 0 < token.length := by
      rcases Nat.eq_zero_or_pos token.length with h0 | h0
      · have hnil := length_eq_zero_iff.mp h0
        subst hnil
        exact absurd htoken.head (by simp)
      · exact h0
    rw [length_append, length_append]
    omega
  refine ⟨?_, hin offset xml⟩
  rw [pairwise_iff_forall_sublist]
  intro s t hst
  obtain ⟨before, mid, hsplit, hmid⟩ : ∃ before mid, scanAt offset xml = before ++ s :: mid ∧
      t ∈ mid := by
    obtain ⟨r₁, r₂, hr, hs, ht⟩ := cons_sublist_iff.mp hst
    obtain ⟨before, mid, rfl⟩ := append_of_mem hs
    exact ⟨before, mid ++ r₂, by rw [hr]; simp, mem_append_right _ (by simpa using ht)⟩
  obtain ⟨a, token, b, -, -, -, -, -, -, -, hafter⟩ := exists_split_of_scanAt hsplit
  rw [← hafter] at hmid
  exact (hin _ _ t hmid).1

end Docx2Typed
