import Docx2Typed.Style.Overrides

/-!
# The opening tag in open form

`open_form` takes the end of the opening tag off and writes `>`.  What is left is a start tag of the
same name, unless a second `/` stands in front of the end.
-/

namespace Docx2Typed

open Library.Utf8 (decodeLossy)
open List

/-! ## Characters and bytes -/

theorem utf8_cons (c : Char) (text : Text) :
    utf8 (c :: text) = String.utf8EncodeChar c ++ utf8 text :=
  Library.Utf8.encode_cons c text

/-- A byte below 128 stands between characters. -/
theorem exists_utf8_split {x : UInt8} (hx : x.toNat < 128) : ∀ {text : Text} {a b : Bytes},
    utf8 text = a ++ x :: b → ∃ s t, a = utf8 s ∧ x :: b = utf8 t
  | text, [], b, h => ⟨[], text, rfl, h.symm⟩
  | [], y :: a, b, h => by simp [utf8, Library.Utf8.encode_nil] at h
  | c :: text, y :: a, b, h => by
    obtain ⟨first, rest, hbytes, hrest, -⟩ := Library.Utf8.encodeChar_bytes c
    rw [utf8, Library.Utf8.encode_cons, hbytes, cons_append, cons_append] at h
    obtain ⟨rfl, hrestEq⟩ := List.cons.inj h
    rcases append_eq_append_iff.mp hrestEq with ⟨later, ha, htext⟩ | ⟨later, hsplit, hb⟩
    · obtain ⟨s, t, hs, ht⟩ := exists_utf8_split hx (show utf8 text = later ++ x :: b from htext)
      refine ⟨c :: s, t, ?_, ht⟩
      rw [ha, hs, utf8_cons, hbytes, cons_append]
    · cases later with
      | nil =>
        rw [append_nil] at hsplit
        refine ⟨[c], text, ?_, ?_⟩
        · rw [utf8_cons, hbytes, hsplit]
          exact (append_nil _).symm
        · rw [hb]
          rfl
      | cons z later =>
        -- the byte would stand inside the character
        obtain ⟨rfl, -⟩ := List.cons.inj hb
        have := hrest x (by rw [hsplit]; simp)
        omega

/-! ## A tag with its end taken off -/

theorem scanAngleToken_unclosed {quote : UInt8} {l : Bytes} (h : quote ∉ l) :
    scanAngleToken (some quote) l = none := by
  induction l with
  | nil => rfl
  | cons b l ih =>
    rw [mem_cons, not_or] at h
    rw [scanAngleToken, if_neg (Ne.symm h.1), ih h.2]
    rfl

/-- Bytes that neither begin a tag nor quote nor name. -/
def Loose (l : Bytes) : Prop :=
  ∀ b ∈ l, b ≠ byte '<' ∧ b ≠ byte '"' ∧ b ≠ byte '\'' ∧ isNameByte b = false

/-- The open quotes of a tag. -/
def IsQuote (quote : Option UInt8) : Prop := ∀ q ∈ quote, q = byte '"' ∨ q = byte '\''

theorem Loose.not_mem {l : Bytes} (h : Loose l) {q : UInt8} (hq : q = byte '"' ∨ q = byte '\'') :
    q ∉ l := by
  intro hmem
  obtain ⟨-, hdouble, hsingle, -⟩ := h q hmem
  exact hq.elim hdouble hsingle

variable {J : Bytes}

/-- The scan does not see what loose bytes follow, only where it ends. -/
theorem scanAngleToken_loose (hJ : Loose J) :
    ∀ {X : Bytes} {quote : Option UInt8} {n : Nat},
    IsQuote quote → scanAngleToken quote (X ++ J) = some n → X.length < n →
      scanAngleToken quote (X ++ [byte '>']) = some (X.length + 1)
  | [], none, n, _, _, _ => by decide
  | [], some q, n, hq, h, _ => by
    rw [nil_append, scanAngleToken_unclosed (hJ.not_mem (hq q rfl))] at h
    simp at h
  | b :: X, some q, n, hq, h, hn => by
    rw [cons_append, scanAngleToken] at h ⊢
    obtain ⟨k, hk, rfl⟩ := Option.map_eq_some_iff.mp h
    have hquote : IsQuote (if b = q then none else some q) := by
      split
      · simp [IsQuote]
      · exact hq
    rw [scanAngleToken_loose hJ hquote hk (by simpa using hn)]
    rfl
  | b :: X, none, n, _, h, hn => by
    rw [cons_append, scanAngleToken] at h ⊢
    by_cases hb : b = byte '"' ∨ b = byte '\''
    · rw [if_pos hb] at h ⊢
      obtain ⟨k, hk, rfl⟩ := Option.map_eq_some_iff.mp h
      have hquote : IsQuote (some b) := by simpa [IsQuote] using hb
      rw [scanAngleToken_loose hJ hquote hk (by simpa using hn)]
      rfl
    rw [if_neg hb] at h ⊢
    by_cases hend : b = byte '>'
    · rw [if_pos hend] at h
      have hone := Option.some.inj h
      simp only [length_cons] at hn
      omega
    · rw [if_neg hend] at h ⊢
      obtain ⟨k, hk, rfl⟩ := Option.map_eq_some_iff.mp h
      rw [scanAngleToken_loose hJ (by simp [IsQuote]) hk (by simpa using hn)]
      rfl

/-- A `>` with loose bytes behind it ends the scan, if nothing did before. -/
theorem scanAngleToken_le (hJ : Loose J) :
    ∀ {X : Bytes} {quote : Option UInt8} {n : Nat},
    IsQuote quote → scanAngleToken quote (X ++ byte '>' :: J) = some n → n ≤ X.length + 1
  | [], none, n, _, h => by
    rw [nil_append, scanAngleToken, if_neg (by decide), if_pos rfl] at h
    rw [← Option.some.inj h]
    rfl
  | [], some q, n, hq, h => by
    have hnot : q ∉ byte '>' :: J := by
      rw [mem_cons, not_or]
      refine ⟨?_, hJ.not_mem (hq q rfl)⟩
      rcases hq q rfl with rfl | rfl <;> decide
    rw [nil_append, scanAngleToken_unclosed hnot] at h
    simp at h
  | b :: X, some q, n, hq, h => by
    rw [cons_append, scanAngleToken] at h
    obtain ⟨k, hk, rfl⟩ := Option.map_eq_some_iff.mp h
    have hquote : IsQuote (if b = q then none else some q) := by
      split
      · simp [IsQuote]
      · exact hq
    have := scanAngleToken_le hJ hquote hk
    simp only [length_cons]
    omega
  | b :: X, none, n, _, h => by
    rw [cons_append, scanAngleToken] at h
    split at h
    next hb =>
      obtain ⟨k, hk, rfl⟩ := Option.map_eq_some_iff.mp h
      have := scanAngleToken_le hJ (by simpa [IsQuote] using hb) hk
      simp only [length_cons]
      omega
    split at h
    · have hone := Option.some.inj h
      simp only [length_cons]
      omega
    · obtain ⟨k, hk, rfl⟩ := Option.map_eq_some_iff.mp h
      have := scanAngleToken_le hJ (by simp [IsQuote]) hk
      simp only [length_cons]
      omega

/-- Where the scan ends stands a `>`. -/
theorem exists_of_scanAngleToken : ∀ {l : Bytes} {quote : Option UInt8},
    scanAngleToken quote l = some l.length → ∃ X, l = X ++ [byte '>']
  | [], _, h => by simp [scanAngleToken] at h
  | b :: l, quote, h => by
    have hrest : ∀ {q : Option UInt8}, (scanAngleToken q l).map (· + 1) = some (b :: l).length →
        ∃ X, b :: l = X ++ [byte '>'] := by
      intro q hq
      obtain ⟨k, hk, hlen⟩ := Option.map_eq_some_iff.mp hq
      rw [length_cons, Nat.add_right_cancel_iff] at hlen
      obtain ⟨X, rfl⟩ := exists_of_scanAngleToken (hlen ▸ hk)
      exact ⟨b :: X, rfl⟩
    cases quote with
    | some q =>
      rw [scanAngleToken] at h
      exact hrest h
    | none =>
      rw [scanAngleToken] at h
      split at h
      · exact hrest h
      split at h
      next hb =>
        have hnil : l = [] := by
          have := Option.some.inj h
          rw [length_cons] at this
          exact eq_nil_of_length_eq_zero (by omega)
        exact ⟨[], by rw [hnil, hb]; rfl⟩
      · exact hrest h

theorem takeWhile_loose (hJ : Loose J) (Y : Bytes) :
    (Y ++ J).takeWhile isNameByte = Y.takeWhile isNameByte := by
  have hnil : J.takeWhile isNameByte = [] := by
    cases J with
    | nil => rfl
    | cons b J => rw [takeWhile_cons_of_neg (by simp [(hJ b mem_cons_self).2.2.2])]
  induction Y with
  | nil => exact hnil
  | cons b Y ih =>
    rw [cons_append, takeWhile_cons, takeWhile_cons, ih]

theorem loose_end : Loose [byte '>'] := by
  intro b hb
  rw [mem_singleton.mp hb]
  decide

variable {start stop : Nat}

/-- The name of a start tag does not depend on the loose bytes behind it. -/
theorem parseTag_loose {X J : Bytes} (hJ : Loose J) {o : Tag}
    (h : parseTag (byte '<' :: (X ++ J)) start stop = some o) (hclosing : o.closing = false) :
    ∃ b X', X = b :: X' ∧ b ≠ byte '!' ∧ b ≠ byte '?' ∧
      tokenTag (byte '<' :: (X ++ [byte '>'])) = some
        { name := o.name, rawName := o.rawName, closing := false
          selfClosing := decide (bytes "/>" <:+ byte '<' :: (X ++ [byte '>']))
          start := 0, stop := 0 } := by
  dsimp only [parseTag] at h
  rw [drop_succ_cons, drop_zero] at h
  split_ifs at h with hspecial hslash hraw hrest hraw
  · rw [← Option.some.inj h] at hclosing
    exact absurd hclosing (by simp)
  have hbody : ∃ c Y, X.dropWhile isTagSpace = c :: Y := by
    cases hdrop : X.dropWhile isTagSpace with
    | nil =>
      rw [List.dropWhile_append, hdrop] at hraw
      have hloose : Loose (J.dropWhile isTagSpace) := fun b hb =>
        hJ b ((dropWhile_suffix _).subset hb)
      exact absurd (takeWhile_loose hloose []) hraw
    | cons c Y => exact ⟨c, Y, rfl⟩
  obtain ⟨c, Y, hdrop⟩ := hbody
  have hboth : ∀ K : Bytes, (X ++ K).dropWhile isTagSpace = c :: Y ++ K := by
    intro K
    rw [List.dropWhile_append, hdrop]
    rfl
  rw [hboth, takeWhile_loose hJ] at hraw
  rw [hboth] at hslash
  have hX : ∃ b X', X = b :: X' := by
    cases X with
    | nil => simp at hdrop
    | cons b X' => exact ⟨b, X', rfl⟩
  obtain ⟨b, X', rfl⟩ := hX
  simp only [not_or] at hspecial
  have hfirst : b ≠ byte '!' := by
    rintro rfl
    exact hspecial.2.2 ⟨_, rfl⟩
  have hsecond : b ≠ byte '?' := by
    rintro rfl
    exact hspecial.2.1 ⟨_, rfl⟩
  refine ⟨b, X', rfl, hfirst, hsecond, ?_⟩
  have hnot : ¬ (bytes "<!--" <+: byte '<' :: (b :: X' ++ [byte '>']) ∨
      bytes "<?" <+: byte '<' :: (b :: X' ++ [byte '>']) ∨
      bytes "<!" <+: byte '<' :: (b :: X' ++ [byte '>'])) := not_special hfirst hsecond
  rw [tokenTag, parseTag, if_neg hnot]
  dsimp only
  have hhead : (c :: Y ++ [byte '>']).head? ≠ some (byte '/') := hslash
  rw [drop_succ_cons, drop_zero, hboth, if_neg hhead, takeWhile_loose loose_end,
    if_neg hraw, ← Option.some.inj h, hboth, takeWhile_loose hJ]

theorem scanAngleToken_of_token {inner : Bytes} (htoken : IsToken (byte '<' :: inner)) {o : Tag}
    (hparse : parseTag (byte '<' :: inner) start stop = some o) :
    scanAngleToken none inner = some inner.length := by
  have hspecial : ¬ (bytes "<!--" <+: byte '<' :: inner ∨ bytes "<?" <+: byte '<' :: inner ∨
      bytes "<!" <+: byte '<' :: inner) := by
    intro hspecial
    rw [parseTag, if_pos hspecial] at hparse
    simp at hparse
  have hcdata : ¬ bytes "<![CDATA[" <+: byte '<' :: inner := fun hcdata =>
    hspecial (.inr (.inr ((show bytes "<!" <+: bytes "<![CDATA[" by decide).trans hcdata)))
  simp only [not_or] at hspecial
  have hlength := htoken.length
  rw [tokenLength, if_neg hspecial.1, if_neg hcdata, if_neg hspecial.2.1, drop_succ_cons,
    drop_zero] at hlength
  obtain ⟨n, hn, hlen⟩ := Option.map_eq_some_iff.mp hlength
  rw [length_cons, Nat.add_right_cancel_iff] at hlen
  rw [hn, hlen]

/-! ## The text of the tag -/

theorem exists_trimmed (text : Text) :
    ∃ junk, text = RprFragment.trimmedBody (text ++ ['>']) ++ junk ∧
    ∀ c ∈ junk, isUnicodeWhitespace c = true ∨ c = '>' ∨ c = '/' := by
  have hone : ∀ (p : Char → Bool) (l : Text), ∃ junk, l = l.rdropWhile p ++ junk ∧
      ∀ c ∈ junk, p c = true := fun p l =>
    ⟨l.rtakeWhile p, rdropWhile_append_rtakeWhile.symm, fun c hc => mem_rtakeWhile_imp hc⟩
  rw [RprFragment.trimmedBody, rdropWhile_concat_neg _ _ _ (by decide),
    rdropWhile_concat_pos _ _ _ (by decide)]
  obtain ⟨j₁, h₁, hj₁⟩ := hone (· == '>') text
  obtain ⟨j₂, h₂, hj₂⟩ := hone isUnicodeWhitespace (text.rdropWhile (· == '>'))
  obtain ⟨j₃, h₃, hj₃⟩ := hone (· == '/')
    ((text.rdropWhile (· == '>')).rdropWhile isUnicodeWhitespace)
  obtain ⟨j₄, h₄, hj₄⟩ := hone isUnicodeWhitespace
    (((text.rdropWhile (· == '>')).rdropWhile isUnicodeWhitespace).rdropWhile (· == '/'))
  refine ⟨j₄ ++ (j₃ ++ (j₂ ++ j₁)), ?_, ?_⟩
  · rw [← append_assoc, ← h₄, ← append_assoc, ← h₃, ← append_assoc, ← h₂, ← h₁]
  · intro c hc
    simp only [mem_append] at hc
    rcases hc with hc | hc | hc | hc
    · exact .inl (hj₄ c hc)
    · exact .inr (.inr (by simpa using hj₃ c hc))
    · exact .inl (hj₂ c hc)
    · exact .inr (.inl (by simpa using hj₁ c hc))

theorem loose_utf8 {junk : Text}
    (h : ∀ c ∈ junk, isUnicodeWhitespace c = true ∨ c = '>' ∨ c = '/') : Loose (utf8 junk) := by
  intro b hb
  by_cases hlt : b.toNat < 128
  · obtain ⟨c, hc, hcb⟩ := Library.Utf8.exists_of_mem_encode hb hlt
    have hvalue : b.toNat = 9 ∨ b.toNat = 10 ∨ b.toNat = 11 ∨ b.toNat = 12 ∨ b.toNat = 13 ∨
        b.toNat = 32 ∨ b.toNat = 62 ∨ b.toNat = 47 := by
      rcases h c hc with hspace | rfl | rfl
      · simp only [isUnicodeWhitespace, Bool.or_eq_true, Bool.and_eq_true, decide_eq_true_eq,
          beq_iff_eq] at hspace
        omega
      · simp [← hcb]
      · simp [← hcb]
    have hbyte : b = UInt8.ofNat b.toNat := UInt8.ofNat_toNat.symm
    rcases hvalue with h | h | h | h | h | h | h | h <;> rw [hbyte, h] <;> decide
  · refine ⟨?_, ?_, ?_, ?_⟩
    · rintro rfl
      exact hlt (by decide)
    · rintro rfl
      exact hlt (by decide)
    · rintro rfl
      exact hlt (by decide)
    · rw [Bool.eq_false_iff]
      exact fun hname => hlt (isNameByte_lt hname)

/-- The bytes of a tag in a text are the bytes of a text that ends in `>`. -/
theorem exists_text_of_token {text : Text} {lead opening rest : Bytes}
    (h : utf8 text = lead ++ (opening ++ rest)) (htoken : IsToken opening) {o : Tag}
    (hparse : parseTag opening start stop = some o) : ∃ t, opening = utf8 (t ++ ['>']) := by
  obtain ⟨inner, rfl⟩ := htoken.exists_cons
  obtain ⟨X, rfl⟩ := exists_of_scanAngleToken (scanAngleToken_of_token htoken hparse)
  have hlead : utf8 text = lead ++ byte '<' :: (X ++ byte '>' :: rest) := by
    rw [h]
    simp
  obtain ⟨-, t, -, ht⟩ := exists_utf8_split (by decide) hlead
  have hinner : utf8 t = (byte '<' :: X) ++ byte '>' :: rest := by
    rw [← ht]
    rfl
  obtain ⟨s, -, hs, -⟩ := exists_utf8_split (by decide) hinner
  refine ⟨s, ?_⟩
  rw [utf8_append, ← hs]
  rfl

/-- The text of the opening tag without its end. -/
def RprFragment.openBody (f : RprFragment) : Text :=
  RprFragment.trimmedBody (decodeLossy (slice f.bytes f.root.openStart f.root.openEnd))

theorem RprFragment.openForm_eq (f : RprFragment) :
    f.openForm = utf8 f.openBody ++ [byte '>'] := by
  have hend : utf8 ['>'] = [byte '>'] := by decide
  rw [openForm, utf8_append, hend]
  rfl

/-- Only a second `/` makes the open form self-closing. -/
theorem RprFragment.openForm_suffix_iff (f : RprFragment) :
    Docx2Typed.bytes "/>" <:+ f.openForm ↔ f.openBody.getLast? = some '/' := by
  have hend : Docx2Typed.bytes "/>" = [byte '/'] ++ [byte '>'] := by decide
  rw [openForm_eq, hend, suffix_append_self_iff]
  constructor
  · rintro ⟨before, hbefore⟩
    cases hbody : f.openBody using List.reverseRecOn with
    | nil =>
      rw [hbody] at hbefore
      simp [utf8, Library.Utf8.encode_nil] at hbefore
    | append_singleton text c =>
      rw [hbody, utf8_append] at hbefore
      have hne : utf8 [c] ≠ [] := by
        rw [utf8_cons]
        exact append_ne_nil_of_left_ne_nil (Library.Utf8.encodeChar_ne_nil c) _
      have hlast := congrArg List.getLast? hbefore
      rw [getLast?_concat, getLast?_append_of_ne_nil _ hne] at hlast
      have hmem : byte '/' ∈ utf8 [c] := mem_of_getLast? hlast.symm
      obtain ⟨d, hd, hvalue⟩ := Library.Utf8.exists_of_mem_encode hmem (by decide)
      obtain rfl := mem_singleton.mp hd
      rw [getLast?_concat, Char.toNat_inj.mp (hvalue.trans (by decide : _ = '/'.toNat))]
  · intro hlast
    obtain ⟨text, htext⟩ := getLast?_eq_some_iff.mp hlast
    have hslash : utf8 ['/'] = [byte '/'] := by decide
    rw [htext, utf8_append, hslash]
    exact suffix_append _ _

variable {f : RprFragment}

/-- The opening tag in open form. -/
theorem RprFragment.openForm_spec {text : Text} (hbytes : f.bytes = utf8 text)
    {lead opening tail rear : Bytes} {items : List Item} (h : f.Rows lead opening items tail rear) :
    IsToken f.openForm ∧ tokenTag f.openForm = some
        { name := "rPr", rawName := f.root.rawName, closing := false
          selfClosing := decide (Docx2Typed.bytes "/>" <:+ f.openForm), start := 0, stop := 0 } ∧
      f.openBody.getLast? ≠ some '>' := by
  obtain ⟨o, hparse, hname, hclosing, hrawName⟩ := h.parsed
  have hsplit : utf8 text = lead ++ (opening ++ (itemsBytes items ++ (tail ++ rear))) :=
    hbytes ▸ h.bytes
  obtain ⟨t, ht⟩ := exists_text_of_token hsplit h.token hparse
  have hslice : slice f.bytes f.root.openStart f.root.openEnd = opening := by
    rw [h.bytes]
    exact slice_from lead opening _ h.openStart (by rw [h.openEnd, length_append])
  have hbody : f.openBody = RprFragment.trimmedBody (t ++ ['>']) := by
    rw [openBody, hslice, ht, utf8, Library.Utf8.decodeLossy_encode]
  obtain ⟨junk, hjunk, hloose⟩ := exists_trimmed t
  rw [← hbody] at hjunk
  have hJ : Loose (utf8 junk ++ [byte '>']) := by
    intro b hb
    rcases mem_append.mp hb with hb | hb
    · exact loose_utf8 hloose b hb
    · exact loose_end b hb
  have hend : utf8 ['>'] = [byte '>'] := by decide
  have hopening : opening = utf8 f.openBody ++ (utf8 junk ++ [byte '>']) := by
    rw [ht, hjunk, utf8_append, utf8_append, hend, append_assoc]
  obtain ⟨X, hX⟩ : ∃ X, utf8 f.openBody = byte '<' :: X := by
    obtain ⟨inner, hinner⟩ := h.token.exists_cons
    cases hstart : utf8 f.openBody with
    | nil =>
      rw [hstart, nil_append, hinner] at hopening
      exact absurd rfl (hJ (byte '<') (by rw [← hopening]; exact mem_cons_self)).1
    | cons b X =>
      rw [hstart, cons_append, hinner] at hopening
      exact ⟨X, by rw [(List.cons.inj hopening).1]⟩
  rw [hX, cons_append] at hopening
  subst hopening
  have hscan := scanAngleToken_of_token h.token hparse
  obtain ⟨b, X', rfl, hfirst, hsecond, htag⟩ := parseTag_loose hJ hparse hclosing
  have hform : f.openForm = byte '<' :: (b :: X' ++ [byte '>']) := by
    rw [openForm_eq, hX, cons_append]
  refine ⟨?_, ?_, ?_⟩
  · rw [hform]
    refine isToken_of_scan hfirst hsecond ?_
    have hend := scanAngleToken_loose hJ (by simp [IsQuote]) hscan (by simp)
    simpa using hend
  · rw [hform, htag, hname, hrawName]
  · intro hlast
    obtain ⟨s, hs⟩ := getLast?_eq_some_iff.mp hlast
    rw [hs, utf8_append, hend] at hX
    obtain ⟨Y, hY⟩ : ∃ Y, b :: X' = Y ++ [byte '>'] := by
      cases hbytes : utf8 s with
      | nil =>
        rw [hbytes] at hX
        exact absurd (List.cons.inj hX).1 (by decide)
      | cons first Y =>
        rw [hbytes, cons_append] at hX
        exact ⟨Y, (List.cons.inj hX).2.symm⟩
    rw [hY, append_assoc, singleton_append] at hscan
    have hle := scanAngleToken_le hJ (by simp [IsQuote]) hscan
    simp only [length_append, length_cons] at hle
    omega

variable {base : Text}

section

variable (h : RprFragment.read (utf8 base) = .ok f)

include h

theorem RprFragment.exists_bytes_of_read : ∃ text, f.bytes = utf8 text := by
  have hbytes : ∀ {raw : Bytes}, RprFragment.ofBytes raw = .ok f → f.bytes = raw := by
    intro raw h
    obtain ⟨nodes, -, h⟩ := bind_eq_ok h
    obtain ⟨root, -, h⟩ := bind_eq_ok h
    split at h
    · exact absurd h refuse_ne_ok
    · rw [← Except.ok.inj h]
  rw [RprFragment.read] at h
  split at h
  · exact ⟨_, hbytes h⟩
  · exact ⟨base, hbytes h⟩

theorem RprFragment.startsPlain (hbody : f.openBody.getLast? ≠ some '/') : f.StartsPlain := by
  obtain ⟨text, hbytes⟩ := RprFragment.exists_bytes_of_read h
  obtain ⟨lead, opening, items, tail, rear, hrows⟩ := RprFragment.exists_rows h
  obtain ⟨htoken, htag, hend⟩ := RprFragment.openForm_spec hbytes hrows
  have hself : decide (Docx2Typed.bytes "/>" <:+ f.openForm) = false :=
    decide_eq_false fun hsuffix => hbody (f.openForm_suffix_iff.mp hsuffix)
  rw [hself] at htag
  refine ⟨htoken, ⟨_, htag, rfl, rfl⟩, fun c hc => ⟨?_, ?_⟩⟩
  · rintro rfl
    exact hend hc
  · rintro rfl
    exact hbody hc

/-- The end tag stands alone behind an opening tag that is self-closing. -/
theorem RprFragment.read_restyled_ne_ok (hbody : f.openBody.getLast? = some '/') {name : String}
    {element : Option Bytes} (helement : ∀ text ∈ element, IsElement text name true)
    (f' : RprFragment) : RprFragment.read (f.restyled name element) ≠ .ok f' := by
  intro hread
  obtain ⟨text, hbytes⟩ := RprFragment.exists_bytes_of_read h
  obtain ⟨lead, opening, items, tail, rear, hrows⟩ := RprFragment.exists_rows h
  obtain ⟨htoken, htag, -⟩ := RprFragment.openForm_spec hbytes hrows
  obtain ⟨raw, hne, hraw, hroot⟩ := exists_nameBytes htag
  have hself : decide (Docx2Typed.bytes "/>" <:+ f.openForm) = true :=
    decide_eq_true (f.openForm_suffix_iff.mpr hbody)
  obtain ⟨hreads, hlast⟩ := hrows.reads_newItems helement
  have hgap := hlast.append ⟨hrows.whole, hrows.noTag⟩
  have hclose := f.closeForm_eq hraw hroot
  have hcloseToken : IsToken f.closeForm := hclose ▸ isToken_endTag hraw
  have hclosing := tokenTag_endTag hraw hne
  rw [← hclose] at hclosing
  obtain ⟨K, hK, -, hscan⟩ := scanTags_row htoken hcloseToken htag hclosing hreads hgap
  have hrestyled : f.restyled name element = f.openForm ++
      (itemsBytes (newItems name element items).1 ++
        ((newItems name element items).2 ++ tail ++ f.closeForm)) := by
    rw [hrows.restyled_eq name element]
    simp
  have hblank : isBlankRpr (f.restyled name element) = false := by
    obtain ⟨rest, hrest⟩ := htoken.exists_cons
    rw [hrestyled, hrest]
    exact isBlankRpr_lt _
  rw [RprFragment.read, hblank, if_neg Bool.false_ne_true] at hread
  obtain ⟨nodes, hnodes, -⟩ := bind_eq_ok hread
  obtain ⟨F, hF, htokens, -⟩ := exists_forest_of_buildTree hnodes
  have hnest := Library.nest_tokens hF []
  rw [htokens, hrestyled, hscan, Library.nest_cons,
    Library.nestStep_of_single (by simp [Tag.bracket, hself]), Option.bind_some,
    Library.nest_append, Library.nest_tokens hK, Option.bind_some, Library.nest_cons] at hnest
  simp [Library.nestStep, Tag.bracket] at hnest

theorem RprFragment.read_override_ne_ok (hbody : f.openBody.getLast? = some '/') {r : Override}
    (hsound : r.Sound) (f' : RprFragment) :
    RprFragment.read (f.restyled r.name ((r.child f.qualifier).map (·.written))) ≠ .ok f' := by
  obtain ⟨text, hbytes⟩ := RprFragment.exists_bytes_of_read h
  obtain ⟨lead, opening, items, tail, rear, hrows⟩ := RprFragment.exists_rows h
  obtain ⟨-, htag, -⟩ := RprFragment.openForm_spec hbytes hrows
  obtain ⟨raw, -, hraw, hroot⟩ := exists_nameBytes htag
  exact RprFragment.read_restyled_ne_ok h hbody (f.isElement_child hraw hroot hsound) f'

end

end Docx2Typed
