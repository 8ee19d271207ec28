import Docx2Typed.XmlWalker.Tree

/-!
# What the scanner reads

A part is a row of texts, comments, CDATA sections, instructions and angle tokens, up to a token
that is not ended.  The tags are the angle tokens that are tags, each where it stands.
-/

namespace Docx2Typed

open Library (findSub findSub_eq_some_iff)
open List

/-! ## Angle tokens -/

/-- What stands between `<` and `>`: no `>` but in quotes, and every quote closed. -/
inductive AngleBody : Bytes → Prop where
  | nil : AngleBody []
  | plain {b : UInt8} {l : Bytes} (hdouble : b ≠ byte '"') (hsingle : b ≠ byte '\x27')
      (hend : b ≠ byte '>') (h : AngleBody l) : AngleBody (b :: l)
  | quoted {q : UInt8} {s l : Bytes} (hq : q = byte '"' ∨ q = byte '\x27') (hs : q ∉ s)
      (h : AngleBody l) : AngleBody (q :: (s ++ q :: l))

/-- What the scan of an angle token still takes, `quote` being the quote it stands in. -/
def AngleRest : Option UInt8 → Bytes → Prop
  | none, l => ∃ body, l = body ++ [byte '>'] ∧ AngleBody body
  | some q, l => ∃ s body, l = s ++ q :: (body ++ [byte '>']) ∧ q ∉ s ∧ AngleBody body

theorem angleRest_take : ∀ {l : Bytes} {quote : Option UInt8} {n : Nat},
    scanAngleToken quote l = some n → AngleRest quote (l.take n)
  | [], _, _, h => by simp [scanAngleToken] at h
  | b :: l, some q, n, h => by
    rw [scanAngleToken] at h
    obtain ⟨k, hk, rfl⟩ := Option.map_eq_some_iff.mp h
    have ih := angleRest_take hk
    rw [take_succ_cons]
    by_cases hb : b = q
    · rw [if_pos hb] at ih
      obtain ⟨body, hbody, hangle⟩ := ih
      exact ⟨[], body, by rw [hbody, hb]; rfl, not_mem_nil, hangle⟩
    · rw [if_neg hb] at ih
      obtain ⟨s, body, hbody, hs, hangle⟩ := ih
      refine ⟨b :: s, body, by rw [hbody]; rfl, ?_, hangle⟩
      rw [mem_cons, not_or]
      exact ⟨Ne.symm hb, hs⟩
  | b :: l, none, n, h => by
    rw [scanAngleToken] at h
    split at h
    next hquote =>
      obtain ⟨k, hk, rfl⟩ := Option.map_eq_some_iff.mp h
      obtain ⟨s, body, hbody, hs, hangle⟩ := angleRest_take hk
      refine ⟨b :: (s ++ b :: body), ?_, .quoted hquote hs hangle⟩
      rw [take_succ_cons, hbody]
      simp
    next hquote =>
      rw [not_or] at hquote
      split at h
      next hend =>
        rw [← Option.some.inj h]
        exact ⟨[], by rw [hend]; rfl, .nil⟩
      next hend =>
        obtain ⟨k, hk, rfl⟩ := Option.map_eq_some_iff.mp h
        obtain ⟨body, hbody, hangle⟩ := angleRest_take hk
        refine ⟨b :: body, ?_, .plain hquote.1 hquote.2 hend hangle⟩
        rw [take_succ_cons, hbody]
        rfl

/-! ## Lexemes -/

inductive Lexeme where
  | text (content : Bytes)
  | comment (content : Bytes)
  | cdata (content : Bytes)
  | instruction (content : Bytes)
  | angle (content : Bytes)
  deriving DecidableEq, Repr

namespace Lexeme

def written : Lexeme → Bytes
  | text content => content
  | comment content => bytes "<!--" ++ (content ++ bytes "-->")
  | cdata content => bytes "<![CDATA[" ++ (content ++ bytes "]]>")
  | instruction content => bytes "<?" ++ (content ++ bytes "?>")
  | angle content => byte '<' :: (content ++ [byte '>'])

/-- The content ends where the closing mark first stands. -/
def EndsAt (mark content : Bytes) : Prop :=
  ∀ j < content.length, ¬ mark <+: (content ++ mark).drop j

/-- What a lexeme of its kind is. -/
def Sound : Lexeme → Prop
  | text content => Plain content
  | comment content => EndsAt (bytes "-->") content
  | cdata content => EndsAt (bytes "]]>") content
  | instruction content => EndsAt (bytes "?>") content
  | angle content => AngleBody content ∧ ¬ bytes "<!--" <+: byte '<' :: (content ++ [byte '>']) ∧
      ¬ bytes "<![CDATA[" <+: byte '<' :: (content ++ [byte '>']) ∧
      ¬ bytes "<?" <+: byte '<' :: (content ++ [byte '>'])

/-- The tag a lexeme is, when it stands at an offset. -/
def tag (offset : Nat) : Lexeme → Option Tag
  | angle content =>
    parseTag (angle content).written offset (offset + (angle content).written.length)
  | _ => none

/-- The tags of a row of lexemes. -/
def tagsFrom : Nat → List Lexeme → List Tag
  | _, [] => []
  | offset, x :: row => (x.tag offset).toList ++ tagsFrom (offset + x.written.length) row

end Lexeme

/-- What is found behind the start of a lexeme with a closing mark. -/
theorem exists_content {start mark rest : Bytes} {n : Nat} (hstart : start <+: rest)
    (h : (findSub mark (rest.drop start.length)).map (· + start.length + mark.length) = some n) :
    ∃ content, rest.take n = start ++ (content ++ mark) ∧ Lexeme.EndsAt mark content := by
  obtain ⟨i, hi, rfl⟩ := Option.map_eq_some_iff.mp h
  obtain ⟨body, rfl⟩ := hstart
  rw [drop_left] at hi
  obtain ⟨⟨after, hafter⟩, hle, hfirst⟩ := findSub_eq_some_iff.mp hi
  have hbody : body = body.take i ++ (mark ++ after) := by
    rw [← hafter, take_append_drop]
  have hlength : (body.take i).length = i := length_take_of_le hle
  refine ⟨body.take i, ?_, ?_⟩
  · rw [Nat.add_comm i, Nat.add_assoc, take_length_add_append]
    refine congrArg (start ++ ·) ?_
    conv_lhs => rw [hbody, ← append_assoc]
    refine take_left' ?_
    rw [length_append, hlength]
  · intro j hj hmark
    rw [hlength] at hj
    refine hfirst j hj ?_
    rw [hbody, ← append_assoc, drop_append_of_le_length]
    · exact hmark.trans (List.prefix_append _ _)
    · rw [length_append, hlength]
      omega

/-- The token at the head of a list is one lexeme, and a tag when it parses as one. -/
theorem exists_lexeme {rest : Bytes} {n : Nat} (hhead : rest.head? = some (byte '<'))
    (h : tokenLength rest = some n) (offset : Nat) :
    ∃ x : Lexeme, x.Sound ∧ x.written = rest.take n ∧
      x.tag offset = parseTag (rest.take n) offset (offset + n) := by
  have hlength : (rest.take n).length = n := by
    have hne : rest ≠ [] := by
      rintro rfl
      simp at hhead
    exact length_take_of_le (tokenLength_pos hne h).2
  have hno : ∀ {start content : Bytes}, rest.take n = start ++ content →
      (bytes "<!--" <+: start ∨ bytes "<?" <+: start ∨ bytes "<!" <+: start) →
        none = parseTag (rest.take n) offset (offset + n) := by
    intro start content htake hstart
    have hlonger : start <+: rest.take n := htake ▸ List.prefix_append _ _
    rw [parseTag, if_pos]
    exact hstart.imp (·.trans hlonger) (.imp (·.trans hlonger) (·.trans hlonger))
  rw [tokenLength] at h
  split at h
  next hcomment =>
    obtain ⟨content, htake, hends⟩ := exists_content hcomment h
    exact ⟨.comment content, hends, htake.symm, hno htake (by decide)⟩
  next hcomment =>
  split at h
  next hcdata =>
    obtain ⟨content, htake, hends⟩ := exists_content hcdata h
    exact ⟨.cdata content, hends, htake.symm, hno htake (by decide)⟩
  next hcdata =>
  split at h
  next hinstruction =>
    obtain ⟨content, htake, hends⟩ := exists_content hinstruction h
    exact ⟨.instruction content, hends, htake.symm, hno htake (by decide)⟩
  next hinstruction =>
    obtain ⟨k, hk, rfl⟩ := Option.map_eq_some_iff.mp h
    obtain ⟨inner, rfl⟩ : ∃ inner, rest = byte '<' :: inner := by
      cases rest with
      | nil => simp at hhead
      | cons b inner => exact ⟨inner, by rw [Option.some.inj hhead]⟩
    obtain ⟨body, hbody, hangle⟩ := angleRest_take hk
    have htake : (byte '<' :: inner).take (k + 1) = byte '<' :: (body ++ [byte '>']) := by
      rw [take_succ_cons, ← hbody]
      rfl
    have hnot : ∀ {p : Bytes}, ¬ p <+: byte '<' :: inner →
        ¬ p <+: byte '<' :: (body ++ [byte '>']) := fun hp hspecial =>
      hp ((htake ▸ hspecial).trans (List.take_prefix _ _))
    refine ⟨.angle body, ⟨hangle, hnot hcomment, hnot hcdata, hnot hinstruction⟩, htake.symm, ?_⟩
    rw [Lexeme.tag, Lexeme.written, ← htake, hlength]

/-- The scanner reads a row of lexemes, and the tags are theirs. -/
theorem exists_lexemes (xml : Bytes) : ∀ offset : Nat, ∃ row rest,
    xml = row.flatMap Lexeme.written ++ rest ∧ (∀ x ∈ row, x.Sound) ∧
      scanAt offset xml = Lexeme.tagsFrom offset row := by
  induction hlen : xml.length using Nat.strong_induction_on generalizing xml with
  | _ len ih =>
    subst hlen
    intro offset
    set text := xml.takeWhile (· != byte '<') with htext
    set rest := xml.dropWhile (· != byte '<') with hrest
    have hxml : xml = text ++ rest := takeWhile_append_dropWhile.symm
    have hplain : (Lexeme.text text).Sound := by
      intro b hb
      simpa using mem_takeWhile_imp hb
    rw [scanAt_eq, ← htext, ← hrest]
    by_cases hnil : rest = []
    · have hwhole : xml = text := by rw [hxml, hnil, append_nil]
      refine ⟨[.text text], [], by simpa [Lexeme.written] using hwhole, by simpa using hplain, ?_⟩
      rw [if_pos hnil]
      rfl
    rw [if_neg hnil]
    have hhead : rest.head? = some (byte '<') := by
      have hfirst := head_dropWhile_not (· != byte '<') hnil
      rw [head?_eq_some_head hnil]
      simpa using hfirst
    cases htoken : tokenLength rest with
    | none =>
      exact ⟨[.text text], rest, by simpa [Lexeme.written] using hxml, by simpa using hplain, rfl⟩
    | some n =>
      obtain ⟨x, hsound, hwritten, htag⟩ := exists_lexeme hhead htoken (offset + text.length)
      have hpos := tokenLength_pos hnil htoken
      have hshort : (rest.drop n).length < xml.length := by
        rw [hxml, length_append, length_drop]
        omega
      obtain ⟨row, last, hrow, hall, hscan⟩ :=
        ih _ hshort (rest.drop n) rfl (offset + text.length + n)
      refine ⟨.text text :: x :: row, last, ?_, ?_, ?_⟩
      · rw [flatMap_cons, flatMap_cons, hwritten, append_assoc, append_assoc,
          ← hrow, take_append_drop]
        exact hxml
      · exact forall_mem_cons.mpr ⟨hplain, forall_mem_cons.mpr ⟨hsound, hall⟩⟩
      · have hwrittenText : (Lexeme.text text).written = text := rfl
        dsimp only
        rw [hscan, Lexeme.tagsFrom, Lexeme.tagsFrom, hwrittenText, htag, hwritten,
          length_take_of_le hpos.2]
        rfl

end Docx2Typed
