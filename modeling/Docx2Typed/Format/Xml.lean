import Docx2Typed.Library.Scan
import Docx2Typed.Prose.Text
import Docx2Typed.XmlWalker

/-!
# The format engine's view of XML

`scan_tags` of the format engine is a scanner of its own: a tag ends at the first `>`, quotes or
not.  `exists_scanTags_slice`: the tags of a range that starts at a tag and ends at one are the
tags of the part between these two.
-/

namespace Docx2Typed.Format

open Library List
open Library.Utf8 (decodeLossy)

/-- One tag, with the byte range it occupies in the part. -/
structure Tag where
  name : String
  start : ℕ
  stop : ℕ
  closing : Bool
  selfClosing : Bool
  deriving DecidableEq, Repr

/-- How long the token is that starts here. -/
def tokenWidth (rest : Bytes) : Option ℕ :=
  if bytes "<!--" <+: rest then (findSub (bytes "-->") rest).map (· + 3)
  else if bytes "<![CDATA[" <+: rest then (findSub (bytes "]]>") rest).map (· + 3)
  else if bytes "<?" <+: rest then (findSub (bytes "?>") rest).map (· + 2)
  else (findSub [byte '>'] rest).map (· + 1)

/-- A tag without its angle brackets, past the slash of a closing one. -/
def tagBody (inner : Bytes) : Bytes :=
  if inner.head? = some (byte '/') then inner.drop 1 else inner

def tagName (body : Bytes) : String :=
  localName (String.ofList (decodeLossy
    (body.takeWhile fun b => !(isAsciiWhitespace b || b == byte '/'))))

/-- What a token is read as; comments, CDATA and processing instructions are no elements. -/
def readTag (token : Bytes) (span : ℕ × ℕ) : Option Tag :=
  if bytes "<!--" <+: token ∨ bytes "<![CDATA[" <+: token ∨ bytes "<?" <+: token then none
  else
    let inner := (token.drop 1).dropLast
    let body := tagBody inner
    if tagName body = "" then none
    else some ⟨tagName body, span.1, span.2, inner.head? == some (byte '/'),
      body.getLast? == some (byte '/')⟩

def scanTags (xml : Bytes) : List Tag :=
  (scan (byte '<') tokenWidth 0 0 xml).filterMap fun span => readTag (slice xml span.1 span.2) span

/-- The entity forms that are decoded. -/
def entityForms : List (Text × Char) :=
  [("&amp;".toList, '&'), ("&lt;".toList, '<'), ("&gt;".toList, '>'), ("&quot;".toList, '"'),
    ("&apos;".toList, '\'')]

/-- Every round takes a character, so the length is fuel enough. -/
def decodeForms : ℕ → Text → Text
  | 0, _ => []
  | _, [] => []
  | fuel + 1, c :: rest =>
    if c ≠ '&' then c :: decodeForms fuel rest
    else
      match entityForms.find? fun entity => entity.1.isPrefixOf (c :: rest) with
      | some (form, character) => character :: decodeForms fuel ((c :: rest).drop form.length)
      | none => '&' :: decodeForms fuel rest

def decodeText (raw : Bytes) : Text :=
  let text := decodeLossy raw
  decodeForms text.length text

def encodeText (text : Text) : Text := xmlEscape text

def needsSpacePreservation (text : Text) : Bool :=
  text.head? == some ' ' || text.getLast? == some ' '

/-! ## Tags of a range -/

theorem findSub_width (needle : Bytes) {rest : Bytes} {n : ℕ} (hneedle : needle ≠ [])
    (h : (findSub needle rest).map (· + needle.length) = some n) : 0 < n ∧ n ≤ rest.length ∧
      ∀ k, n ≤ k → (findSub needle (rest.take k)).map (· + needle.length) = some n := by
  obtain ⟨i, hi, rfl⟩ := Option.map_eq_some_iff.mp h
  have hpos := length_pos_iff.mpr hneedle
  refine ⟨by omega, findSub_add_length_le hi, fun k hk => ?_⟩
  rw [findSub_take_of_eq_some hi hk]
  rfl

/-- A block that starts nowhere in the first `m` bytes is found behind them. -/
theorem le_of_findSub {opening needle rest : Bytes} {i m : ℕ} (hopening : opening <+: rest)
    (h : findSub needle rest = some i) (hneedle : needle ≠ [])
    (hne : ∀ j < m, opening[j]? ≠ needle.head?) (hm : m ≤ opening.length) : m ≤ i := by
  by_contra hlt
  obtain ⟨⟨after, hafter⟩, -, -⟩ := findSub_eq_some_iff.mp h
  obtain ⟨tail, rfl⟩ := hopening
  obtain ⟨first, needle, rfl⟩ := exists_cons_of_ne_nil hneedle
  have hhead := congrArg List.head? hafter
  rw [cons_append, head?_cons, head?_drop,
    getElem?_append_left (by omega)] at hhead
  exact hne i (by omega) hhead

theorem tokenWidth_spec {rest : Bytes} {n : ℕ} (h : tokenWidth rest = some n) :
    0 < n ∧ n ≤ rest.length ∧ ∀ k, n ≤ k → tokenWidth (rest.take k) = some n := by
  have hnot : ∀ {p : Bytes} k, ¬ p <+: rest → ¬ p <+: rest.take k :=
    fun k hp hpre => hp (hpre.trans (List.take_prefix k rest))
  have hyes : ∀ {p : Bytes} {k}, p.length ≤ k → p <+: rest → p <+: rest.take k :=
    fun hp hpre => prefix_take_iff.mpr ⟨hpre, hp⟩
  rw [tokenWidth] at h
  by_cases hcomment : bytes "<!--" <+: rest
  · rw [if_pos hcomment] at h
    obtain ⟨hpos, hle, htake⟩ := findSub_width (bytes "-->") (by decide) h
    refine ⟨hpos, hle, fun k hk => ?_⟩
    obtain ⟨i, hi, rfl⟩ := Option.map_eq_some_iff.mp h
    have hstart : 1 ≤ i := le_of_findSub hcomment hi (by decide) (by decide) (by decide)
    rw [tokenWidth, if_pos (hyes (show 4 ≤ k by omega) hcomment)]
    exact htake k hk
  rw [if_neg hcomment] at h
  by_cases hcdata : bytes "<![CDATA[" <+: rest
  · rw [if_pos hcdata] at h
    obtain ⟨hpos, hle, htake⟩ := findSub_width (bytes "]]>") (by decide) h
    refine ⟨hpos, hle, fun k hk => ?_⟩
    obtain ⟨i, hi, rfl⟩ := Option.map_eq_some_iff.mp h
    have hstart : 6 ≤ i := le_of_findSub hcdata hi (by decide) (by decide) (by decide)
    rw [tokenWidth, if_neg (hnot k hcomment), if_pos (hyes (show 9 ≤ k by omega) hcdata)]
    exact htake k hk
  rw [if_neg hcdata] at h
  by_cases hinstruction : bytes "<?" <+: rest
  · rw [if_pos hinstruction] at h
    obtain ⟨hpos, hle, htake⟩ := findSub_width (bytes "?>") (by decide) h
    refine ⟨hpos, hle, fun k hk => ?_⟩
    obtain ⟨i, hi, rfl⟩ := Option.map_eq_some_iff.mp h
    rw [tokenWidth, if_neg (hnot k hcomment), if_neg (hnot k hcdata),
      if_pos (hyes (show 2 ≤ k by omega) hinstruction)]
    exact htake k hk
  rw [if_neg hinstruction] at h
  obtain ⟨hpos, hle, htake⟩ := findSub_width [byte '>'] (by decide) h
  refine ⟨hpos, hle, fun k hk => ?_⟩
  rw [tokenWidth, if_neg (hnot k hcomment), if_neg (hnot k hcdata), if_neg (hnot k hinstruction)]
  exact htake k hk

theorem measures_tokenWidth : Measures (byte '<') tokenWidth where
  pos h := (tokenWidth_spec h).1
  le h := by simpa using (tokenWidth_spec h).2.1
  take h hk := (tokenWidth_spec h).2.2 _ hk

/-- A tag records its span. -/
theorem readTag_span {token : Bytes} {span : ℕ × ℕ} {tag : Tag}
    (h : readTag token span = some tag) : tag.start = span.1 ∧ tag.stop = span.2 := by
  simp only [readTag] at h
  split_ifs at h
  obtain rfl := Option.some.inj h
  exact ⟨rfl, rfl⟩

/-- Tags that stand one behind the other in `[lo, hi)`. -/
structure Ordered (lo hi : ℕ) (tags : List Tag) : Prop where
  apart : tags.Pairwise fun a b => a.stop ≤ b.start
  inside : ∀ tag ∈ tags, lo ≤ tag.start ∧ tag.start < tag.stop ∧ tag.stop ≤ hi

theorem exists_span_of_mem {xml : Bytes} {tag : Tag} (h : tag ∈ scanTags xml) :
    (tag.start, tag.stop) ∈ scan (byte '<') tokenWidth 0 0 xml := by
  obtain ⟨span, hspan, hread⟩ := mem_filterMap.mp h
  obtain ⟨hstart, hstop⟩ := readTag_span hread
  rw [hstart, hstop]
  exact hspan

theorem ordered_scanTags (xml : Bytes) : Ordered 0 xml.length (scanTags xml) where
  apart := by
    refine pairwise_filterMap.mpr ((scan_pairwise measures_tokenWidth).imp ?_)
    intro a b hab tag htag tag' htag'
    rw [(readTag_span htag).2, (readTag_span htag').1]
    exact hab
  inside tag htag := by
    have := scan_inside measures_tokenWidth (exists_span_of_mem htag)
    grind

/-- A tag, `k` bytes further on. -/
def Tag.shift (k : ℕ) (tag : Tag) : Tag := { tag with start := k + tag.start, stop := k + tag.stop }

theorem readTag_shift (token : Bytes) (k : ℕ) (span : ℕ × ℕ) :
    readTag token (k + span.1, k + span.2) = (readTag token span).map (Tag.shift k) := by
  simp only [readTag]
  split_ifs <;> rfl

/-- The tags of a range that starts at a tag and ends at one. -/
theorem exists_scanTags_slice {xml : Bytes} {start stop : ℕ} (hlt : start < stop)
    (hstart : ∃ tag ∈ scanTags xml, tag.start = start)
    (hstop : ∃ tag ∈ scanTags xml, tag.stop = stop) :
    ∃ before after,
      scanTags xml = before ++ (scanTags (slice xml start stop)).map (Tag.shift start) ++ after ∧
      (∀ tag ∈ before, tag.stop ≤ start) ∧ ∀ tag ∈ after, stop ≤ tag.start := by
  obtain ⟨first, hfirst, rfl⟩ := hstart
  obtain ⟨last, hlast, rfl⟩ := hstop
  obtain ⟨before, after, hscan, hbefore, hafter⟩ := exists_scan_slice measures_tokenWidth
    hlt ⟨_, exists_span_of_mem hfirst, rfl⟩ ⟨_, exists_span_of_mem hlast, rfl⟩
  refine ⟨before.filterMap fun span => readTag (slice xml span.1 span.2) span,
    after.filterMap fun span => readTag (slice xml span.1 span.2) span, ?_, ?_, ?_⟩
  · rw [scanTags, hscan, filterMap_append, filterMap_append, filterMap_map, scanTags,
      map_filterMap]
    congr 2
    refine filterMap_congr fun span hspan => ?_
    have hinside := scan_inside measures_tokenWidth hspan
    have hlength : ((xml.take last.stop).drop first.start).length ≤ last.stop - first.start := by
      rw [length_drop, length_take]
      omega
    rw [slice_slice _ _ _ _ _ (by omega), ← readTag_shift]
    rfl
  · intro tag htag
    obtain ⟨span, hspan, hread⟩ := mem_filterMap.mp htag
    rw [(readTag_span hread).2]
    exact hbefore span hspan
  · intro tag htag
    obtain ⟨span, hspan, hread⟩ := mem_filterMap.mp htag
    rw [(readTag_span hread).1]
    exact hafter span hspan

end Docx2Typed.Format
