import Docx2Typed.Prose.Anchored
import Docx2Typed.Style.Restyled

/-!
# Planning a span to restyle

`plan_format_span` looks a text up in what a paragraph shows and records the span, the part and the
style.  Where the text starts is told by `str::find`, in bytes; how long it is, and where the runs
start, is counted in characters.  The record is about the text that was found exactly when the
characters before it have one byte each (`planFormatSpan_iff`).
-/

namespace Docx2Typed

open Library (findSub)
open Library.Utf8 (decodeLossy)
open List

/-- `matches(needle).count()`; after an occurrence the search goes on behind it. -/
def matchCount (needle : Text) : Nat → Text → Nat
  | skipped, [] => if skipped = 0 ∧ needle = [] then 1 else 0
  | skipped + 1, _ :: rest => matchCount needle skipped rest
  | 0, c :: rest =>
    if needle <+: c :: rest then 1 + matchCount needle (needle.length - 1) rest
    else matchCount needle 0 rest

/-- `find(needle)`, in bytes. -/
def byteFind (needle text : Text) : Option Nat :=
  (findSub needle text).map fun place => (utf8 (text.take place)).length

/-- `RprEdit`. -/
structure RprEdit where
  part : String
  paragraphId : String
  textStart : Nat
  textEnd : Nat
  attributes : List (String × AttributeValue)
  styleId : String
  deriving DecidableEq

/-- `RunRestyle`. -/
structure RunRestyle where
  rpr : Text
  canonicalRpr : Text
  styleId : String
  deriving DecidableEq

/-- The texts a plan quotes, a whole request among them. -/
structure PlanTexts extends QuoteTexts where
  attributesText : List (String × AttributeValue) → String

/-- What `load_style_rprs_for` meets. -/
inductive StylesFile where
  | missing
  | unreadable
  /-- No JSON, with the error of `serde_json`. -/
  | invalid (error : String)
  /-- The entries of `styles` when that is an object, each with its `rPr` when that is a string. -/
  | json (styles : Option (List (String × Option Text)))

/-- The files of a workdir that a plan reads. -/
structure PlanFiles where
  template : Option Bytes
  styles : StylesFile

/-- `load_style_rprs_for`. -/
def loadStyleRprsFor : StylesFile → Outcome (List (String × Text))
  | .missing => pure []
  | .unreadable => .error (.refused .io)
  | .invalid error => refuse ("invalid styles.json: " ++ error)
  | .json styles => pure ((styles.getD []).filterMap fun entry => entry.2.map (entry.1, ·))

section Plan

variable (crates : Crates) (texts : PlanTexts)

/-- `restyle_run_properties`. -/
def restyleRunProperties (base : Text) (attributes : List (String × AttributeValue))
    (available : List String) : Outcome RunRestyle := do
  match ← rprWithOverrides texts.toQuoteTexts (utf8 base) attributes with
  | none =>
    refuse ("format-noop: the requested attributes already match the target's run properties (" ++
      texts.attributesText attributes ++ ")")
  | some restyled => do
    -- the bytes are those of a string
    let rpr := decodeLossy restyled
    let styleId ← styleIdForRpr crates rpr
    if styleId ∈ available then do
      let canonicalRpr ← canonicalRprJson rpr
      pure ⟨rpr, canonicalRpr, styleId⟩
    else
      refuse ("format-style-unavailable: this document has no run carrying " ++
        texts.attributesText attributes ++
        " on the target's base formatting, and style variables cannot be invented (styles.json" ++
        " must mirror the source document). Reuse an existing variant by passing style_id=...," ++
        " or apply the formatting once in Word and re-extract")

/-- The leaves of a paragraph that a plan looks at. -/
def spanLeaves (inventory : ProseInventory) (paragraphId : String) : List ProseLeaf :=
  inventory.leaves.filter fun leaf => leaf.paragraphId = paragraphId ∧ leaf.editable

/-- Those of them that are not empty. -/
def filledLeaves (leaves : List ProseLeaf) : List ProseLeaf :=
  leaves.filter fun leaf => leaf.textStart ≠ leaf.textEnd

/-- The leaves a span covers, where `cursor` characters stand before them. -/
def coveredLeaves (start stop : Nat) : Nat → List ProseLeaf → List ProseLeaf
  | _, [] => []
  | cursor, leaf :: rest =>
    if leaf.textStart = leaf.textEnd then coveredLeaves start stop cursor rest
    else
      let leafEnd := cursor + leaf.text.length
      if cursor < stop ∧ start < leafEnd then leaf :: coveredLeaves start stop leafEnd rest
      else coveredLeaves start stop leafEnd rest

/-- The style of a span whose first run has the properties `base`. -/
def spanStyle (styles : StylesFile) (base : Text) (attributes : List (String × AttributeValue))
    (override : Option String) : Outcome String := do
  let available ← loadStyleRprsFor styles
  match override with
  | some requested =>
    if requested ∈ available.map Prod.fst then pure requested
    else refuse ("format-style-unavailable: " ++ requested ++ " is not in styles.json")
  | none => do
    let restyled ← restyleRunProperties crates texts base attributes (available.map Prod.fst)
    pure restyled.styleId

/-- `plan_format_span`. -/
def planFormatSpan (files : PlanFiles) (paragraphId : String) (old : Text)
    (attributes : List (String × AttributeValue)) (override : Option String) :
    Outcome RprEdit := do
  let package ← match files.template with
    | some package => pure package
    | none => .error (.refused .io)
  let inventory ← enumeratePackage crates package
  let leaves := spanLeaves inventory paragraphId
  if leaves = [] then
    refuse ("paragraph-not-found: paragraph " ++ paragraphId ++ " is not in the document")
  else
    let paragraphText := (filledLeaves leaves).flatMap (·.text)
    let occurrences := matchCount old 0 paragraphText
    if old = [] ∨ occurrences = 0 then
      refuse ("text-not-found: " ++ paragraphId ++ ": text " ++ texts.debugText old ++
        " not found in the paragraph")
    else if 1 < occurrences then
      refuse ("text-ambiguous: " ++ paragraphId ++ ": text " ++ texts.debugText old ++
        " appears " ++ occurrences.repr ++ " times; use a longer unique span")
    else
      let start := (byteFind old paragraphText).getD 0
      let stop := start + old.length
      match coveredLeaves start stop 0 leaves with
      | [] =>
        refuse ("text-not-found: " ++ paragraphId ++ ": " ++ texts.debugText old ++
          " is not editable text")
      | first :: _ => do
        let styleId ← spanStyle crates texts files.styles first.rpr attributes override
        pure ⟨first.partKey, paragraphId, start, stop, attributes, styleId⟩

end Plan

/-! ## Where a text stands -/

theorem matchCount_eq_zero {needle : Text} (hneedle : needle ≠ []) :
    ∀ {skipped : Nat} {text : Text}, (∀ place, ¬ needle <+: text.drop place) →
      matchCount needle skipped text = 0
  | skipped, [], _ => by rw [matchCount, if_neg fun h => hneedle h.2]
  | skipped + 1, c :: rest, h => by
    rw [matchCount]
    exact matchCount_eq_zero hneedle fun place => h (place + 1)
  | 0, c :: rest, h => by
    have hhere : ¬ needle <+: c :: rest := h 0
    rw [matchCount, if_neg hhere]
    exact matchCount_eq_zero hneedle fun place => h (place + 1)

/-- A text that stands at one place only is counted once. -/
theorem matchCount_eq_one {needle : Text} (hneedle : needle ≠ []) : ∀ {text : Text} {place : Nat},
    needle <+: text.drop place → (∀ other, needle <+: text.drop other → other = place) →
      matchCount needle 0 text = 1
  | [], place, h, _ => by
    rw [drop_nil] at h
    exact absurd (prefix_nil.mp h) hneedle
  | c :: rest, place, h, honce => by
    rw [matchCount]
    by_cases hhere : needle <+: c :: rest
    · obtain rfl : 0 = place := honce 0 hhere
      rw [if_pos hhere, matchCount_eq_zero hneedle fun other hother => ?_]
      exact absurd (honce (other + 1) hother) (Nat.succ_ne_zero other)
    · rw [if_neg hhere]
      match place, h with
      | 0, h => exact absurd h hhere
      | place + 1, h =>
        exact matchCount_eq_one hneedle h fun other hother =>
          Nat.succ.inj (honce (other + 1) hother)

theorem length_utf8_cons (c : Char) (text : Text) :
    (utf8 (c :: text)).length = c.utf8Size + (utf8 text).length := by
  rw [utf8, Library.Utf8.encode_cons, length_append, Library.Utf8.length_encodeChar]

theorem length_le_utf8 : ∀ text : Text, text.length ≤ (utf8 text).length
  | [] => Nat.le_refl 0
  | c :: rest => by
    have hsize := Char.utf8Size_pos c
    have hrest := length_le_utf8 rest
    rw [length_utf8_cons, length_cons]
    omega

/-- A text has as many bytes as characters exactly when each character has one. -/
theorem length_utf8_eq_iff : ∀ {text : Text},
    (utf8 text).length = text.length ↔ ∀ c ∈ text, c.utf8Size = 1
  | [] => iff_of_true rfl (by simp)
  | c :: rest => by
    have hsize := Char.utf8Size_pos c
    have hrest := length_le_utf8 rest
    rw [length_utf8_cons, length_cons, forall_mem_cons, ← length_utf8_eq_iff]
    constructor
    · intro h
      exact ⟨by omega, by omega⟩
    · rintro ⟨hc, h⟩
      omega

variable {place : Nat}

/-- A text that stands once is found there, at the offset its bytes have. -/
theorem byteFind_of_once {old text : Text} (hold : old ≠ [])
    (honce : occurrences old text = [place]) :
    byteFind old text = some (utf8 (text.take place)).length := by
  have hplace : old <+: text.drop place :=
    (mem_occurrences hold).mp (honce ▸ mem_singleton_self place)
  cases hfind : findSub old text with
  | none =>
    rw [(occurrences_eq_nil_iff hold).mpr hfind] at honce
    cases honce
  | some found =>
    obtain ⟨⟨after, hafter⟩, -, -⟩ := Library.findSub_eq_some_iff.mp hfind
    have hmem : found ∈ occurrences old text :=
      (mem_occurrences hold).mpr ⟨after, hafter.symm⟩
    rw [honce, mem_singleton] at hmem
    rw [byteFind, hfind, Option.map_some, hmem]

/-- The leaves before the one that holds the start of a span are not covered by it. -/
theorem coveredLeaves_left {start stop : Nat} : ∀ {leaves : List ProseLeaf} {cursor : Nat}
    {left right : List ProseLeaf} {holder : ProseLeaf},
    filledLeaves leaves = left ++ holder :: right →
    cursor + (left.flatMap (·.text)).length ≤ start →
    start < cursor + (left.flatMap (·.text)).length + holder.text.length → start < stop →
    ∃ rest, coveredLeaves start stop cursor leaves = holder :: rest
  | [], cursor, left, right, holder, hleaves, _, _, _ => by simp [filledLeaves] at hleaves
  | leaf :: leaves, cursor, left, right, holder, hleaves, hstart, hholder, hstop => by
    rw [coveredLeaves]
    by_cases hempty : leaf.textStart = leaf.textEnd
    · rw [if_pos hempty]
      rw [filledLeaves, filter_cons_of_neg (by simpa using hempty)] at hleaves
      exact coveredLeaves_left hleaves hstart hholder hstop
    · rw [if_neg hempty]
      rw [filledLeaves, filter_cons_of_pos (by simpa using hempty)] at hleaves
      cases left with
      | nil =>
        obtain ⟨rfl, -⟩ := List.cons.inj hleaves
        rw [flatMap_nil, length_nil] at hstart hholder
        exact ⟨_, if_pos ⟨by omega, by omega⟩⟩
      | cons first left =>
        rw [cons_append] at hleaves
        obtain ⟨rfl, hrest⟩ := List.cons.inj hleaves
        rw [flatMap_cons, length_append] at hstart hholder
        rw [if_neg (by omega)]
        exact coveredLeaves_left hrest (by omega) (by omega) hstop

/-! ## What is recorded -/

variable {inventory : ProseInventory} {package : Bytes}

section Recorded

variable (crates : Crates) (texts : PlanTexts) (files : PlanFiles) (paragraphId : String)
  (old : Text) (attributes : List (String × AttributeValue)) (override : Option String)

/-- The text a plan looks in. -/
def spanText (inventory : ProseInventory) (paragraphId : String) : Text :=
  (filledLeaves (spanLeaves inventory paragraphId)).flatMap (·.text)

/-- The record is about the text at `place`, and about the run that holds its first character. -/
structure RprEdit.Covers (edit : RprEdit) (place : Nat) (holder : ProseLeaf) : Prop where
  paragraph : edit.paragraphId = paragraphId
  start : edit.textStart = place
  stop : edit.textEnd = place + old.length
  part : edit.part = holder.partKey
  style : spanStyle crates texts files.styles holder.rpr attributes override = .ok edit.styleId

variable {crates texts files paragraphId old attributes override}

section

variable (hpackage : files.template = some package)

include hpackage

/-- What the plan of a text that stands once comes down to. -/
theorem planFormatSpan_once (hinventory : enumeratePackage crates package = .ok inventory)
    (hold : old ≠ []) (honce : occurrences old (spanText inventory paragraphId) = [place]) :
    planFormatSpan crates texts files paragraphId old attributes override =
      (let start := (utf8 ((spanText inventory paragraphId).take place)).length
      match coveredLeaves start (start + old.length) 0 (spanLeaves inventory paragraphId) with
      | [] =>
        refuse ("text-not-found: " ++ paragraphId ++ ": " ++ texts.debugText old ++
          " is not editable text")
      | first :: _ => do
        let styleId ← spanStyle crates texts files.styles first.rpr attributes override
        pure ⟨first.partKey, paragraphId, start, start + old.length, attributes, styleId⟩) := by
  have hmem : ∀ other, old <+: (spanText inventory paragraphId).drop other ↔ other = place := by
    intro other
    rw [← mem_occurrences hold, honce, mem_singleton]
  have hcount : matchCount old 0 (spanText inventory paragraphId) = 1 :=
    matchCount_eq_one hold ((hmem place).mpr rfl) fun other => (hmem other).mp
  have hfind := byteFind_of_once hold honce
  have hleaves : spanLeaves inventory paragraphId ≠ [] := by
    intro hnil
    have htext : spanText inventory paragraphId = [] := by rw [spanText, hnil]; rfl
    rw [htext] at honce
    cases honce
  rw [spanText] at hcount hfind
  simp only [planFormatSpan, hpackage, pure_bind]
  rw [bind_ok hinventory, if_neg hleaves, hcount, hfind, if_neg (by simp [hold]),
    if_neg (by decide), Option.getD_some]
  rfl

/-- Whatever is recorded starts at the offset the bytes before the text have. -/
theorem textStart_of_planFormatSpan {edit : RprEdit}
    (hinventory : enumeratePackage crates package = .ok inventory) (hold : old ≠ [])
    (honce : occurrences old (spanText inventory paragraphId) = [place])
    (h : planFormatSpan crates texts files paragraphId old attributes override = .ok edit) :
    edit.textStart = (utf8 ((spanText inventory paragraphId).take place)).length := by
  rw [planFormatSpan_once hpackage hinventory hold honce] at h
  dsimp only at h
  split at h
  · exact absurd h refuse_ne_ok
  · obtain ⟨styleId, -, h⟩ := bind_eq_ok h
    obtain rfl := Except.ok.inj h
    rfl

/-- With one byte a character the record is about the run that holds the first character. -/
theorem planFormatSpan_of_start {left right : List ProseLeaf} {holder : ProseLeaf}
    (hinventory : enumeratePackage crates package = .ok inventory) (hold : old ≠ [])
    (honce : occurrences old (spanText inventory paragraphId) = [place])
    (hleaves : filledLeaves (spanLeaves inventory paragraphId) = left ++ holder :: right)
    (hleft : (left.flatMap (·.text)).length ≤ place)
    (hholder : place < (left.flatMap (·.text)).length + holder.text.length)
    (hstart : (utf8 ((spanText inventory paragraphId).take place)).length = place) :
    planFormatSpan crates texts files paragraphId old attributes override =
      (do
        let styleId ← spanStyle crates texts files.styles holder.rpr attributes override
        pure ⟨holder.partKey, paragraphId, place, place + old.length, attributes, styleId⟩) := by
  have hlength := length_pos_of_ne_nil hold
  have hfirst : ∃ rest, coveredLeaves place (place + old.length) 0
      (spanLeaves inventory paragraphId) = holder :: rest :=
    coveredLeaves_left hleaves (by omega) (by omega) (by omega)
  obtain ⟨rest, hcovered⟩ := hfirst
  rw [planFormatSpan_once hpackage hinventory hold honce]
  simp only [hstart, hcovered]

end

/-- What is recorded is about the text that stands once exactly when the characters before it have
one byte each; and where the run that holds its first character has a style, the text is recorded
exactly then. -/
theorem planFormatSpan_iff {package : Bytes} {inventory : ProseInventory} {place : Nat}
    {left right : List ProseLeaf} {holder : ProseLeaf} (hpackage : files.template = some package)
    (hinventory : enumeratePackage crates package = .ok inventory) (hold : old ≠ [])
    (honce : occurrences old (spanText inventory paragraphId) = [place])
    (hleaves : filledLeaves (spanLeaves inventory paragraphId) = left ++ holder :: right)
    (hleft : (left.flatMap (·.text)).length ≤ place)
    (hholder : place < (left.flatMap (·.text)).length + holder.text.length) :
    (∀ edit, planFormatSpan crates texts files paragraphId old attributes override = .ok edit →
      (edit.Covers crates texts files paragraphId old attributes override place holder ↔
        ∀ c ∈ (spanText inventory paragraphId).take place, c.utf8Size = 1)) ∧
    (∀ styleId, spanStyle crates texts files.styles holder.rpr attributes override = .ok styleId →
      ((∃ edit, planFormatSpan crates texts files paragraphId old attributes override = .ok edit ∧
          edit.Covers crates texts files paragraphId old attributes override place holder) ↔
        ∀ c ∈ (spanText inventory paragraphId).take place, c.utf8Size = 1)) := by
  have hlong : place ≤ (spanText inventory paragraphId).length := by
    rw [spanText, hleaves, List.flatMap_append, List.flatMap_cons, List.length_append,
      List.length_append]
    omega
  have hlength : ((spanText inventory paragraphId).take place).length = place := by
    rw [List.length_take, Nat.min_eq_left hlong]
  have hsize : (utf8 ((spanText inventory paragraphId).take place)).length = place ↔
      ∀ c ∈ (spanText inventory paragraphId).take place, c.utf8Size = 1 := by
    rw [← length_utf8_eq_iff, hlength]
  have hcovers : ∀ edit,
      planFormatSpan crates texts files paragraphId old attributes override = .ok edit →
      (edit.Covers crates texts files paragraphId old attributes override place holder ↔
        ∀ c ∈ (spanText inventory paragraphId).take place, c.utf8Size = 1) := by
    intro edit hedit
    rw [← hsize]
    constructor
    · intro h
      rw [← textStart_of_planFormatSpan hpackage hinventory hold honce hedit, h.start]
    · intro hstart
      rw [planFormatSpan_of_start hpackage hinventory hold honce hleaves hleft hholder hstart]
        at hedit
      obtain ⟨styleId, hstyle, hedit⟩ := bind_eq_ok hedit
      obtain rfl := Except.ok.inj hedit
      exact ⟨rfl, rfl, rfl, rfl, hstyle⟩
  refine ⟨hcovers, fun styleId hstyle => ⟨?_, fun hascii => ?_⟩⟩
  · rintro ⟨edit, hedit, h⟩
    exact (hcovers edit hedit).mp h
  · refine ⟨⟨holder.partKey, paragraphId, place, place + old.length, attributes, styleId⟩, ?_,
      ⟨rfl, rfl, rfl, rfl, hstyle⟩⟩
    rw [planFormatSpan_of_start hpackage hinventory hold honce hleaves hleft hholder
      (hsize.mpr hascii), hstyle]
    rfl

end Recorded

/-- `Debug` and `Display` of what the examples quote. -/
def shortTexts : PlanTexts where
  debugText text := "\"" ++ String.ofList text ++ "\""
  valueText _ := ""
  attributesText _ := "\x7b\x7d"

/-- A workdir with one style. -/
def oneStyle (package : Bytes) : PlanFiles where
  template := some package
  styles := .json (some [("s_1", some "<w:rPr/>".toList)])

theorem twoRuns_planned : ∃ inventory,
    enumeratePackage twoRunsCrates twoRunsPackage = .ok inventory ∧
    (∀ edit, planFormatSpan twoRunsCrates shortTexts (oneStyle twoRunsPackage) "P0" "bc".toList []
        (some "s_1") = .ok edit →
      (edit.Covers twoRunsCrates shortTexts (oneStyle twoRunsPackage) "P0" "bc".toList []
          (some "s_1") 1 (plainLeaf 0 "ab" 35) ↔
        ∀ c ∈ (spanText inventory "P0").take 1, c.utf8Size = 1)) ∧
    (∀ styleId, spanStyle twoRunsCrates shortTexts (oneStyle twoRunsPackage).styles
        (plainLeaf 0 "ab" 35).rpr [] (some "s_1") = .ok styleId →
      ((∃ edit, planFormatSpan twoRunsCrates shortTexts (oneStyle twoRunsPackage) "P0"
            "bc".toList [] (some "s_1") = .ok edit ∧
          edit.Covers twoRunsCrates shortTexts (oneStyle twoRunsPackage) "P0" "bc".toList []
            (some "s_1") 1 (plainLeaf 0 "ab" 35)) ↔
        ∀ c ∈ (spanText inventory "P0").take 1, c.utf8Size = 1)) := by
  have hinventory : (enumeratePackage twoRunsCrates twoRunsPackage).toOption.map
      (fun inventory => (occurrences "bc".toList (spanText inventory "P0"),
        filledLeaves (spanLeaves inventory "P0"))) =
      some ([1], [plainLeaf 0 "ab" 35, plainLeaf 1 "cd" 59]) := by
    rw [twoRunsCrates, twoRunsPackage, twoRuns, bytes_ofList]
    decide +kernel
  obtain ⟨inventory, hinventory, hread⟩ := exists_ok_of_map hinventory
  obtain ⟨honce, hleaves⟩ := Prod.mk.inj hread
  have hfirst : filledLeaves (spanLeaves inventory "P0") =
      [] ++ plainLeaf 0 "ab" 35 :: [plainLeaf 1 "cd" 59] := hleaves
  exact ⟨inventory, hinventory, planFormatSpan_iff rfl hinventory (by decide) honce hfirst
    (by decide) (by decide)⟩

/-- A character of two bytes before the text. -/
def accented : Bytes :=
  bytes "<w:document><w:body><w:p><w:r><w:t>éab</w:t></w:r></w:p></w:body></w:document>"

def accentedCrates : Crates := storedCrates 0x01b8281e accented

def accentedPackage : Bytes := storedDocument 0x01b8281e accented

/-- The record is about the character behind the text. -/
theorem accented_planned : ∃ inventory,
    enumeratePackage accentedCrates accentedPackage = .ok inventory ∧
    spanText inventory "P0" = "éab".toList ∧
    occurrences "a".toList (spanText inventory "P0") = [1] ∧
    planFormatSpan accentedCrates shortTexts (oneStyle accentedPackage) "P0" "a".toList []
      (some "s_1") = .ok ⟨"document", "P0", 2, 3, [], "s_1"⟩ ∧
    ∀ holder, ¬ RprEdit.Covers accentedCrates shortTexts (oneStyle accentedPackage) "P0"
      "a".toList [] (some "s_1") ⟨"document", "P0", 2, 3, [], "s_1"⟩ 1 holder := by
  have hinventory : (enumeratePackage accentedCrates accentedPackage).toOption.map
      (fun inventory => (spanText inventory "P0",
        occurrences "a".toList (spanText inventory "P0"))) = some ("éab".toList, [1]) := by
    rw [accentedCrates, accentedPackage, accented, bytes_ofList]
    decide +kernel
  have hplan : planFormatSpan accentedCrates shortTexts (oneStyle accentedPackage) "P0"
      "a".toList [] (some "s_1") = .ok ⟨"document", "P0", 2, 3, [], "s_1"⟩ := by
    rw [accentedCrates, accentedPackage, accented, bytes_ofList]
    decide +kernel
  obtain ⟨inventory, hinventory, hread⟩ := exists_ok_of_map hinventory
  obtain ⟨htext, honce⟩ := Prod.mk.inj hread
  refine ⟨inventory, hinventory, htext, honce, hplan, fun holder h => ?_⟩
  exact absurd h.start (by decide)

end Docx2Typed
