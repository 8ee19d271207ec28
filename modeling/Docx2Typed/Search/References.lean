import Docx2Typed.Draft.ReadersAgree
import Docx2Typed.Library.Sextets
import Docx2Typed.Search.Addresses

/-!
# Match references

`document_search` reports every occurrence with a reference: the revision of the draft, the
paragraph, the offsets and a digest of the text there, written as JSON and in base64.
`resolve_match_ref` decodes a reference and looks at the draft as it is now.

What it looks at is `shownText`, the text of the first block that carries the id of the paragraph
(`resolveMatchRef_eq`); of the payload it uses the paragraph, the offsets and the digest.
-/

namespace Docx2Typed

open Library List

/-! ## JSON -/

/-- What `serde_json` reads, as far as a reference is made of it. -/
inductive JsonValue where
  | string (value : Text)
  /-- A number for which `as_u64` is `Some`. -/
  | unsigned (value : Nat)
  | object (fields : List (String × JsonValue))
  | other

/-- `value.get(name)`. -/
def JsonValue.get (name : String) : JsonValue → Option JsonValue
  | .object fields => fields.lookup name
  | _ => none

def JsonValue.asStr : JsonValue → Option Text
  | .string value => some value
  | _ => none

def JsonValue.asU64 : JsonValue → Option Nat
  | .unsigned value => some value
  | _ => none

/-- What the references take from `serde_json` and from `std::fmt`. -/
structure JsonCrate where
  /-- `Value::String(..).to_string()`. -/
  stringText : Text → Text
  /-- `from_str`. -/
  fromStr : Text → Option JsonValue
  /-- `json!({..}).to_string()`. -/
  objectText : List (String × JsonValue) → String
  /-- A string as `{:?}` writes it. -/
  debugText : Text → String

/-! ## Base64 -/

def base64Alphabet : Text :=
  "ABCDEFGHIJKLMNOPQRSTUVWXYZabcdefghijklmnopqrstuvwxyz0123456789-_".toList

/-- `base64_urlsafe`. -/
def base64Urlsafe (raw : Bytes) : Text :=
  (sextets raw).map fun value => base64Alphabet.getD value 'A'

/-- The table `base64_urlsafe_decode` looks a byte up in. -/
def base64Lookup (b : UInt8) : Option Nat := base64Alphabet.findIdx? fun letter => byte letter == b

/-- `base64_urlsafe_decode`. -/
def base64UrlsafeDecode (text : Text) : Option Bytes :=
  ((utf8 text).mapM base64Lookup).map octets

theorem base64Lookup_letter : ∀ value < 64,
    String.utf8EncodeChar (base64Alphabet.getD value 'A') =
      [byte (base64Alphabet.getD value 'A')] ∧
    base64Lookup (byte (base64Alphabet.getD value 'A')) = some value := by
  unfold base64Lookup base64Alphabet
  rw [String.toList_ofList]
  decide +kernel

theorem mapM_base64Lookup : ∀ {values : List Nat}, (∀ value ∈ values, value < 64) →
    (utf8 (values.map fun value => base64Alphabet.getD value 'A')).mapM base64Lookup = some values
  | [], _ => rfl
  | value :: values, h => by
    obtain ⟨hvalue, hvalues⟩ := forall_mem_cons.mp h
    obtain ⟨hbyte, hlookup⟩ := base64Lookup_letter value hvalue
    rw [map_cons, utf8, Library.Utf8.encode_cons, hbyte, singleton_append,
      mapM_cons, hlookup]
    rw [show (Library.Utf8.encode (values.map fun value => base64Alphabet.getD value 'A')) =
      utf8 (values.map fun value => base64Alphabet.getD value 'A') from rfl,
      mapM_base64Lookup hvalues]
    rfl

/-- What is written in base64 reads back. -/
theorem base64UrlsafeDecode_urlsafe (raw : Bytes) :
    base64UrlsafeDecode (base64Urlsafe raw) = some raw := by
  rw [base64UrlsafeDecode, base64Urlsafe,
    mapM_base64Lookup fun _ => lt_of_mem_sextets, Option.map_some,
    octets_sextets]

/-! ## References -/

/-- `MatchRefPayload`. -/
structure MatchRefPayload where
  revision : Text
  paragraphId : Text
  start : Nat
  stop : Nat
  sha256 : Text
  deriving DecidableEq

/-- `ResolvedMatchRef`. -/
structure ResolvedMatchRef where
  paragraphId : Text
  text : Text
  start : Nat
  deriving DecidableEq

section References

variable (crates : Crates) (json : JsonCrate)

/-- `match_ref_digest`: the first eight bytes of the hash, in hexadecimal digits. -/
def matchRefDigest (text : Text) : Text := (crates.sha256Hex (utf8 text)).toList.take 16

/-- The payload of a reference. -/
def MatchRef.payload (ref : MatchRef) : MatchRefPayload :=
  ⟨ref.revision.toList, ref.paragraphId, ref.start, ref.stop, matchRefDigest crates ref.text⟩

/-- The JSON of a payload. -/
def payloadText (payload : MatchRefPayload) : Text :=
  "\x7b\"revision\":".toList ++ json.stringText payload.revision ++
    ",\"paragraph_id\":".toList ++ json.stringText payload.paragraphId ++
    ",\"start\":".toList ++ payload.start.repr.toList ++
    ",\"end\":".toList ++ payload.stop.repr.toList ++
    ",\"sha256\":".toList ++ json.stringText payload.sha256 ++ ['\x7d']

/-- `encode_match_ref`. -/
def encodeMatchRef (ref : MatchRef) : Text :=
  "ref_".toList ++ base64Urlsafe (utf8 (payloadText json (ref.payload crates)))

/-- The refusals of `decode_match_ref`. -/
def invalidRef {α : Type} (detail : String) : Outcome α := refuse ("match-ref-invalid: " ++ detail)

/-- The value of an `Option`, or the refusal `decode_match_ref` has for `None`. -/
def orInvalid {α : Type} (detail : String) : Option α → Outcome α
  | some a => pure a
  | none => invalidRef detail

/-- `field(name)?.as_str()`. -/
def stringField (value : JsonValue) (name : String) : Outcome Text := do
  let field ← orInvalid ("span reference is missing " ++ json.debugText name.toList)
    (value.get name)
  orInvalid (name ++ " is not a string") field.asStr

/-- `field(name)?.as_u64()`. -/
def integerField (value : JsonValue) (name : String) : Outcome Nat := do
  let field ← orInvalid ("span reference is missing " ++ json.debugText name.toList)
    (value.get name)
  orInvalid (name ++ " is not an integer") field.asU64

/-- `decode_match_ref`. -/
def decodeMatchRef (reference : Text) : Outcome MatchRefPayload := do
  let corrupt := "span reference is corrupt: " ++ json.debugText reference
  let body ← orInvalid ("not a span reference: " ++ json.debugText reference)
    (stripPrefix "ref_".toList reference)
  let raw ← orInvalid corrupt (base64UrlsafeDecode body)
  let text ← orInvalid corrupt (fromUtf8 raw)
  let value ← orInvalid corrupt (json.fromStr text)
  let revision ← stringField json value "revision"
  let paragraphId ← stringField json value "paragraph_id"
  let start ← integerField json value "start"
  let stop ← integerField json value "end"
  let sha256 ← stringField json value "sha256"
  pure ⟨revision, paragraphId, start, stop, sha256⟩

/-- The JSON of a payload has the fields it was written with. -/
structure JsonCrate.ReadsBack (json : JsonCrate) (payload : MatchRefPayload) : Prop where
  reads : ∃ value, json.fromStr (payloadText json payload) = some value ∧
    value.get "revision" = some (.string payload.revision) ∧
    value.get "paragraph_id" = some (.string payload.paragraphId) ∧
    value.get "start" = some (.unsigned payload.start) ∧
    value.get "end" = some (.unsigned payload.stop) ∧
    value.get "sha256" = some (.string payload.sha256)

variable {crates json} in
/-- A reference decodes to what it was made of. -/
theorem decodeMatchRef_encode {ref : MatchRef} (h : json.ReadsBack (ref.payload crates)) :
    decodeMatchRef json (encodeMatchRef crates json ref) = .ok (ref.payload crates) := by
  obtain ⟨value, hvalue, hrevision, hid, hstart, hstop, hsha⟩ := h.reads
  have hprefix : stripPrefix "ref_".toList (encodeMatchRef crates json ref) =
      some (base64Urlsafe (utf8 (payloadText json (ref.payload crates)))) :=
    stripPrefix_append _ _
  have hutf8 : fromUtf8 (utf8 (payloadText json (ref.payload crates))) =
      some (payloadText json (ref.payload crates)) :=
    Library.Utf8.decode_eq_some_iff.mpr rfl
  simp only [decodeMatchRef, hprefix, orInvalid, base64UrlsafeDecode_urlsafe, hutf8, hvalue,
    stringField, integerField, hrevision, hid, hstart, hstop, hsha, JsonValue.asStr,
    JsonValue.asU64, pure_bind]
  rfl

/-! ## Resolving -/

variable (isAlphanumeric : Char → Bool)

/-- The refusal `stale`. -/
def staleRef {α : Type} (reason : String) (payload : MatchRefPayload) (currentRevision : String)
    (currentText : Text) (offset : Nat) : Outcome α :=
  refuse ("match-ref-stale: " ++ reason ++ " | " ++ json.objectText
    [("current_revision", .string currentRevision.toList), ("ref_revision", .string payload.revision),
      ("paragraph_id", .string payload.paragraphId), ("offset", .unsigned offset),
      ("current_text", .string currentText), ("expected_sha256", .string payload.sha256)])

/-- The `content` view of a whole draft. -/
def contentView (header : Text) (blocks : List Text) : Text :=
  header ++ "\n\n".toList ++ "\n\n".toList.intercalate blocks ++ ['\n']

/-- `document_read_view(workdir, None, 0, 0, "content")`, its content. -/
def documentReadView (draft : SearchedDraft) : Outcome Text := do
  let _ ← readWorkdir draft.editState
  let text ← readWorkdir draft.projection
  let (header, blocks) ← splitEditBlocks text
  pure (contentView header blocks)

/-- The body of the first block that carries an id. -/
def bodyOf (blocks : List Text) (id : Text) : Option Text :=
  (blocks.find? fun block => (blockIdent block).any fun ident => ident.2 = id).map blockBody

/-- What `resolve_match_ref` makes of the text of the paragraph. -/
def resolveIn (currentRevision : String) (payload : MatchRefPayload) (flat : Text) :
    Outcome ResolvedMatchRef :=
  let place := String.ofList payload.paragraphId
  if payload.stop ≤ payload.start ∨ flat.length < payload.stop then
    staleRef json ("span reference points outside " ++ place) payload currentRevision
      (flat.drop payload.start) payload.start
  else
    let candidate := (flat.take payload.stop).drop payload.start
    if matchRefDigest crates candidate ≠ payload.sha256 then
      staleRef json ("the text at " ++ place ++ "[" ++ payload.start.repr ++ ":" ++
        payload.stop.repr ++ "] changed since the reference was issued") payload currentRevision
        candidate payload.start
    else pure ⟨payload.paragraphId, candidate, payload.start⟩

/-- `resolve_match_ref`. -/
def resolveMatchRef (draft : SearchedDraft) (reference : Text) : Outcome ResolvedMatchRef := do
  let payload ← decodeMatchRef json reference
  let current ← readWorkdir draft.editState
  let content ← documentReadView draft
  let (_, blocks) ← splitEditBlocks content
  match bodyOf blocks payload.paragraphId with
  | none =>
    staleRef json (String.ofList payload.paragraphId ++
      " is no longer in the draft; re-run document_search") payload current.editBodySha256 [] 0
  | some body => do
    let (flat, _) ← bodyBoundaries isAlphanumeric body
    resolveIn crates json current.editBodySha256 payload flat

/-- The text a draft shows of a paragraph: of the first block that carries the id. -/
def shownText (draft : SearchedDraft) (id : Text) : Outcome (Option Text) := do
  let _ ← readWorkdir draft.editState
  let text ← readWorkdir draft.projection
  let (_, blocks) ← splitEditBlocks text
  match bodyOf blocks id with
  | none => pure none
  | some body => do
    let (flat, _) ← bodyBoundaries isAlphanumeric body
    pure (some flat)

end References

/-! ## The view reads back -/

/-- What stands in front of a blank line, and what stands behind it. -/
theorem pythonPieces_blankLine (before behind : Text) :
    pythonPieces (before ++ "\n\n".toList ++ behind) =
      pythonPieces before ++ pythonPieces behind := by
  rw [append_assoc, show "\n\n".toList ++ behind = '\n' :: '\n' :: behind from rfl,
    pythonPieces_append (by decide), pythonPieces_break (by decide)]

theorem pythonPieces_blocks : ∀ blocks : List Text,
    pythonPieces ("\n\n".toList.intercalate blocks) = blocks.flatMap pythonPieces
  | [] => pythonPieces_nil
  | [block] => by simp [List.intercalate]
  | block :: next :: rest => by
    rw [show "\n\n".toList.intercalate (block :: next :: rest) =
        block ++ "\n\n".toList ++ "\n\n".toList.intercalate (next :: rest) by
          simp [List.intercalate],
      pythonPieces_blankLine, pythonPieces_blocks (next :: rest)]
    rfl

/-- The lines of a block are the lines it was made of. -/
theorem pythonPieces_joinLines : ∀ {lines : List Text}, (∀ line ∈ lines,
      isCounted line = true ∧ ∀ c ∈ line, isPythonBreak c = false) →
    pythonPieces (joinLines lines) = lines
  | [], _ => pythonPieces_nil
  | [line], h => by
    obtain ⟨hcounted, hline⟩ := h line mem_cons_self
    rw [show joinLines [line] = line by simp [joinLines, List.intercalate],
      pythonPieces_line hline]
    simp [countedLines, hcounted]
  | line :: next :: rest, h => by
    obtain ⟨hcounted, hline⟩ := h line mem_cons_self
    rw [joinLines_cons_cons, pythonPieces_append (by decide), pythonPieces_line hline,
      pythonPieces_joinLines fun l hl => h l (mem_cons_of_mem _ hl)]
    simp [countedLines, hcounted]

/-- The blocks made of lines that count hold these lines. -/
theorem flatMap_pythonPieces_blocksFrom {lines : List Text} (h : ∀ line ∈ lines,
      isCounted line = true ∧ ∀ c ∈ line, isPythonBreak c = false) :
    (blocksFrom [] lines).flatMap pythonPieces = lines := by
  have hsplit : (blocksFrom [] lines).flatMap (·.splitOn '\n') = lines := by
    refine flatMap_splitOn_blocksFrom lines [] ?_ fun line hline => (h line hline).1
    intro line hline hnewline
    exact absurd ((h line hline).2 _ hnewline) (by decide)
  have hblock : ∀ block ∈ blocksFrom [] lines, pythonPieces block = block.splitOn '\n' := by
    intro block hblock
    have hpieces : ∀ piece ∈ block.splitOn '\n',
        isCounted piece = true ∧ ∀ c ∈ piece, isPythonBreak c = false := by
      intro piece hpiece
      exact h piece (hsplit ▸ mem_flatMap.mpr ⟨block, hblock, hpiece⟩)
    have hjoin : joinLines (block.splitOn '\n') = block := intercalate_splitOn '\n'
    rw [← pythonPieces_joinLines hpieces, hjoin]
  exact (flatMap_congr hblock).trans hsplit

/-- The view of a draft splits into the header and the blocks it was made of. -/
theorem splitEditBlocks_contentView {text header : Text} {blocks : List Text}
    (h : splitEditBlocks text = .ok (header, blocks)) :
    splitEditBlocks (contentView header blocks) = .ok (header, blocks) := by
  rw [splitEditBlocks_eq] at h
  split at h
  next => exact absurd h refuse_ne_ok
  next first body hpieces =>
    split at h
    next hmarker =>
      obtain ⟨rfl, rfl⟩ := Prod.mk.inj (Except.ok.inj h)
      have hlines : ∀ line ∈ pythonPieces text,
          isCounted line = true ∧ ∀ c ∈ line, isPythonBreak c = false := fun line hline =>
        ⟨isCounted_of_mem_pythonPieces hline,
          fun c hc => ((mem_of_mem_pythonPieces hline).2.2 c hc).2⟩
      rw [hpieces] at hlines
      obtain ⟨⟨hcounted, hheader⟩, hbody⟩ := forall_mem_cons.mp hlines
      have hview : pythonPieces (contentView first (blocksFrom [] body)) = first :: body := by
        rw [contentView, show ['\n'] = '\n' :: ([] : Text) from rfl,
          pythonPieces_append (by decide), pythonPieces_nil, append_nil,
          pythonPieces_blankLine, pythonPieces_line hheader, pythonPieces_blocks,
          flatMap_pythonPieces_blocksFrom hbody]
        simp [countedLines, hcounted]
      rw [splitEditBlocks_eq, hview]
      exact if_pos hmarker
    next => exact absurd h refuse_ne_ok

section Resolving

variable {crates : Crates} {json : JsonCrate} {isAlphanumeric : Char → Bool}

/-- What `resolve_match_ref` makes of what the draft shows of the paragraph. -/
def resolveShown (crates : Crates) (json : JsonCrate) (current : String)
    (payload : MatchRefPayload) : Option Text → Outcome ResolvedMatchRef
  | none =>
    staleRef json (String.ofList payload.paragraphId ++
      " is no longer in the draft; re-run document_search") payload current [] 0
  | some flat => resolveIn crates json current payload flat

/-- A reference is resolved in the text the draft shows of its paragraph. -/
theorem resolveMatchRef_eq {ref : MatchRef} (hreads : json.ReadsBack (ref.payload crates))
    (draft : SearchedDraft) : ∃ current,
      resolveMatchRef crates json isAlphanumeric draft (encodeMatchRef crates json ref) =
        shownText isAlphanumeric draft ref.paragraphId >>=
          resolveShown crates json current (ref.payload crates) := by
  rw [resolveMatchRef, bind_ok (decodeMatchRef_encode hreads), shownText, documentReadView]
  cases hstate : readWorkdir draft.editState with
  | error e => exact ⟨"", rfl⟩
  | ok state =>
    refine ⟨state.editBodySha256, ?_⟩
    cases htext : readWorkdir draft.projection with
    | error e => rfl
    | ok text =>
      cases hsplit : splitEditBlocks text with
      | error e =>
        simp only [bind, Except.bind, hsplit]
      | ok parts =>
        obtain ⟨header, blocks⟩ := parts
        have hview := splitEditBlocks_contentView hsplit
        simp only [bind, Except.bind, pure, Except.pure, hsplit, hview, MatchRef.payload]
        cases hbody : bodyOf blocks ref.paragraphId with
        | none => rfl
        | some body =>
          cases hread : bodyBoundaries isAlphanumeric body with
          | error e => simp only [hread]
          | ok read => simp only [hread, resolveShown]

end Resolving

end Docx2Typed
