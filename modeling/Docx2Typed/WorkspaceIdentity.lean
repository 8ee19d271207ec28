import Docx2Typed.Search.References

/-!
# Adoption tokens

A refusal that asks which family a file belongs to hands out the evidence it asks about: the hash
of the file, the volume and the number of the file object, and the path, as JSON in base64 with
padding.  `workspace_adopt` gets the token back and decodes it.

The decoder keeps the bits of all groups in one word and never clears it.  Fewer than eight bits
of the word are still to be used between two groups (`base64urlDecodeFrom_eq`), so that no shift
is by the width of the word or more.
-/

namespace Docx2Typed

open Library List

/-! ## Base64 -/

/-- `base64url_encode`. -/
def base64urlEncode (bytes : Bytes) : Text :=
  base64Urlsafe bytes ++ List.replicate ((3 - bytes.length % 3) % 3) '='

/-- The loop of `base64url_decode`, from the word and the number of its bits still to be used.  A
shift of a word of 32 bits by 32 or more panics. -/
def base64urlDecodeFrom (packed bits : Nat) : Bytes → Outcome (Option Bytes)
  | [] => .ok (some [])
  | b :: rest =>
    if b = byte '=' then base64urlDecodeFrom packed bits rest
    else
      match base64Lookup b with
      | none => .ok none
      | some value =>
        let packed := packed * 64 % 2 ^ 32 + value
        if 8 ≤ bits + 6 then
          if bits + 6 - 8 < 32 then do
            let out ← base64urlDecodeFrom packed (bits + 6 - 8) rest
            .ok (out.map (UInt8.ofNat (packed / 2 ^ (bits + 6 - 8)) :: ·))
          else .error .panic
        else base64urlDecodeFrom packed (bits + 6) rest

/-- `base64url_decode`. -/
def base64urlDecode (text : Text) : Outcome (Option Bytes) := base64urlDecodeFrom 0 0 (utf8 text)

/-- The bytes of a text that are not padding. -/
def unpadded (content : Bytes) : Bytes := content.filter (· ≠ byte '=')

theorem unpadded_cons_pad {b : UInt8} {rest : Bytes} (h : b = byte '=') :
    unpadded (b :: rest) = unpadded rest :=
  filter_cons_of_neg (by simpa using h)

theorem unpadded_cons {b : UInt8} {rest : Bytes} (h : b ≠ byte '=') :
    unpadded (b :: rest) = b :: unpadded rest :=
  filter_cons_of_pos (by simpa using h)

/-- With fewer than eight bits to be used the loop reads the groups and never panics. -/
theorem base64urlDecodeFrom_eq (content : Bytes) : ∀ {packed bits : Nat}, bits < 8 →
    base64urlDecodeFrom packed bits content =
      .ok (((unpadded content).mapM base64Lookup).map (octetsFrom packed bits)) := by
  induction content with
  | nil => exact fun _ => rfl
  | cons b rest ih =>
    intro packed bits hbits
    rw [base64urlDecodeFrom]
    by_cases hpad : b = byte '='
    · rw [if_pos hpad, ih hbits, unpadded_cons_pad hpad]
    · rw [if_neg hpad, unpadded_cons hpad, mapM_cons]
      cases hvalue : base64Lookup b with
      | none => rfl
      | some value =>
        -- after a byte was given two bits fewer are left than before
        by_cases hgive : 8 ≤ bits + 6
        · simp only [if_pos hgive]
          rw [if_pos (by omega), ih (by omega)]
          cases hrest : (unpadded rest).mapM base64Lookup with
          | none => rfl
          | some values =>
            exact congrArg (fun out : Bytes => (.ok (some out) : Outcome (Option Bytes)))
              (octetsFrom_give hgive).symm
        · simp only [if_neg hgive]
          rw [ih (by omega)]
          cases hrest : (unpadded rest).mapM base64Lookup with
          | none => rfl
          | some values =>
            exact congrArg (fun out : Bytes => (.ok (some out) : Outcome (Option Bytes)))
              (octetsFrom_keep (Nat.lt_of_not_le hgive)).symm

/-- The decoder gives the bytes of the groups, for whatever text. -/
theorem base64urlDecode_eq (text : Text) : base64urlDecode text =
    .ok (((unpadded (utf8 text)).mapM base64Lookup).map octets) :=
  base64urlDecodeFrom_eq (utf8 text) (by decide)

/-- No letter of the alphabet is the padding. -/
theorem base64Lookup_pad : base64Lookup (byte '=') = none := by
  unfold base64Lookup base64Alphabet
  rw [String.toList_ofList]
  decide +kernel

theorem base64Lookup_eq_none {b : UInt8} :
    base64Lookup b = none ↔ b ∉ base64Alphabet.map byte := by
  simp only [base64Lookup, findIdx?_eq_none_iff, mem_map, not_exists, not_and,
    beq_eq_false_iff_ne, ne_eq]

/-- What the decoder reads of a text is what is not padding. -/
theorem unpadded_of_mapM : ∀ {content : Bytes} {values : List Nat},
    content.mapM base64Lookup = some values → unpadded content = content
  | [], _, _ => rfl
  | b :: rest, values, h => by
    rw [mapM_cons] at h
    obtain ⟨value, hvalue, h⟩ := Option.bind_eq_some_iff.mp h
    obtain ⟨values', hvalues, -⟩ := Option.bind_eq_some_iff.mp h
    have hpad : b ≠ byte '=' := by
      rintro rfl
      rw [base64Lookup_pad] at hvalue
      cases hvalue
    rw [unpadded_cons hpad, unpadded_of_mapM hvalues]

theorem mapM_base64Urlsafe (bytes : Bytes) :
    (utf8 (base64Urlsafe bytes)).mapM base64Lookup = some (sextets bytes) :=
  mapM_base64Lookup fun _ => lt_of_mem_sextets

/-- Whatever number of signs of padding stands behind the letters, the bytes come back. -/
theorem base64urlDecode_padded (bytes : Bytes) (count : Nat) :
    base64urlDecode (base64Urlsafe bytes ++ List.replicate count '=') = .ok (some bytes) := by
  have hpad : ∀ n, unpadded (utf8 (List.replicate n '=')) = [] := by
    intro n
    induction n with
    | zero => rfl
    | succ n ih =>
      rw [replicate_succ, utf8, Library.Utf8.encode_cons]
      exact ih
  have hletters := mapM_base64Urlsafe bytes
  rw [base64urlDecode_eq, utf8, Library.Utf8.encode_append, unpadded, filter_append]
  rw [show List.filter (· ≠ byte '=') (Library.Utf8.encode (base64Urlsafe bytes)) =
    utf8 (base64Urlsafe bytes) from unpadded_of_mapM hletters]
  rw [show List.filter (· ≠ byte '=') (Library.Utf8.encode (List.replicate count '=')) = [] from
    hpad count, append_nil, hletters, Option.map_some, octets_sextets]

/-- The letters are what is left without the padding. -/
theorem filter_base64urlEncode (bytes : Bytes) :
    (base64urlEncode bytes).filter (· ≠ '=') = base64Urlsafe bytes := by
  have hletters : ∀ letter ∈ base64Urlsafe bytes, letter ≠ '=' := by
    intro letter hmem
    obtain ⟨value, hvalue, rfl⟩ := mem_map.mp hmem
    intro heq
    have hlookup := (base64Lookup_letter value (lt_of_mem_sextets hvalue)).2
    rw [heq, base64Lookup_pad] at hlookup
    cases hlookup
  rw [base64urlEncode, filter_append,
    filter_eq_self.mpr fun letter hmem => by simpa using hletters letter hmem,
    filter_eq_nil_iff.mpr fun letter hmem => by simp [eq_of_mem_replicate hmem],
    append_nil]

/-- A text with a byte outside the alphabet that is not padding either is no base64. -/
theorem base64urlDecode_outside {text : Text} {b : UInt8} (hmem : b ∈ utf8 text)
    (hletter : b ∉ base64Alphabet.map byte) (hpad : b ≠ byte '=') :
    base64urlDecode text = .ok none := by
  have hnone : ∀ {content : Bytes}, b ∈ content → content.mapM base64Lookup = none := by
    intro content hcontent
    induction content with
    | nil => exact absurd hcontent not_mem_nil
    | cons c rest ih =>
      rw [mapM_cons]
      rcases mem_cons.mp hcontent with rfl | hrest
      · rw [base64Lookup_eq_none.mpr hletter]
        rfl
      · rw [ih hrest]
        cases base64Lookup c <;> rfl
  have hkept : b ∈ unpadded (utf8 text) := mem_filter.mpr ⟨hmem, by simpa using hpad⟩
  rw [base64urlDecode_eq, hnone hkept]
  rfl

/-! ## Tokens -/

/-- A field of what `serde_json` writes of a token, or reads. -/
inductive TokenField where
  | null
  | string (value : Text)
  | other
  deriving DecidableEq

/-- What the tokens take from `serde_json`. -/
structure TokenJson where
  /-- `to_string` of a record, given as its fields in order. -/
  recordText : List (String × TokenField) → Text
  /-- `from_str::<Value>`, an error as `none`, and a value that is no object as `some none`. -/
  fromStr : Text → Option (Option (List (String × TokenField)))

/-- What is written of a record reads back as an object with its fields. -/
def TokenJson.ReadsBack (json : TokenJson) (fields : List (String × TokenField)) : Prop :=
  ∃ read, json.fromStr (json.recordText fields) = some (some read) ∧
    ∀ name, read.lookup name = fields.lookup name

/-- `AdoptionToken`. -/
structure AdoptionToken where
  sha256 : Text
  volume : Option Text
  fileId : Option Text
  path : Option Text
  deriving DecidableEq

/-- What `adoption_token` meets on the disk. -/
structure TokenFile where
  /-- What reading the file gives. -/
  content : Option Bytes
  /-- `st_dev` and `st_ino`. -/
  metadata : Option (Nat × Nat)
  /-- `to_string_lossy` of the path. -/
  path : Text

/-- A number as `{:#x}` writes it. -/
def hexFigure (n : Nat) : Text := "0x".toList ++ Nat.toDigits 16 n

/-- `file_identity`. -/
def fileIdentity (file : TokenFile) : Text × Text :=
  match file.metadata with
  | some (dev, ino) => (hexFigure dev, hexFigure ino)
  | none => ([], [])

/-- An `Option<String>` of a record. -/
def optionalField : Option Text → TokenField
  | some value => .string value
  | none => .null

/-- The record of a token. -/
def AdoptionToken.fields (token : AdoptionToken) : List (String × TokenField) :=
  [("sha256", .string token.sha256), ("volume", optionalField token.volume),
    ("file_id", optionalField token.fileId), ("path", optionalField token.path)]

section Tokens

variable (crates : Crates) (json : TokenJson)

/-- The evidence about a file with a content. -/
def recordedToken (file : TokenFile) (content : Bytes) : AdoptionToken where
  sha256 := (crates.sha256Hex content).toList
  volume := some (fileIdentity file).1
  fileId := some (fileIdentity file).2
  path := some file.path

/-- `adoption_token`. -/
def adoptionToken (file : TokenFile) : Outcome Text :=
  match file.content with
  | none => .error (.refused .io)
  | some content =>
    .ok (base64urlEncode (utf8 (json.recordText (recordedToken crates file content).fields)))

/-- The refusal of `decode_adoption_token`. -/
def tokenInvalid {α : Type} : Outcome α :=
  refuse "adoption-token-invalid: the adoption token is not readable"

/-- The value of an `Option`, or the refusal. -/
def orTokenInvalid {α : Type} : Option α → Outcome α
  | some a => pure a
  | none => tokenInvalid

/-- An `Option<String>` with `#[serde(default)]`. -/
def readOptional : Option TokenField → Option (Option Text)
  | none => some none
  | some .null => some none
  | some (.string value) => some (some value)
  | some .other => none

/-- `from_value::<AdoptionToken>` of an object. -/
def AdoptionToken.fromFields (fields : List (String × TokenField)) : Option AdoptionToken := do
  let sha256 ← match fields.lookup "sha256" with
    | some (.string value) => some value
    | _ => none
  let volume ← readOptional (fields.lookup "volume")
  let fileId ← readOptional (fields.lookup "file_id")
  let path ← readOptional (fields.lookup "path")
  pure ⟨sha256, volume, fileId, path⟩

/-- `decode_adoption_token`. -/
def decodeAdoptionToken (token : Text) : Outcome AdoptionToken := do
  let raw ← orTokenInvalid (← base64urlDecode token)
  let text ← orTokenInvalid (fromUtf8 raw)
  let value ← orTokenInvalid (json.fromStr text)
  let fields ← orTokenInvalid value
  let token ← orTokenInvalid (AdoptionToken.fromFields fields)
  if token.sha256 = [] then tokenInvalid else pure token

theorem readOptional_optionalField (value : Option Text) :
    readOptional (some (optionalField value)) = some value := by
  cases value <;> rfl

/-- A token reads back from any object with its fields. -/
theorem AdoptionToken.fromFields_of_lookup {token : AdoptionToken}
    {read : List (String × TokenField)} (h : ∀ name, read.lookup name = token.fields.lookup name) :
    AdoptionToken.fromFields read = some token := by
  have hsha : token.fields.lookup "sha256" = some (.string token.sha256) := rfl
  have hvolume : token.fields.lookup "volume" = some (optionalField token.volume) := rfl
  have hfile : token.fields.lookup "file_id" = some (optionalField token.fileId) := rfl
  have hpath : token.fields.lookup "path" = some (optionalField token.path) := rfl
  simp only [fromFields, h, hsha, hvolume, hfile, hpath, readOptional_optionalField]
  rfl

variable {crates json} in
/-- What a file's token decodes to. -/
theorem decodeAdoptionToken_of_adoptionToken {file : TokenFile} {content : Bytes} {text : Text}
    (hcontent : file.content = some content)
    (hjson : json.ReadsBack (recordedToken crates file content).fields)
    (hhash : crates.sha256Hex content ≠ "") (h : adoptionToken crates json file = .ok text) :
    decodeAdoptionToken json text = .ok (recordedToken crates file content) := by
  obtain ⟨read, hread, hlookup⟩ := hjson
  have htext : base64urlDecode text =
      .ok (some (utf8 (json.recordText (recordedToken crates file content).fields))) := by
    simp only [adoptionToken, hcontent] at h
    cases h
    exact base64urlDecode_padded _ _
  have hutf8 : fromUtf8 (utf8 (json.recordText (recordedToken crates file content).fields)) =
      some (json.recordText (recordedToken crates file content).fields) :=
    Library.Utf8.decode_eq_some_iff.mpr rfl
  have hsha : (recordedToken crates file content).sha256 ≠ [] := by
    simpa [recordedToken] using hhash
  rw [decodeAdoptionToken, bind_ok htext]
  simp only [orTokenInvalid, pure_bind, hutf8, hread, AdoptionToken.fromFields_of_lookup hlookup,
    if_neg hsha]
  rfl

/-- What is encoded decodes, with its padding and without; a text with a byte that is neither a
letter nor padding is refused; no text makes the decoder panic; and the token of a file decodes to
its hash, its volume, its number and its path. -/
theorem base64url_round_trip (file : TokenFile)
    (hjson : ∀ content, file.content = some content →
      json.ReadsBack (recordedToken crates file content).fields)
    (hhash : ∀ content, file.content = some content → crates.sha256Hex content ≠ "") :
    (∀ bytes : Bytes, base64urlDecode (base64urlEncode bytes) = .ok (some bytes) ∧
      base64urlDecode ((base64urlEncode bytes).filter (· ≠ '=')) = .ok (some bytes)) ∧
    (∀ text : Text, adoptionToken crates json file = .ok text →
      ∃ content, file.content = some content ∧
        decodeAdoptionToken json text = .ok
          { sha256 := (crates.sha256Hex content).toList
            volume := some (fileIdentity file).1
            fileId := some (fileIdentity file).2
            path := some file.path }) ∧
    (∀ (text : Text) (b : UInt8), b ∈ utf8 text → b ∉ base64Alphabet.map byte → b ≠ byte '=' →
      base64urlDecode text = .ok none) ∧
    (∀ text : Text, base64urlDecode text ≠ .error .panic) := by
  refine ⟨fun bytes => ⟨base64urlDecode_padded _ _, ?_⟩, ?_, ?_, ?_⟩
  · rw [filter_base64urlEncode]
    simpa using base64urlDecode_padded bytes 0
  · intro text h
    cases hcontent : file.content with
    | none =>
      rw [adoptionToken, hcontent] at h
      cases h
    | some content =>
      exact ⟨content, rfl, decodeAdoptionToken_of_adoptionToken hcontent (hjson content hcontent)
        (hhash content hcontent) h⟩
  · exact fun text b => base64urlDecode_outside
  · intro text h
    rw [base64urlDecode_eq] at h
    cases h

end Tokens

/-- The token of an empty file on the first device. -/
def emptyFile : TokenFile := ⟨some [], some (1, 16), "a.docx".toList⟩

/-- `serde_json` on the token of `emptyFile`. -/
def emptyFileJson : TokenJson where
  recordText _ :=
    ("\x7b\"sha256\":\"e3b0c44298fc1c149afbf4c8996fb92427ae41e4649b934ca495991b7852b855\"," ++
      "\"volume\":\"0x1\",\"file_id\":\"0x10\",\"path\":\"a.docx\"\x7d").toList
  fromStr _ := some (some (recordedToken twoRunsCrates emptyFile []).fields)

theorem emptyFile_round_trip :
    (∀ bytes : Bytes, base64urlDecode (base64urlEncode bytes) = .ok (some bytes) ∧
      base64urlDecode ((base64urlEncode bytes).filter (· ≠ '=')) = .ok (some bytes)) ∧
    (∀ text : Text, adoptionToken twoRunsCrates emptyFileJson emptyFile = .ok text →
      ∃ content, emptyFile.content = some content ∧
        decodeAdoptionToken emptyFileJson text = .ok
          { sha256 := (twoRunsCrates.sha256Hex content).toList
            volume := some (fileIdentity emptyFile).1
            fileId := some (fileIdentity emptyFile).2
            path := some emptyFile.path }) ∧
    (∀ (text : Text) (b : UInt8), b ∈ utf8 text → b ∉ base64Alphabet.map byte → b ≠ byte '=' →
      base64urlDecode text = .ok none) ∧
    (∀ text : Text, base64urlDecode text ≠ .error .panic) := by
  refine base64url_round_trip twoRunsCrates emptyFileJson emptyFile ?_ ?_
  · intro content hcontent
    obtain rfl : [] = content := Option.some.inj hcontent
    exact ⟨_, rfl, fun _ => rfl⟩
  · intro content hcontent
    obtain rfl : [] = content := Option.some.inj hcontent
    decide +kernel

end Docx2Typed
