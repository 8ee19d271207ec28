import Docx2Typed.Basic
import Docx2Typed.Library.Interrupt

/-!
# Publishing a verified build

`publish_build` puts a staged document and its three sidecars at the path a save names: over an
existing document the sidecars are renamed first and the document last, at a new path the document
is linked first and the sidecars follow.  `sidecar_set_state` says of a document whether the
evidence beside it is about its bytes.

What becomes of every operation on a file is given by `faults`: it takes effect, fails, or the
process stops before it.  The call ends in `.ok`, in a refusal (`.error (some e)`), or stopped
(`.error none`).  SHA-256 and the JSON reader are parameters.
-/

namespace Docx2Typed.Surface

open Library (Fate)

/-! ## Sidecars -/

inductive Suffix where
  | evidence
  | verifyEvidence
  | operationLedger
  deriving DecidableEq, Repr

def Suffix.text : Suffix → String
  | .evidence => ".evidence.json"
  | .verifyEvidence => ".verify.evidence.json"
  | .operationLedger => ".operation-ledger.json"

def sidecars : List Suffix := [.evidence, .verifyEvidence, .operationLedger]

/-- A JSON value, as far as it is read here. -/
inductive Json where
  | string (text : String)
  | object (members : List (String × Json))
  | other

def Json.get : Json → String → Option Json
  | .object members, key => members.lookup key
  | _, _ => none

def Json.asStr : Json → Option String
  | .string text => some text
  | _ => none

structure Readers where
  sha256 : Bytes → String
  /-- What a file holds as UTF-8 JSON. -/
  fromStr : Bytes → Option Json

/-- The files a save is about: a document and what stands beside it. -/
structure OutputSet where
  document : Option Bytes
  sidecar : Suffix → Option Bytes

/-- The bytes a sidecar says the document has, when it says so. -/
def recordedDocxSha256 (r : Readers) (file : Option Bytes) : Option String := do
  let value ← r.fromStr (← file)
  let payload ← value.get "payload"
  let outputs ← payload.get "outputs"
  let docx ← outputs.get "docx"
  (← docx.get "sha256").asStr

inductive SetState where
  | absent
  | consistent (docxSha256 : String)
  | mixed (disagree : List String) (docxSha256 : String)
  deriving DecidableEq, Repr

/-- The hash of the document; of a missing one the empty string. -/
def publishedSha256 (r : Readers) (document : Option Bytes) : String :=
  (document.map r.sha256).getD ""

def sidecarSetState (r : Readers) (set : OutputSet) : SetState :=
  let recorded := sidecars.filterMap fun suffix =>
    (recordedDocxSha256 r (set.sidecar suffix)).map fun sha256 => (suffix, sha256)
  if recorded = [] then .absent
  else
    let published := publishedSha256 r set.document
    let disagree := (recorded.filter fun entry => entry.2 != published).map fun entry =>
      entry.1.text ++ " records " ++ entry.2
    if disagree = [] then .consistent published else .mixed disagree published

/-! ## The call -/

/-- The place a save is about and the build staged for it. -/
structure Site where
  output : OutputSet
  staging : OutputSet
  /-- Whether the directory of the output is there. -/
  parentIsDir : Bool

/-- The operations on files that a call makes, each at most once. -/
inductive Step where
  | hold
  | reread
  | probe (suffix : Suffix)
  | place (suffix : Suffix)
  | replace
  | link
  | removeStaging
  | undoDocument
  | undoSidecar (suffix : Suffix)
  deriving DecidableEq, Repr

structure PublishExpectation where
  present : Bool
  sha256 : Option String

inductive PublishError where
  | cannotGuard
  | changed (now was : String)
  | disappeared
  | appeared
  | notPublishable
  | parentMissing (suffix : Suffix)
  | sidecarBlocked (suffix : Suffix)
  | stagedVanished (suffix : Suffix)
  | sidecarNotPlaced (suffix : Suffix)
  | notReplaced
  | linkRefused
  | sidecarRolledBack (suffix : Suffix)
  deriving DecidableEq, Repr

/-- The text of a refusal; `error` is what the operating system says. -/
def PublishError.message (output staging parent error : String) : PublishError → String
  | .cannotGuard => "external output cannot be guarded for publication: " ++ output ++ " (" ++
      error ++ "); nothing was published"
  | .changed now was => "external output changed outside the engine during the build: " ++ output ++
      " now hashes to " ++ now ++ ", expected " ++ was ++
      "; the verified staged build was discarded and nothing was published"
  | .disappeared => "external output disappeared outside the engine during the build: " ++ output ++
      " is now unreadable (" ++ error ++
      "); the staged build was discarded and nothing was published"
  | .appeared => "external output appeared outside the engine just before publication: " ++ output ++
      " now exists; the staged build was discarded and nothing was published"
  | .notPublishable => "external-file-changed: " ++ output ++
      " is not in a publishable state; the staged build was discarded and nothing was published"
  | .parentMissing suffix => "the document was NOT published: its evidence parent " ++ parent ++
      " does not exist, so whatever " ++ output ++ suffix.text ++ " held is untouched"
  | .sidecarBlocked suffix => "the document was NOT published: its evidence " ++ output ++
      suffix.text ++ " could not be put in place (" ++ error ++ "), so whatever " ++ output ++
      suffix.text ++ " held is untouched"
  | .stagedVanished suffix => "the document was NOT published: staged evidence " ++ staging ++
      suffix.text ++ " vanished before publication"
  | .sidecarNotPlaced suffix => "the document was NOT published: its " ++ suffix.text ++
      " could not be put in place (" ++ error ++ "), so whatever " ++ output ++
      " held is untouched"
  | .notReplaced => output ++ " could not be replaced with the verified build: " ++ error
  | .linkRefused => "external output appeared outside the engine just before publication: " ++
      output ++ " now exists; the staged build was discarded and nothing was published (" ++
      error ++ ")"
  | .sidecarRolledBack suffix => "the document was NOT published: its " ++ suffix.text ++
      " could not be put in place (" ++ error ++
      "); the linked document and this publish's own new sidecars were removed, so whatever " ++
      output ++ " held before is untouched"

/-- How a call, or a part of it, ends; `.error none` where the process stops. -/
abbrev Ending := Except (Option PublishError) Unit

/-- An operation that ends the call when it does not take effect. -/
def act (fate : Fate) (error : PublishError) : Ending :=
  match fate with
  | .done => .ok ()
  | .fail => .error (some error)
  | .stop => .error none

section Publish

variable (r : Readers) (faults : Step → Fate)

/-! ### Before any write -/

def holdOutputNoWrite (site : Site) : Ending :=
  if site.output.document.isSome then act (faults .hold) .cannotGuard else .ok ()

/-- The target is still what the caller captured. -/
def recheck (captured : PublishExpectation) (site : Site) : Ending :=
  match captured.present, captured.sha256 with
  | true, some was => do
    act (faults .reread) .disappeared
    match site.output.document with
    | none => .error (some .disappeared)
    | some now =>
      if r.sha256 now ≠ was then .error (some (.changed (r.sha256 now) was)) else .ok ()
  | false, _ => if site.output.document.isSome then .error (some .appeared) else .ok ()
  | true, none => .error (some .notPublishable)

def preflightSidecarReceivable (site : Site) (suffix : Suffix) : Ending := do
  if !site.parentIsDir then .error (some (.parentMissing suffix)) else .ok ()
  if (site.output.sidecar suffix).isSome then act (faults (.probe suffix)) (.sidecarBlocked suffix)
    else .ok ()
  if (site.staging.sidecar suffix).isNone then .error (some (.stagedVanished suffix)) else .ok ()

def preflight (site : Site) : List Suffix → Ending
  | [] => .ok ()
  | suffix :: rest =>
    if (site.staging.sidecar suffix).isNone then preflight site rest
    else do
      preflightSidecarReceivable faults site suffix
      preflight site rest

/-- Everything the call checks before it writes. -/
def checkBeforeWrites (captured : PublishExpectation) (site : Site) : Ending := do
  holdOutputNoWrite faults site
  recheck r faults captured site
  preflight faults site sidecars

/-! ### Writing -/

/-- Rename staged sidecars over those of the output. -/
def Site.move (suffixes : List Suffix) (site : Site) : Site where
  output := ⟨site.output.document, fun suffix =>
    if suffix ∈ suffixes then site.staging.sidecar suffix else site.output.sidecar suffix⟩
  staging := ⟨site.staging.document, fun suffix =>
    if suffix ∈ suffixes then none else site.staging.sidecar suffix⟩
  parentIsDir := site.parentIsDir

def placeSidecars : List Suffix → Site → Ending × Site
  | [], site => (.ok (), site)
  | suffix :: rest, site =>
    if (site.staging.sidecar suffix).isNone then placeSidecars rest site
    else
      match faults (.place suffix) with
      | .done => placeSidecars rest (site.move [suffix])
      | .fail => (.error (some (.sidecarNotPlaced suffix)), site)
      | .stop => (.error none, site)

/-- The rename of the staged document; it fails where there is none. -/
def coordinatedOutputReplace (site : Site) : Ending × Site :=
  match faults .replace, site.staging.document with
  | .done, some document =>
    (.ok (), { site with
      output := { site.output with document := some document }
      staging := { site.staging with document := none } })
  | .stop, _ => (.error none, site)
  | _, _ => (.error (some .notReplaced), site)

/-- Over an existing document. -/
def replaceOutput (site : Site) : Ending × Site :=
  match placeSidecars faults sidecars site with
  | (.ok (), site) => coordinatedOutputReplace faults site
  | left => left

def Site.removeDocument (site : Site) : Site :=
  { site with output := { site.output with document := none } }

def Site.removeSidecar (site : Site) (suffix : Suffix) : Site :=
  { site with output := { site.output with
      sidecar := fun other => if other = suffix then none else site.output.sidecar other } }

/-- Remove the sidecars this call has created; a removal that fails goes unnoticed. -/
def undoSidecars (suffix : Suffix) : List Suffix → Site → Ending × Site
  | [], site => (.error (some (.sidecarRolledBack suffix)), site)
  | created :: rest, site =>
    match faults (.undoSidecar created) with
    | .done => undoSidecars suffix rest (site.removeSidecar created)
    | .fail => undoSidecars suffix rest site
    | .stop => (.error none, site)

def rollBack (suffix : Suffix) (placed : List Suffix) (site : Site) : Ending × Site :=
  match faults .undoDocument with
  | .done => undoSidecars faults suffix placed site.removeDocument
  | .fail => undoSidecars faults suffix placed site
  | .stop => (.error none, site)

/-- The sidecars of a new path; `placed` are those that had nothing to overwrite. -/
def placeNew : List Suffix → List Suffix → Site → Ending × Site
  | [], _, site => (.ok (), site)
  | suffix :: rest, placed, site =>
    if (site.staging.sidecar suffix).isNone then placeNew rest placed site
    else
      match faults (.place suffix) with
      | .done =>
        placeNew rest (if (site.output.sidecar suffix).isSome then placed else placed ++ [suffix])
          (site.move [suffix])
      | .fail => rollBack faults suffix placed site
      | .stop => (.error none, site)

/-- At a new path: a link, which fails where a document stands. -/
def createOutput (site : Site) : Ending × Site :=
  match faults .link, site.output.document, site.staging.document with
  | .stop, _, _ => (.error none, site)
  | .done, none, some document =>
    let linked := { site with output := { site.output with document := some document } }
    match faults .removeStaging with
    | .done =>
      placeNew faults sidecars []
        { linked with staging := { linked.staging with document := none } }
    | .fail => placeNew faults sidecars [] linked
    | .stop => (.error none, linked)
  | _, _, _ => (.error (some .linkRefused), site)

def publishBuild (captured : PublishExpectation) (site : Site) : Ending × Site :=
  match checkBeforeWrites r faults captured site with
  | .ok () => if captured.present then replaceOutput faults site else createOutput faults site
  | .error e => (.error e, site)

end Publish

end Docx2Typed.Surface
