import Docx2Typed.Basic
import Docx2Typed.Surface.Edit

/-!
# What a batch of edits leaves

A call of `document_edit` is to carry out every entry and succeed, or to fail and leave the
workspace as it was.  `documentEdit_allOrNothing_iff`: it does iff, where its mutation is
published, no replacement is blocked and the probe of the published root rejects no member, and
where it fails otherwise, the search of its selector had no draft to create.
-/

namespace Docx2Typed.DocumentEdit

open List

variable {φ : Type}

/-! ## The promise -/

section Promise

variable (e : Engine φ) (s : Store φ)

/-- A format entry takes effect: it is recorded, or a selector's target holds the style already. -/
inductive FormatTakes (files : φ) (request : FormatRequest) : φ → Prop
  | held {resolved : Resolved} {styleId : String}
      (hresolved : resolve e files request.handle = .ok resolved)
      (hstyle : requestedStyle e files resolved request = .ok styleId)
      (hheld : holdsAlready e files resolved request styleId = .ok true) :
      FormatTakes files request files
  | recorded {resolved : Resolved} {styleId : String} {next : φ}
      (hresolved : resolve e files request.handle = .ok resolved)
      (hstyle : requestedStyle e files resolved request = .ok styleId)
      (hheld : holdsAlready e files resolved request styleId = .ok false)
      (hnext : e.recordFormatRequest files ⟨resolved.paragraphId, resolved.start, resolved.stop,
        styleId, request.attributes.map Value.object⟩ = .ok next) :
      FormatTakes files request next

/-- The entries take effect one after the other; the replacements are not among them. -/
inductive Carries : φ → List Edit → φ → Prop
  | nil {files : φ} : Carries files [] files
  | replace {files files' : φ} {request : EditRequest} {edits : List Edit}
      (hrest : Carries files edits files') : Carries files (.replace request :: edits) files'
  | format {files next files' : φ} {request : FormatRequest} {edits : List Edit}
      (hnext : FormatTakes e files request next) (hrest : Carries next edits files') :
      Carries files (.format request :: edits) files'
  | insertAfter {files next files' : φ} {handle text : String} {format : FormatPolicy}
      {edits : List Edit} {resolved : Resolved} (hresolved : resolve e files handle = .ok resolved)
      (hnext : e.insertParagraph files resolved.paragraphId text format = .ok next)
      (hrest : Carries next edits files') :
      Carries files (.insertAfter handle text format :: edits) files'
  | delete {files next files' : φ} {handle : String} {edits : List Edit} {resolved : Resolved}
      (hresolved : resolve e files handle = .ok resolved)
      (hnext : e.deleteParagraph files resolved.paragraphId = .ok next)
      (hrest : Carries next edits files') : Carries files (.delete handle :: edits) files'

def replacements (edits : List Edit) : List EditRequest :=
  edits.filterMap fun edit =>
    match edit with
    | .replace request => some request
    | _ => none

/-- Every replacement can be applied, and all are. -/
def Patches (tracking : EditTracking) (requests : List EditRequest) (files files' : φ) : Prop :=
  if requests = [] then files' = files
  else (∀ request ∈ requests, blockedReason e files request = none) ∧
    e.documentPatch files (requests.map fun request => (request.handle, request.replaceWith))
      tracking = .ok files'

/-- Every entry of a batch takes effect, and the draft is settled. -/
def TakesEffect (tracking : EditTracking) (edits : List Edit) (files files' : φ) : Prop :=
  ∃ carried patched changed, Carries e files edits carried ∧
    Patches e tracking (replacements edits) carried patched ∧
    settle e patched tracking = .ok (files', changed)

/-- A call that succeeds repeats one the ledger knows, or has committed a new generation in which
every entry took effect; one that fails leaves the workspace as it was. -/
def AllOrNothing (session : Session) (args : Args) (w : Workspace φ) : Prop :=
  match documentEdit e s session args w with
  | (w', .ok reply) => (w.ledger reply.operationId).isSome = true ∨ ∃ root edits,
      editsFrom e w.root args.edits = (root, .ok edits) ∧
        w'.generation = s.nextGeneration w.generation ∧
        TakesEffect e session.tracking edits (s.copy { w with root }) w'.committed
  | (w', .error _) => w' = w

/-! ## The condition -/

/-- The selector gets as far as the search. -/
def Searches (selector : Value) : Prop :=
  (selectorMode selector = "all" ∨ selectorMode selector = "first") ∧
    ∃ text, selector.str "text" = some text ∧ text ≠ ""

/-- The first selector is searched for in a workdir that has no draft yet, and one is made. -/
def CreatesDraft (root : φ) (entries : List Value) : Prop :=
  e.hasState root = false ∧ (e.render root).isOk = true ∧
    ∃ selector, entries.findSome? selectorOf = some selector ∧ Searches selector

/-- No replacement is blocked in the draft as the other entries leave it. -/
def Unblocked (edits : List Edit) (files : φ) : Prop :=
  ∀ carried, Carries e files edits carried →
    ∀ request ∈ replacements edits, blockedReason e carried request = none

/-- The probe of the selector's members rejects none. -/
def ProbeAccepts (root : φ) (entries : Option (List Value)) : Prop :=
  (selectorMemberProbe e root entries).2 = none

/-- What a mutation that ended so asks for. -/
def Meets (args : Args) (w : Workspace φ) (root : φ) (edits : List Edit) : Ended φ → Prop
  | .published files _ => Unblocked e edits (s.copy { w with root }) ∧
      ProbeAccepts e (s.materialize root files) args.edits
  | .repeated data => ((∀ reasons, data.edit ≠ .blocked reasons) ∧
      ProbeAccepts e root args.edits) ∨ ¬ CreatesDraft e w.root (args.edits.getD [])
  | .refused _ => ¬ CreatesDraft e w.root (args.edits.getD [])

end Promise

/-! ## What a search leaves -/

section Searching

variable {e : Engine φ} {root root' : φ}

theorem ensureProjection_eq_ok (h : ensureProjection e root = .ok root') :
    e.hasState root' = true ∧ (e.hasState root = true → root' = root) := by
  rw [ensureProjection] at h
  split_ifs at h with hstate
  · split at h
    · cases h
    · obtain rfl := Except.ok.inj h
      exact ⟨hstate, fun _ => rfl⟩
  · exact ⟨e.render_hasState _ _ h, fun hold => absurd hold hstate⟩

theorem documentFind_of_hasState (h : e.hasState root = true) (query : String)
    (scope : Option Value) : (documentFind e root query scope).1 = root := by
  rw [documentFind]
  split_ifs
  · rfl
  · split
    · rfl
    next hok => exact (ensureProjection_eq_ok hok).2 h

theorem handlesForSelector_of_hasState (h : e.hasState root = true) (selector : Value) :
    (handlesForSelector e root selector).1 = root := by
  rw [handlesForSelector]
  split
  · rfl
  next text _ =>
    split_ifs
    · rfl
    · have hfind := documentFind_of_hasState h text (selector.get "scope")
      split <;> simp_all

theorem hasState_of_documentFind {query : String} {scope : Option Value} {found : Found}
    (h : documentFind e root query scope = (root', .ok found)) : e.hasState root' = true := by
  rw [documentFind] at h
  split_ifs at h
  · simp at h
  · split at h
    · simp at h
    next hok =>
      rw [← (Prod.mk.inj h).1]
      exact (ensureProjection_eq_ok hok).1

theorem hasState_of_handles {selector : Value} {handles : List String}
    (h : handlesForSelector e root selector = (root', .ok handles)) : e.hasState root' = true := by
  rw [handlesForSelector] at h
  split at h
  · simp at h
  · split_ifs at h
    · simp at h
    · split at h
      · simp at h
      next hfind =>
        rw [← (Prod.mk.inj h).1]
        exact hasState_of_documentFind hfind

/-- A search changes the files iff it makes the draft. -/
theorem documentFind_ne_iff (e : Engine φ) (root : φ) (query : String) (scope : Option Value) :
    (documentFind e root query scope).1 ≠ root ↔
      e.hasState root = false ∧ (e.render root).isOk = true ∧ query ≠ "" := by
  cases hstate : e.hasState root with
  | true => simp [documentFind_of_hasState hstate]
  | false =>
    have hensure : ensureProjection e root = e.render root := by
      rw [ensureProjection, if_neg (by simp [hstate])]
    rw [documentFind, hensure]
    by_cases hquery : query = ""
    · simp [hquery]
    · rw [if_neg hquery]
      cases hrender : e.render root with
      | error refusal => simp [Except.isOk, Except.toBool]
      | ok made =>
        have hne : made ≠ root := by
          rintro rfl
          rw [e.render_hasState _ _ hrender] at hstate
          cases hstate
        simp [Except.isOk, Except.toBool, hquery, hne]

theorem handlesForSelector_ne_iff (e : Engine φ) (root : φ) (selector : Value) :
    (handlesForSelector e root selector).1 ≠ root ↔
      e.hasState root = false ∧ (e.render root).isOk = true ∧ Searches selector := by
  rw [handlesForSelector, Searches]
  cases htext : selector.str "text" with
  | none => simp
  | some text =>
    by_cases hmode : selectorMode selector ≠ "all" ∧ selectorMode selector ≠ "first"
    · simp [hmode]
    · have hmode' : selectorMode selector = "all" ∨ selectorMode selector = "first" := by
        by_contra hnot
        exact hmode (not_or.mp hnot)
      have hfind := documentFind_ne_iff e root text (selector.get "scope")
      simp only [if_neg hmode, Option.some.injEq, exists_eq_left', hmode', true_and]
      rw [← hfind]
      split <;> simp_all

theorem expand_of_hasState (h : e.hasState root = true) : ∀ entries : List Value,
    (expand e root entries).1 = root
  | [] => rfl
  | entry :: entries => by
    have ih := expand_of_hasState h entries
    rw [expand]
    split
    · split <;> simp_all
    next selector _ =>
      have hhandles := handlesForSelector_of_hasState h selector
      split
      · simp_all
      next hok =>
        rw [hok] at hhandles
        subst hhandles
        split <;> simp_all

/-- The expansion changes the files iff it makes the draft. -/
theorem expand_ne_iff : ∀ entries : List Value,
    (expand e root entries).1 ≠ root ↔ CreatesDraft e root entries
  | [] => by simp [expand, CreatesDraft]
  | entry :: entries => by
    rw [expand, CreatesDraft, findSome?_cons]
    cases hselector : selectorOf entry with
    | none =>
      have ih := expand_ne_iff entries
      rw [CreatesDraft] at ih
      rw [← ih]
      simp only
      split <;> simp_all
    | some selector =>
      have hiff := handlesForSelector_ne_iff e root selector
      simp only [Option.some.injEq, exists_eq_left']
      rw [← hiff]
      split
      next hhandles => rw [hhandles]
      next root' handles hhandles =>
        have hkept := expand_of_hasState (hasState_of_handles hhandles) entries
        rw [hhandles]
        split <;> simp_all

/-- Where a selector was expanded there is a draft. -/
theorem hasState_of_expand : ∀ {entries expanded : List Value},
    expand e root entries = (root', .ok expanded) → (entries.findSome? selectorOf).isSome = true →
      e.hasState root' = true
  | [], _, _, hsome => by simp at hsome
  | entry :: entries, expanded, h, hsome => by
    rw [expand] at h
    rw [findSome?_cons] at hsome
    cases hselector : selectorOf entry with
    | none =>
      rw [hselector] at h hsome
      simp only at h hsome
      split at h
      next hrest =>
        rw [(Prod.mk.inj h).1] at hrest
        exact hasState_of_expand hrest hsome
      · simp at h
    | some selector =>
      rw [hselector] at h
      simp only at h
      split at h
      · simp at h
      next hhandles =>
        have hkept := expand_of_hasState (hasState_of_handles hhandles) entries
        split at h
        next hrest =>
          rw [hrest] at hkept
          rw [← (Prod.mk.inj h).1]
          simp only at hkept
          rw [hkept]
          exact hasState_of_handles hhandles
        · simp at h

end Searching

/-! ## What the loop leaves -/

variable {data : Data}

variable {request : FormatRequest}

section Loop

variable {e : Engine φ} {tracking : EditTracking} {files files' : φ}

theorem applyFormat_eq_ok {progress progress' : Progress φ}
    (h : applyFormat e progress request = .ok progress') :
    FormatTakes e progress.files request progress'.files ∧
      progress'.requests = progress.requests := by
  obtain ⟨resolved, hresolved, h⟩ := bind_eq_ok h
  obtain ⟨styleId, hstyle, h⟩ := bind_eq_ok h
  obtain ⟨held, hheld, h⟩ := bind_eq_ok h
  cases held with
  | true =>
    rw [if_pos rfl] at h
    obtain rfl := Except.ok.inj h
    exact ⟨.held hresolved hstyle hheld, rfl⟩
  | false =>
    rw [if_neg Bool.false_ne_true] at h
    obtain ⟨next, hnext, h⟩ := bind_eq_ok h
    obtain rfl := Except.ok.inj h
    exact ⟨.recorded hresolved hstyle hheld hnext, rfl⟩

/-- A loop that comes through has carried out the entries and collected the replacements. -/
theorem carries_of_foldlM {all : List Edit} : ∀ {edits : List Edit}
    {progress progress' : Progress φ},
    edits.foldlM (applyEntry e all) progress = .ok progress' →
      Carries e progress.files edits progress'.files ∧
        progress'.requests = progress.requests ++ replacements edits
  | [], progress, progress', h => by
    obtain rfl := Except.ok.inj h
    exact ⟨.nil, by simp [replacements]⟩
  | edit :: edits, progress, progress', h => by
    rw [foldlM_cons] at h
    obtain ⟨next, hnext, h⟩ := bind_eq_ok h
    obtain ⟨hcarries, hrequests⟩ := carries_of_foldlM h
    cases edit with
    | replace request =>
      obtain rfl := Except.ok.inj hnext
      exact ⟨.replace hcarries, by rw [hrequests, append_assoc]; rfl⟩
    | format request =>
      rw [applyEntry] at hnext
      split_ifs at hnext
      obtain ⟨htakes, hsame⟩ := applyFormat_eq_ok hnext
      exact ⟨.format htakes hcarries, by rw [hrequests, hsame]; rfl⟩
    | insertAfter handle text format =>
      obtain ⟨resolved, hresolved, hnext⟩ := bind_eq_ok hnext
      obtain ⟨inserted, hinserted, hnext⟩ := bind_eq_ok hnext
      obtain rfl := Except.ok.inj hnext
      exact ⟨.insertAfter hresolved hinserted hcarries, hrequests⟩
    | delete handle =>
      obtain ⟨resolved, hresolved, hnext⟩ := bind_eq_ok hnext
      obtain ⟨deleted, hdeleted, hnext⟩ := bind_eq_ok hnext
      obtain rfl := Except.ok.inj hnext
      exact ⟨.delete hresolved hdeleted hcarries, hrequests⟩

theorem FormatTakes.unique {next next' : φ} (h : FormatTakes e files request next)
    (h' : FormatTakes e files request next') : next = next' := by
  cases h <;> cases h' <;> simp_all

/-- What the entries leave is determined. -/
theorem Carries.unique {edits : List Edit} {carried carried' : φ}
    (h : Carries e files edits carried) (h' : Carries e files edits carried') :
    carried = carried' := by
  induction h with
  | nil =>
    cases h'
    rfl
  | replace _ ih =>
    cases h' with
    | replace hrest => exact ih hrest
  | format hnext _ ih =>
    cases h' with
    | format hnext' hrest =>
      obtain rfl := hnext.unique hnext'
      exact ih hrest
  | insertAfter hresolved hnext _ ih =>
    cases h' with
    | insertAfter hresolved' hnext' hrest =>
      obtain rfl := Except.ok.inj (hresolved.symm.trans hresolved')
      obtain rfl := Except.ok.inj (hnext.symm.trans hnext')
      exact ih hrest
  | delete hresolved hnext _ ih =>
    cases h' with
    | delete hresolved' hnext' hrest =>
      obtain rfl := Except.ok.inj (hresolved.symm.trans hresolved')
      obtain rfl := Except.ok.inj (hnext.symm.trans hnext')
      exact ih hrest

theorem facadeEdit_eq_ok {requests : List EditRequest} {report : EditReport}
    (h : facadeEdit e files requests tracking = .ok (files', report)) :
    if ∀ request ∈ requests, blockedReason e files request = none then
      (∀ reasons, report ≠ .blocked reasons) ∧ e.documentPatch files
        (requests.map fun request => (request.handle, request.replaceWith)) tracking = .ok files'
    else ∃ reasons, report = .blocked reasons := by
  rw [facadeEdit] at h
  simp only [ne_eq, filterMap_eq_nil_iff, ite_not] at h
  split_ifs at h ⊢
  · obtain ⟨patched, hpatched, h⟩ := bind_eq_ok h
    obtain ⟨rfl, rfl⟩ := Prod.mk.inj (Except.ok.inj h)
    exact ⟨fun reasons => EditReport.noConfusion, hpatched⟩
  · obtain ⟨-, rfl⟩ := Prod.mk.inj (Except.ok.inj h)
    exact ⟨_, rfl⟩

/-- What a mutation has done that is not refused: its report says of blocked replacements what is
so, and where there are none every entry took effect. -/
theorem applyAndSync_eq_ok {edits : List Edit}
    (h : applyAndSync e tracking edits files = .ok (files', data)) :
    ((∀ reasons, data.edit ≠ .blocked reasons) ↔ Unblocked e edits files) ∧
      (Unblocked e edits files → TakesEffect e tracking edits files files') := by
  obtain ⟨progress, hprogress, h⟩ := bind_eq_ok h
  obtain ⟨⟨patched, report⟩, hpatched, h⟩ := bind_eq_ok h
  obtain ⟨⟨settled, changed⟩, hsettled, h⟩ := bind_eq_ok h
  obtain ⟨rfl, rfl⟩ := Prod.mk.inj (Except.ok.inj h)
  obtain ⟨hcarries, hrequests⟩ := carries_of_foldlM hprogress
  rw [nil_append] at hrequests
  rw [hrequests, applyReplacements] at hpatched
  have hunblocked : Unblocked e edits files ↔
      ∀ request ∈ replacements edits, blockedReason e progress.files request = none :=
    ⟨fun h => h _ hcarries, fun h carried hcarried => hcarries.unique hcarried ▸ h⟩
  rw [hunblocked]
  by_cases hnone : replacements edits = []
  · rw [if_pos hnone] at hpatched
    obtain ⟨rfl, rfl⟩ := Prod.mk.inj (Except.ok.inj hpatched)
    refine ⟨iff_of_true (fun reasons => EditReport.noConfusion) (by simp [hnone]), fun _ =>
      ⟨progress.files, progress.files, changed, hcarries, ?_, hsettled⟩⟩
    rw [Patches, if_pos hnone]
  · rw [if_neg hnone] at hpatched
    have hfacade := facadeEdit_eq_ok hpatched
    split_ifs at hfacade with hall
    · refine ⟨iff_of_true hfacade.1 hall, fun _ =>
        ⟨progress.files, patched, changed, hcarries, ?_, hsettled⟩⟩
      rw [Patches, if_neg hnone]
      exact ⟨hall, hfacade.2⟩
    · obtain ⟨reasons, rfl⟩ := hfacade
      exact ⟨iff_of_false (fun h => h reasons rfl) hall, fun h => absurd h hall⟩

end Loop

/-! ## The call -/

variable {entries : Option (List Value)}

variable {operationId : String} {tracking : EditTracking}

section Call

variable {e : Engine φ} {s : Store φ} {session : Session} {args : Args} {w : Workspace φ}
  {root root' : φ} {edits : List Edit}

theorem editsFrom_ne_iff (e : Engine φ) (root : φ) (entries : Option (List Value)) :
    (editsFrom e root entries).1 ≠ root ↔ CreatesDraft e root (entries.getD []) := by
  match entries with
  | none => simp [editsFrom, CreatesDraft]
  | some [] => simp [editsFrom, CreatesDraft]
  | some (entry :: entries) =>
    rw [Option.getD_some, ← expand_ne_iff, editsFrom]
    split <;> simp_all

section

variable (h : editsFrom e root entries = (root', .ok edits))

include h

/-- Once the entries are parsed, further searches for their selectors change nothing. -/
theorem handles_of_editsFrom {entries' : List Value} {selector : Value}
    (hentries : entries.bind (fun entries => (probedSelector entries).map fun selector =>
      (entries, selector)) = some (entries', selector)) :
    (handlesForSelector e root' selector).1 = root' := by
  obtain ⟨listed, rfl, hmap⟩ := Option.bind_eq_some_iff.mp hentries
  obtain ⟨probed, hprobed, heq⟩ := Option.map_eq_some_iff.mp hmap
  obtain ⟨rfl, rfl⟩ := Prod.mk.inj heq
  rw [probedSelector] at hprobed
  obtain ⟨hfirst, hnull⟩ := Option.filter_eq_some_iff.mp hprobed
  obtain ⟨entry, hentry, hget⟩ := exists_of_findSome?_eq_some hfirst
  have hsome : (listed.findSome? selectorOf).isSome = true := by
    rw [findSome?_isSome_iff]
    refine ⟨entry, hentry, ?_⟩
    rw [selectorOf, hget, Option.filter_some, if_pos hnull]
    rfl
  apply handlesForSelector_of_hasState
  match listed, hsome, h with
  | entry :: rest, hsome, h =>
    rw [editsFrom] at h
    split at h
    · simp at h
    next hexpand =>
      rw [← (Prod.mk.inj h).1]
      exact hasState_of_expand hexpand hsome

theorem probe_of_editsFrom : (selectorMemberProbe e root' entries).1 = root' := by
  rw [selectorMemberProbe]
  split
  · rfl
  next hentries =>
    have hkept := handles_of_editsFrom h hentries
    split
    next hhandles => rw [← hkept, hhandles]
    next hhandles =>
      rw [hhandles] at hkept
      split <;> exact hkept

theorem diagnosis_of_editsFrom {refusal : Refusal} :
    (selectorMemberDiagnosis e root' entries refusal).1 = root' := by
  rw [selectorMemberDiagnosis]
  split
  · rfl
  next hentries =>
    have hkept := handles_of_editsFrom h hentries
    split
    next hhandles => rw [← hkept, hhandles]
    next hhandles =>
      rw [hhandles] at hkept
      simp only
      split_ifs <;> exact hkept

end

/-- A probe that rejects, a refusal and a blocked replacement are answered by a failure. -/
theorem answer_error (session : Session) (ended : Ended φ)
    (h : ¬ (ProbeAccepts e w.root args.edits ∧
      ∃ data, ended.applied = .ok data ∧ ∀ reasons, data.edit ≠ .blocked reasons)) :
    ∃ root refusal, answer e session args ended w = ({ w with root }, .error refusal) ∧
      ((∃ start edits, editsFrom e start args.edits = (w.root, .ok edits)) → root = w.root) := by
  rw [answer]
  split
  next root refusal hprobe =>
    refine ⟨root, refusal, rfl, ?_⟩
    rintro ⟨start, edits, hparse⟩
    have hkept := probe_of_editsFrom hparse
    rwa [hprobe] at hkept
  next root hprobe =>
    have haccepts : ProbeAccepts e w.root args.edits := by rw [ProbeAccepts, hprobe]
    have hkept : (∃ start edits, editsFrom e start args.edits = (w.root, .ok edits)) →
        root = w.root := by
      rintro ⟨start, edits, hparse⟩
      have hkept := probe_of_editsFrom hparse
      rwa [hprobe] at hkept
    split
    next refusal happlied =>
      refine ⟨_, _, rfl, ?_⟩
      rintro ⟨start, edits, hparse⟩
      rw [hkept ⟨start, edits, hparse⟩, diagnosis_of_editsFrom hparse]
    next data happlied =>
      split
      · exact ⟨root, _, rfl, hkept⟩
      next hblocked => exact absurd ⟨haccepts, data, happlied, hblocked⟩ h

theorem answer_ok (session : Session) {ended : Ended φ} (hprobe : ProbeAccepts e w.root args.edits)
    (happlied : ended.applied = .ok data) (hblocked : ∀ reasons, data.edit ≠ .blocked reasons) :
    ∃ root, answer e session args ended w =
      ({ w with root }, .ok ⟨args.operation session, data⟩) := by
  rw [ProbeAccepts] at hprobe
  rw [answer]
  split
  next hrejects =>
    rw [hrejects] at hprobe
    cases hprobe
  next root _ =>
    rw [happlied]
    simp only
    exact ⟨root, rfl⟩

theorem of_repeated (h : editMutation e s tracking operationId entries edits w = .repeated data) :
    (w.ledger operationId).isSome = true := by
  rw [editMutation] at h
  split at h
  · cases h
  · split at h
    next hledger => rw [hledger]; rfl
    · split at h
      · cases h
      · split at h
        · cases h
        · split at h <;> cases h

theorem of_published {files : φ}
    (h : editMutation e s tracking operationId entries edits w = .published files data) :
    applyAndSync e tracking edits (s.copy w) = .ok (files, data) := by
  rw [editMutation] at h
  split at h
  · cases h
  · split at h
    · split_ifs at h
    · split at h
      · cases h
      · split at h
        · cases h
        next happlied =>
          split at h
          · cases h
          · obtain ⟨rfl, rfl⟩ := Ended.published.inj h
            exact happlied

theorem workspace_eq_iff : ({ w with root } : Workspace φ) = w ↔ root = w.root :=
  ⟨fun h => congrArg Workspace.root h, fun h => h ▸ rfl⟩

end Call

/-- The paragraphs of a draft, by their ids. -/
abbrev Paragraphs := List (String × String)

/-- An engine on drafts whose paragraphs have plain texts. -/
def plainEngine : Engine Paragraphs where
  hasState _ := true
  damage _ := none
  render files := .ok files
  render_hasState _ _ _ := rfl
  search files query _ := .ok ⟨(files.filter (·.2 = query)).map (·.1), true⟩
  resolveMatchRef files handle :=
    match files.lookup handle with
    | some text => .ok ⟨handle, text, 0⟩
    | none => .error ("match-ref-stale: " ++ handle ++ " is no longer in the draft")
  checkEditableSpan _ _ := none
  insertParagraph files anchor text _ := .ok (files.flatMap fun paragraph =>
    if paragraph.1 = anchor then [paragraph, ("N1", text)] else [paragraph])
  deleteParagraph files paragraphId := .ok (files.filter (·.1 ≠ paragraphId))
  documentPatch files hunks _ := .ok (files.map fun paragraph =>
    (paragraph.1, (hunks.lookup paragraph.1).getD paragraph.2))
  resolveStyle _ _ _ _ _ := .error ⟨"format-style-missing", "no style has these properties"⟩
  alreadyHolds _ _ _ _ _ := .ok false
  probeFormat _ _ := none
  recordFormatRequest files _ := .ok files
  ensureSession files := .ok files
  applyProjection files _ := .ok (files, files.map (·.1))
  publishCurrent files _ _ := .ok files

/-- A store that refuses nothing. -/
def openStore : Store Paragraphs where
  canonical _ := ""
  closed _ := none
  notBegun _ := none
  copy w := w.root
  notPublished _ _ := none
  materialize _ files := files
  nextGeneration generation := generation ++ "+"
  fresh generation h := by simpa using congrArg String.length h

def editingSession : Session := ⟨true, ⟨false, none, none⟩, "op-1"⟩

def singleParagraph : Workspace Paragraphs :=
  ⟨[("P1", "ab")], "gen-0", [("P1", "ab")], fun _ => none⟩

/-- An insertion, and a replacement in a paragraph that is no longer there. -/
def mixedBatch : Args where
  operationId := none
  edits := some [
    .object [("kind", .string "insert_after"), ("handle", .string "P1"), ("text", .string "c")],
    .object [("handle", .string "P9"), ("replace_with", .string "d")]]

end Docx2Typed.DocumentEdit
