import Docx2Typed.Revision.Settle
import Docx2Typed.XmlWalker.Tree
import Docx2Typed.Zip.Stored

/-!
# Is every editable revision the one that is settled?

The inventory and the settler walk a part separately.  Both meet the same revision elements in the
same order and ask the same of the paragraph around them; but the settler is given a `w:id` and
stops at the first element that has it.  So an editable revision is the one that is settled exactly
when no revision with its id ends before it.
-/

namespace Docx2Typed

open List

/-! ## The two walks -/

/-- The element as the settler keeps it. -/
def LocatedRevision.withText (xml : Bytes) (tags : List Tag) (revision : LocatedRevision) :
    LocatedRevision :=
  if revision.mark then revision
  else { revision with text := revisionText xml tags revision.start revision.stop }

/-- The settler's walk beside the inventory's. -/
structure Follows (xml : Bytes) (tags : List Tag) (wId : Text) (s : LocateWalk) (f : FindWalk) :
    Prop where
  stack : f.stack = s.stack
  interiorDepth : f.interiorDepth = s.interiorDepth
  found : f.found = (s.found.find? (·.wId == wId)).map (·.withText xml tags)

section Walks

variable {xml : Bytes} {tags : List Tag} {wId : Text} {s : LocateWalk} {f : FindWalk}

theorem withText_wId (revision : LocatedRevision) :
    (revision.withText xml tags).wId = revision.wId := by
  unfold LocatedRevision.withText
  split <;> rfl

/-- Of all elements with the id, the first one is kept. -/
theorem keep_found {found : List LocatedRevision} {revision kept : LocatedRevision}
    (hkept : kept = revision.withText xml tags)
    (h : f.found = (found.find? (·.wId == wId)).map (·.withText xml tags)) :
    (f.keep wId kept).found =
      ((found ++ [revision]).find? (·.wId == wId)).map (·.withText xml tags) := by
  have hid : kept.wId = revision.wId := by
    rw [hkept, withText_wId]
  rw [find?_append]
  unfold FindWalk.keep
  cases hfirst : found.find? (·.wId == wId) with
  | some first =>
    rw [hfirst] at h
    rw [if_neg (by simp [h]), h]
    rfl
  | none =>
    rw [hfirst] at h
    by_cases hsame : revision.wId = wId
    · rw [if_pos ⟨hid.trans hsame, h⟩, find?_cons_of_pos (by simpa using hsame), hkept]
      rfl
    · rw [if_neg (fun hboth => hsame (hid.symm.trans hboth.1)), h,
        find?_cons_of_neg (by simpa using hsame)]
      rfl

theorem keep_stack (revision : LocatedRevision) :
    (f.keep wId revision).stack = f.stack ∧
      (f.keep wId revision).interiorDepth = f.interiorDepth := by
  unfold FindWalk.keep
  split <;> exact ⟨rfl, rfl⟩

theorem Follows.step (h : Follows xml tags wId s f) (tag : Tag) :
    Follows xml tags wId (locateStep xml s tag) (findStep xml tags wId f tag) := by
  obtain ⟨hstack, hdepth, hfound⟩ := h
  unfold locateStep findStep
  rw [hstack, hdepth]
  cases hclosing : tag.closing with
  | true =>
    rw [if_pos rfl, if_pos rfl]
    cases hopen : s.stack with
    | nil => exact ⟨hstack, hdepth, hfound⟩
    | cons top rest =>
      obtain ⟨name, start, openEnd⟩ := top
      dsimp only
      by_cases hname : name = tag.name
      · rw [if_pos hname, if_pos hname]
        cases hkind : revisionKind name with
        | none => exact ⟨rfl, rfl, by simpa using hfound⟩
        | some kind => exact ⟨(keep_stack _).1, (keep_stack _).2, keep_found rfl hfound⟩
      · rw [if_neg hname, if_neg hname]
        exact ⟨hstack, hdepth, hfound⟩
  | false =>
    simp only [Bool.false_eq_true, if_false]
    cases hself : tag.selfClosing with
    | true =>
      simp only [if_true]
      cases hkind : revisionKind tag.name with
      | none => exact ⟨hstack, hdepth, by simpa using hfound⟩
      | some kind =>
        exact ⟨(keep_stack _).1.trans hstack, (keep_stack _).2.trans hdepth, keep_found rfl hfound⟩
    | false =>
      simp only [Bool.false_eq_true, if_false]
      exact ⟨rfl, rfl, hfound⟩

theorem Follows.run (ts : List Tag) (h : Follows xml tags wId s f) :
    Follows xml tags wId (ts.foldl (locateStep xml) s) (ts.foldl (findStep xml tags wId) f) := by
  induction ts generalizing s f with
  | nil => exact h
  | cons tag ts ih => exact ih (h.step tag)

/-- The settler finds the first element of the inventory with the id. -/
theorem found_eq_find (xml : Bytes) (wId : Text) :
    ((scanTags xml).foldl (findStep xml (scanTags xml) wId) {}).found =
      ((revisionElements xml).find? (·.wId == wId)).map (·.withText xml (scanTags xml)) :=
  (Follows.run (scanTags xml) (s := {}) (f := {}) ⟨rfl, rfl, rfl⟩).found

/-- A tag adds at most one revision element, which ends with it. -/
theorem locateStep_found (xml : Bytes) (s : LocateWalk) (tag : Tag) :
    (locateStep xml s tag).found = s.found ∨
      ∃ revision, revision.stop = tag.stop ∧ (locateStep xml s tag).found = s.found ++ [revision] := by
  unfold locateStep
  split
  · split
    · exact .inl rfl
    · next name start openEnd rest hopen =>
      split
      · cases hkind : revisionKind name with
        | none => exact .inl (append_nil _)
        | some kind => exact .inr ⟨_, rfl, rfl⟩
      · exact .inl rfl
  · split
    · cases hkind : revisionKind tag.name with
      | none => exact .inl (append_nil _)
      | some kind => exact .inr ⟨_, rfl, rfl⟩
    · exact .inl rfl

theorem stops_of_run : ∀ {ts : List Tag} {s : LocateWalk} {lo hi : Nat},
    Ordered lo hi ts → (∀ r ∈ s.found, r.stop ≤ lo) → s.found.Pairwise (fun a b => a.stop < b.stop) →
      (ts.foldl (locateStep xml) s).found.Pairwise fun a b => a.stop < b.stop
  | [], _, _, _, _, _, hstops => hstops
  | tag :: ts, s, lo, hi, hord, hbefore, hstops => by
    have htag := hord.inside tag mem_cons_self
    rw [foldl_cons]
    rcases locateStep_found xml s tag with hsame | ⟨revision, hstop, hnew⟩
    · refine stops_of_run hord.tail ?_ (by rwa [hsame])
      rw [hsame]
      exact fun r hr => (hbefore r hr).trans (by omega)
    · refine stops_of_run hord.tail ?_ ?_
      · rw [hnew]
        intro r hr
        rcases mem_append.mp hr with hr | hr
        · exact (hbefore r hr).trans (by omega)
        · rw [mem_singleton.mp hr, hstop]
      · rw [hnew]
        refine pairwise_append.mpr ⟨hstops, by simp, fun r hr r' hr' => ?_⟩
        rw [mem_singleton.mp hr', hstop]
        have := hbefore r hr
        omega

theorem revisionElements_stops (xml : Bytes) :
    (revisionElements xml).Pairwise fun a b => a.stop < b.stop :=
  stops_of_run (s := {}) (ordered_scanTags xml) (by simp) .nil

end Walks

/-! ## The element that is settled -/

/-- No revision with the same id ends before it. -/
def FirstToEnd (xml : Bytes) (revision : LocatedRevision) : Prop :=
  ∀ other ∈ revisionElements xml, other.wId = revision.wId → revision.stop ≤ other.stop

instance (xml : Bytes) (revision : LocatedRevision) : Decidable (FirstToEnd xml revision) :=
  inferInstanceAs (Decidable (∀ other ∈ _, _))

/-- No paragraph mark, in no interior, and in a paragraph without unsupported structure. -/
def LocatedRevision.isOpen (revision : LocatedRevision) : Bool :=
  !revision.mark && !revision.insideOpaque && !revision.paragraphOpaque

/-- The settler is given the id of a revision and settles that very element. -/
def SettlesElement (xml : Bytes) (action : String) (revision : LocatedRevision) : Prop :=
  ∃ found settlement, findSettleableRevision xml revision.wId = .ok found ∧
    settleOneRevision xml revision.wId action = .ok settlement ∧
    found.start = revision.start ∧ found.stop = revision.stop

section Settles

variable {xml : Bytes} {revision : LocatedRevision}

theorem find_eq_iff_firstToEnd (h : revision ∈ revisionElements xml) :
    (revisionElements xml).find? (·.wId == revision.wId) = some revision ↔
      FirstToEnd xml revision := by
  have hstops := revisionElements_stops xml
  constructor
  · intro hfind other hother hid
    obtain ⟨-, before, after, hsplit, hbefore⟩ := find?_eq_some_iff_append.mp hfind
    rw [hsplit] at hother hstops
    rw [pairwise_append, pairwise_cons] at hstops
    rcases mem_append.mp hother with hmem | hmem
    · have := hbefore other hmem
      simp [hid] at this
    · rcases mem_cons.mp hmem with rfl | hmem
      · exact Nat.le_refl _
      · exact (hstops.2.1.1 other hmem).le
  · intro hfirst
    have hsome : ((revisionElements xml).find? (·.wId == revision.wId)).isSome :=
      find?_isSome.mpr ⟨revision, h, by simp⟩
    obtain ⟨first, hfind⟩ := Option.isSome_iff_exists.mp hsome
    obtain ⟨hid, before, after, hsplit, hbefore⟩ := find?_eq_some_iff_append.mp hfind
    have hle := hfirst first (mem_of_find?_eq_some hfind) (by simpa using hid)
    rw [hsplit] at h hstops
    rw [pairwise_append, pairwise_cons] at hstops
    rcases mem_append.mp h with hmem | hmem
    · have := hbefore revision hmem
      simp at this
    · rcases mem_cons.mp hmem with rfl | hmem
      · exact hfind
      · have := hstops.2.1.1 revision hmem
        omega

/-- The settler asks of an element what the inventory asks. -/
theorem settleGate_eq_ok_iff (wId : Text) :
    (∃ placed, settleGate xml wId revision = .ok placed) ↔
      ∃ paragraphs, scanDocument xml = .ok paragraphs ∧
        (revision.resolve xml paragraphs).isOpen = true := by
  unfold settleGate
  cases hscan : scanDocument xml with
  | error failure => simp
  | ok paragraphs =>
    simp only [LocatedRevision.resolve, LocatedRevision.isOpen, Except.ok.injEq, exists_eq_left']
    split
    · next hmark => simp [hmark]
    · next hmark =>
      split
      · next hinside => simp [hinside]
      · next hinside =>
        split
        · next hparagraph => simp [hparagraph]
        · next hparagraph => simp [hmark, hinside, hparagraph]

theorem settleGate_range {wId : Text} {placed : LocatedRevision}
    (h : settleGate xml wId revision = .ok placed) :
    placed.start = revision.start ∧ placed.stop = revision.stop := by
  unfold settleGate at h
  split at h
  · cases h
  · dsimp only at h
    split at h
    · cases h
    · split at h
      · cases h
      · split at h
        · cases h
        · obtain rfl := Except.ok.inj h
          exact ⟨rfl, rfl⟩

theorem withText_range (xml : Bytes) (revision : LocatedRevision) (tags : List Tag) :
    (revision.withText xml tags).start = revision.start ∧
      (revision.withText xml tags).stop = revision.stop ∧
      ∀ paragraphs, ((revision.withText xml tags).resolve xml paragraphs).isOpen =
        (revision.resolve xml paragraphs).isOpen := by
  unfold LocatedRevision.withText
  split
  · exact ⟨rfl, rfl, fun _ => rfl⟩
  · exact ⟨rfl, rfl, fun _ => rfl⟩

/-- A revision is settled under its id when it is the first with it and stands in the open. -/
theorem settlesElement_iff (h : revision ∈ revisionElements xml) {action : String}
    (haction : action = "accept" ∨ action = "reject") :
    SettlesElement xml action revision ↔ FirstToEnd xml revision ∧
      ∃ paragraphs, scanDocument xml = .ok paragraphs ∧
        (revision.resolve xml paragraphs).isOpen = true := by
  have hfinds : ∀ found, findSettleableRevision xml revision.wId = .ok found ↔
      ∃ first, (revisionElements xml).find? (·.wId == revision.wId) = some first ∧
        settleGate xml revision.wId (first.withText xml (scanTags xml)) = .ok found := by
    intro found
    unfold findSettleableRevision
    dsimp only
    rw [found_eq_find]
    cases (revisionElements xml).find? (·.wId == revision.wId) with
    | none => simp
    | some first => simp
  have hknown : ¬ (action ≠ "accept" ∧ action ≠ "reject") := by
    rintro ⟨haccept, hreject⟩
    exact haction.elim haccept hreject
  obtain ⟨hstart, hstop, hopen⟩ := withText_range xml revision (scanTags xml)
  constructor
  · rintro ⟨found, settlement, hfound, -, hfoundStart, hfoundStop⟩
    obtain ⟨first, hfirst, hgate⟩ := (hfinds found).mp hfound
    obtain ⟨-, hgateStop⟩ := settleGate_range hgate
    obtain ⟨-, hfirstStop, -⟩ := withText_range xml first (scanTags xml)
    -- elements end apart
    have hstops : ((revisionElements xml).map (·.stop)).Nodup :=
      pairwise_map.mpr ((revisionElements_stops xml).imp fun hlt => hlt.ne)
    have hsame : first = revision :=
      inj_on_of_nodup_map hstops (mem_of_find?_eq_some hfirst) h (by omega)
    rw [hsame] at hfirst hgate
    obtain ⟨paragraphs, hscan, hin⟩ := (settleGate_eq_ok_iff _).mp ⟨found, hgate⟩
    exact ⟨(find_eq_iff_firstToEnd h).mp hfirst, paragraphs, hscan, (hopen paragraphs) ▸ hin⟩
  · rintro ⟨hfirst, paragraphs, hscan, hin⟩
    obtain ⟨found, hgate⟩ := (settleGate_eq_ok_iff revision.wId).mpr
      ⟨paragraphs, hscan, (hopen paragraphs).trans hin⟩
    have hfound := (hfinds found).mpr ⟨revision, (find_eq_iff_firstToEnd h).mpr hfirst, hgate⟩
    obtain ⟨hgateStart, hgateStop⟩ := settleGate_range hgate
    have hsettled : ∃ settlement, settleOneRevision xml revision.wId action = .ok settlement := by
      rw [settleOneRevision, if_neg hknown, bind_ok hfound]
      exact ⟨_, rfl⟩
    obtain ⟨settlement, hsettled⟩ := hsettled
    exact ⟨found, settlement, hfound, hsettled, hgateStart.trans hstart, hgateStop.trans hstop⟩

end Settles

/-! ## The inventory of a package -/

/-- The revisions of a part that stand in the open: in the document each is the first to end with
its id, and in another part none is. -/
def SettlesApart (part : String) (xml : Bytes) : Prop :=
  ∀ paragraphs, scanDocument xml = .ok paragraphs → ∀ revision ∈ revisionElements xml,
    (revision.resolve xml paragraphs).isOpen = true →
      (FirstToEnd xml revision ↔ part = "word/document.xml")

instance (part : String) (xml : Bytes) : Decidable (SettlesApart part xml) :=
  match hscan : scanDocument xml with
  | .error _ => .isTrue fun _ hok => by rw [hscan] at hok; cases hok
  | .ok paragraphs =>
    decidable_of_iff (∀ revision ∈ revisionElements xml,
        (revision.resolve xml paragraphs).isOpen = true →
          (FirstToEnd xml revision ↔ part = "word/document.xml"))
      ⟨fun h paragraphs' hok => by
        obtain rfl := Except.ok.inj (hscan.symm.trans hok)
        exact h, fun h => h paragraphs hscan⟩

theorem lock_eq_none_iff (revision : LocatedRevision) :
    revision.lock.1.isNone = true ↔ revision.isOpen = true := by
  unfold LocatedRevision.lock LocatedRevision.isOpen
  cases revision.mark <;> cases revision.insideOpaque <;> cases revision.paragraphOpaque <;> decide

theorem revisionEntry_editable_iff (part : String) (revision : LocatedRevision) :
    (revisionEntry part revision).editable = true ↔
      part = "word/document.xml" ∧ revision.isOpen = true := by
  rw [← lock_eq_none_iff]
  unfold revisionEntry
  by_cases hpart : part = "word/document.xml"
  · simp [hpart]
  · simp [hpart]

theorem mem_locateRevisions {partKey part : String} {xml : Bytes} {isDocument : Bool}
    {located : List LocatedRevision}
    (h : locateRevisions partKey xml part isDocument = .ok located) :
    ∃ paragraphs, partParagraphs partKey xml isDocument = .ok paragraphs ∧
      ∀ r, r ∈ located ↔ ∃ q ∈ revisionElements xml, q.resolve xml paragraphs = r := by
  unfold locateRevisions at h
  dsimp only at h
  split at h
  · exact (refuse_ne_ok h).elim
  · obtain ⟨paragraphs, hparagraphs, h⟩ := bind_eq_ok h
    obtain rfl := Except.ok.inj h
    refine ⟨paragraphs, hparagraphs, fun r => ?_⟩
    rw [mem_insertionSort, mem_map]
    rfl

/-- The revisions of one part: what the inventory calls editable is what is settled. -/
theorem settlesApart_iff {name : String} {xml : Bytes} {located : List LocatedRevision}
    {action : String} (h : locateMember name xml = .ok located)
    (haction : action = "accept" ∨ action = "reject") :
    (∀ revision ∈ located, ((revisionEntry name revision).editable = true ↔
        SettlesElement xml action revision)) ↔ SettlesApart name xml := by
  -- an entry stands for an element, and is settled as that element is
  have hentry : ∀ paragraphs, ∀ q ∈ revisionElements xml,
      (SettlesElement xml action (q.resolve xml paragraphs) ↔ SettlesElement xml action q) :=
    fun _ _ _ => Iff.rfl
  unfold locateMember at h
  by_cases hname : name = "word/document.xml"
  · rw [if_pos hname] at h
    obtain ⟨paragraphs, hscan, hmem⟩ := mem_locateRevisions h
    have hscan : scanDocument xml = .ok paragraphs := hscan
    constructor
    · intro hall paragraphs' hscan' q hq hin
      obtain rfl := Except.ok.inj (hscan.symm.trans hscan')
      have hedit := hall _ ((hmem _).mpr ⟨q, hq, rfl⟩)
      rw [revisionEntry_editable_iff, hentry _ q hq, settlesElement_iff hq haction] at hedit
      exact ⟨fun _ => hname, fun _ => (hedit.mp ⟨hname, hin⟩).1⟩
    · intro hapart r hr
      obtain ⟨q, hq, rfl⟩ := (hmem r).mp hr
      rw [revisionEntry_editable_iff, hentry _ q hq, settlesElement_iff hq haction]
      constructor
      · rintro ⟨-, hin⟩
        exact ⟨(hapart paragraphs hscan q hq hin).mpr hname, paragraphs, hscan, hin⟩
      · rintro ⟨-, paragraphs', hscan', hin⟩
        obtain rfl := Except.ok.inj (hscan.symm.trans hscan')
        exact ⟨hname, hin⟩
  · rw [if_neg hname] at h
    obtain ⟨partKey, -, h⟩ := bind_eq_ok h
    obtain ⟨paragraphs, -, hmem⟩ := mem_locateRevisions h
    constructor
    · intro hall paragraphs' hscan' q hq hin
      have hedit := hall _ ((hmem _).mpr ⟨q, hq, rfl⟩)
      rw [revisionEntry_editable_iff, hentry _ q hq, settlesElement_iff hq haction] at hedit
      refine ⟨fun hfirst => ?_, fun hpart => absurd hpart hname⟩
      exact (hedit.mpr ⟨hfirst, paragraphs', hscan', hin⟩).1
    · intro hapart r hr
      obtain ⟨q, hq, rfl⟩ := (hmem r).mp hr
      rw [revisionEntry_editable_iff, hentry _ q hq, settlesElement_iff hq haction]
      constructor
      · rintro ⟨hpart, -⟩
        exact absurd hpart hname
      · rintro ⟨hfirst, paragraphs', hscan', hin⟩
        exact absurd ((hapart paragraphs' hscan' q hq hin).mp hfirst) hname

/-- Every entry is editable exactly if it is settled under its id, when the open revisions of every
part settle apart. -/
theorem editable_iff_settles {crates : Crates} {package : Bytes}
    {parts : List ((String × Bytes) × List LocatedRevision)} {action : String}
    (hparts : locatedParts crates package = .ok parts)
    (haction : action = "accept" ∨ action = "reject") :
    (∀ part ∈ parts, ∀ revision ∈ part.2,
      ((revisionEntry part.1.1 revision).editable = true ↔
        SettlesElement part.1.2 action revision)) ↔
      ∀ part ∈ parts, SettlesApart part.1.1 part.1.2 := by
  obtain ⟨members, -, hread⟩ := bind_eq_ok hparts
  have hlocated : ∀ part ∈ parts, locateMember part.1.1 part.1.2 = .ok part.2 := by
    intro part hpart
    obtain ⟨i, hi, rfl⟩ := List.mem_iff_getElem.mp hpart
    have hall := mapM_eq_ok hread
    have hget := hall.get (by rw [hall.length_eq]; exact hi) hi
    obtain ⟨located, hmember, hpair⟩ := bind_eq_ok hget
    have hpair : (_, located) = parts[i] := Except.ok.inj hpair
    rw [← hpair]
    exact hmember
  refine forall₂_congr fun part hpart => ?_
  have hmember := hlocated part hpart
  obtain ⟨⟨name, xml⟩, located⟩ := part
  dsimp only at hmember ⊢
  exact settlesApart_iff hmember haction

/-! ## Two packages -/

/-- An insertion and a deletion under their own ids. -/
def twoRevisions : Bytes :=
  bytes "<w:document><w:body><w:p><w:ins w:id=\"1\"><w:r><w:t>a</w:t></w:r></w:ins><w:del w:id=\"2\"><w:r><w:delText>b</w:delText></w:r></w:del></w:p></w:body></w:document>"

def twoRevisionsCrates : Crates := storedCrates 0x51d2e6bd twoRevisions

def twoRevisionsPackage : Bytes := storedDocument 0x51d2e6bd twoRevisions

theorem twoRevisions_settle :
    ∃ parts, locatedParts twoRevisionsCrates twoRevisionsPackage = .ok parts ∧
      (parts.map fun part => (part.1, part.2.map (·.wId))) =
        [(("word/document.xml", twoRevisions), [['1'], ['2']])] ∧
      ∀ part ∈ parts, ∀ revision ∈ part.2,
        ((revisionEntry part.1.1 revision).editable = true ↔
          SettlesElement part.1.2 "accept" revision) := by
  have hruns : (locatedParts twoRevisionsCrates twoRevisionsPackage).toOption.map
        (fun parts => parts.map fun part => (part.1, part.2.map (·.wId))) =
        some [(("word/document.xml", twoRevisions), [['1'], ['2']])] ∧
      SettlesApart "word/document.xml" twoRevisions := by
    rw [twoRevisionsCrates, twoRevisionsPackage, twoRevisions, bytes_ofList]
    decide +kernel
  obtain ⟨hlocated, hapart⟩ := hruns
  obtain ⟨parts, hparts, hids⟩ := exists_ok_of_map hlocated
  refine ⟨parts, hparts, hids, (editable_iff_settles hparts (.inl rfl)).mpr fun part hpart => ?_⟩
  have hmem : (part.1, part.2.map (·.wId)) ∈ parts.map fun part => (part.1, part.2.map (·.wId)) :=
    List.mem_map_of_mem hpart
  rw [hids, List.mem_singleton] at hmem
  obtain ⟨hname, -⟩ := Prod.mk.inj hmem
  rw [hname]
  dsimp only
  exact hapart

/-- Two insertions under one id. -/
def sharedId : Bytes :=
  bytes "<w:document><w:body><w:p><w:ins w:id=\"1\"><w:r><w:t>a</w:t></w:r></w:ins><w:ins w:id=\"1\"><w:r><w:t>b</w:t></w:r></w:ins></w:p></w:body></w:document>"

def sharedIdCrates : Crates := storedCrates 0xecd33d59 sharedId

def sharedIdPackage : Bytes := storedDocument 0xecd33d59 sharedId

theorem sharedId_settles_other :
    ¬ ∀ crates package parts action, locatedParts crates package = .ok parts →
      (action = "accept" ∨ action = "reject") → ∀ part ∈ parts, ∀ revision ∈ part.2,
        ((revisionEntry part.1.1 revision).editable = true ↔
          SettlesElement part.1.2 action revision) := by
  intro h
  -- both insertions are editable, and the first one is found for either
  have hlocated : (locatedParts sharedIdCrates sharedIdPackage).toOption.map (fun parts =>
      (parts.map (·.1), parts.flatMap fun part => part.2.map fun revision =>
        (revision.start, revision.wId, (revisionEntry part.1.1 revision).editable))) =
      some ([("word/document.xml", sharedId)], [(25, ['1'], true), (72, ['1'], true)]) := by
    rw [sharedIdCrates, sharedIdPackage, sharedId, bytes_ofList]
    decide +kernel
  have hfind : (findSettleableRevision sharedId ['1']).toOption.map (·.start) = some 25 := by
    rw [sharedId, bytes_ofList]
    decide +kernel
  obtain ⟨parts, hparts, hboth⟩ := exists_ok_of_map hlocated
  obtain ⟨hnames, hentries⟩ := Prod.mk.inj hboth
  have hmem : (72, ['1'], true) ∈ parts.flatMap fun part => part.2.map fun revision =>
      (revision.start, revision.wId, (revisionEntry part.1.1 revision).editable) := by
    rw [hentries]
    simp
  obtain ⟨part, hpart, hmem⟩ := List.mem_flatMap.mp hmem
  obtain ⟨second, hsecond, hentry⟩ := List.mem_map.mp hmem
  obtain ⟨hstart, hid, heditable⟩ : second.start = 72 ∧ second.wId = ['1'] ∧
      (revisionEntry part.1.1 second).editable = true := by simpa using hentry
  have hname : part.1 ∈ parts.map (·.1) := List.mem_map_of_mem hpart
  rw [hnames, List.mem_singleton] at hname
  obtain ⟨found, -, hfound, -, hsame, -⟩ :=
    (h _ _ _ "accept" hparts (.inl rfl) part hpart second hsecond).mp heditable
  obtain ⟨found', hfound', htwentyfive⟩ := exists_ok_of_map hfind
  rw [hname, hid] at hfound
  dsimp only at hfound
  rw [hfound'] at hfound
  obtain rfl := Except.ok.inj hfound
  omega

end Docx2Typed
