import Docx2Typed.XmlWalker.Elements

/-!
# A part without some of its tags

A loop over the tags of a part copies what stands between the ones it drops.  When a tag is dropped
for what its own bytes say (`ReadsOwn`), a part may be cut anywhere in front of a tag and its pieces
cleaned one by one (`dropTags_append`); so the tags that are left are those not dropped, and to drop
twice is to drop once for either reason.
-/

namespace Docx2Typed

open List

/-- The copying loop from a cursor on. -/
def dropFrom (xml : Bytes) (drops : Tag → Bool) : Nat → List Tag → Bytes
  | cursor, [] => xml.drop cursor
  | cursor, tag :: rest =>
    if drops tag then slice xml cursor tag.start ++ dropFrom xml drops tag.stop rest
    else dropFrom xml drops cursor rest

def dropTags (drops : Bytes → Tag → Bool) (xml : Bytes) : Bytes :=
  dropFrom xml (drops xml) 0 (scanTags xml)

/-- A tag is judged by its name, its form and its own bytes, wherever it stands. -/
def ReadsOwn (drops : Bytes → Tag → Bool) : Prop :=
  ∃ judge : String → Bool → Bool → Bytes → Bool, ∀ xml tag,
    drops xml tag = judge tag.name tag.closing tag.selfClosing (slice xml tag.start tag.stop)

section Dropped

variable {p q : Bytes → Tag → Bool} {a b xml token : Bytes} {tag : Tag}

theorem ReadsOwn.moved (h : ReadsOwn p) (a b : Bytes) (tag : Tag) :
    p (a ++ b) (tag.moved a.length) = p b tag := by
  obtain ⟨judge, hjudge⟩ := h
  rw [hjudge, hjudge, Tag.moved, slice_append_right]

theorem ReadsOwn.left (h : ReadsOwn p) (b : Bytes) (hstop : tag.stop ≤ a.length) :
    p (a ++ b) tag = p a tag := by
  obtain ⟨judge, hjudge⟩ := h
  rw [hjudge, hjudge, slice_append_left _ _ hstop]

theorem ReadsOwn.or (hp : ReadsOwn p) (hq : ReadsOwn q) :
    ReadsOwn fun xml tag => p xml tag || q xml tag := by
  obtain ⟨judge, hjudge⟩ := hp
  obtain ⟨judge', hjudge'⟩ := hq
  exact ⟨fun name closing selfClosing token =>
    judge name closing selfClosing token || judge' name closing selfClosing token,
    fun xml tag => by
      show (p xml tag || q xml tag) = _
      rw [hjudge, hjudge']⟩

/-- The loop in the second of two pieces. -/
theorem dropFrom_moved (hp : ReadsOwn p) (a b : Bytes) (tags : List Tag) (cursor : Nat) :
    dropFrom (a ++ b) (p (a ++ b)) (a.length + cursor) (tags.map (Tag.moved a.length)) =
      dropFrom b (p b) cursor tags := by
  induction tags generalizing cursor with
  | nil => exact drop_length_add_append cursor
  | cons tag tags ih =>
    rw [map_cons, dropFrom, dropFrom, hp.moved, ih cursor, ← ih tag.stop,
      ← slice_append_right a b cursor tag.start]
    rfl

/-- The loop that enters the second piece with a rest of the first one. -/
theorem dropFrom_into (hp : ReadsOwn p) (b : Bytes) {cursor : Nat} (hcursor : cursor ≤ a.length)
    (tags : List Tag) :
    dropFrom (a ++ b) (p (a ++ b)) cursor (tags.map (Tag.moved a.length)) =
      a.drop cursor ++ dropFrom b (p b) 0 tags := by
  induction tags with
  | nil => exact drop_append_of_le_length hcursor
  | cons tag tags ih =>
    rw [map_cons, dropFrom, dropFrom, hp.moved, ih]
    have hstep := dropFrom_moved hp a b tags tag.stop
    have hslice : slice (a ++ b) cursor (a.length + tag.start) = a.drop cursor ++ slice b 0 tag.start := by
      rw [slice, take_length_add_append, drop_append_of_le_length hcursor]
      rfl
    split
    · show slice (a ++ b) cursor (a.length + tag.start) ++
        dropFrom (a ++ b) (p (a ++ b)) (a.length + tag.stop) _ = _
      rw [hslice, hstep, append_assoc]
    · rfl

/-- The tags of two pieces side by side. -/
theorem scanTags_append (ha : Complete a) (b : Bytes) :
    scanTags (a ++ b) = scanTags a ++ (scanTags b).map (Tag.moved a.length) := by
  rw [scanTags_eq_scanAt, ha b, Nat.zero_add, scanAt_eq_map a.length, scanTags_eq_scanAt a]

theorem inside_scanTags (htag : tag ∈ scanTags a) : tag.start ≤ a.length ∧ tag.stop ≤ a.length := by
  have := (ordered_scanTags a).inside tag htag
  omega

/-- Pieces are cleaned one by one. -/
theorem dropTags_append (hp : ReadsOwn p) (ha : Complete a) (b : Bytes) :
    dropTags p (a ++ b) = dropTags p a ++ dropTags p b := by
  have hpieces : ∀ (tags : List Tag) (cursor : Nat), cursor ≤ a.length →
      (∀ tag ∈ tags, tag.start ≤ a.length ∧ tag.stop ≤ a.length) →
        dropFrom (a ++ b) (p (a ++ b)) cursor (tags ++ (scanTags b).map (Tag.moved a.length)) =
          dropFrom a (p a) cursor tags ++ dropTags p b := by
    intro tags
    induction tags with
    | nil => exact fun cursor hcursor _ => dropFrom_into hp b hcursor (scanTags b)
    | cons tag tags ih =>
      intro cursor hcursor hin
      obtain ⟨⟨hstart, hstop⟩, hin⟩ := forall_mem_cons.mp hin
      rw [cons_append, dropFrom, dropFrom, hp.left b hstop, ih _ hstop hin, ih _ hcursor hin,
        slice_append_left _ _ hstart]
      split
      · exact (append_assoc _ _ _).symm
      · rfl
  rw [dropTags, scanTags_append ha]
  exact hpieces _ 0 (Nat.zero_le _) fun tag => inside_scanTags

theorem dropTags_of_none (h : ∀ tag ∈ scanTags xml, p xml tag = false) : dropTags p xml = xml := by
  have hnone : ∀ tags : List Tag, (∀ tag ∈ tags, p xml tag = false) →
      dropFrom xml (p xml) 0 tags = xml := by
    intro tags
    induction tags with
    | nil => exact fun _ => drop_zero
    | cons tag tags ih =>
      intro htags
      obtain ⟨htag, htags⟩ := forall_mem_cons.mp htags
      rw [dropFrom, htag, if_neg Bool.false_ne_true, ih htags]
  exact hnone _ h

/-- A tag by itself. -/
theorem dropTags_token (htags : scanTags token = [{ tag with start := 0, stop := token.length }]) :
    dropTags p token =
      if p token { tag with start := 0, stop := token.length } then [] else token := by
  rw [dropTags, htags, dropFrom, dropFrom, dropFrom]
  split
  · rw [slice, take_zero, drop_nil, nil_append, drop_length]
  · rw [drop_zero]

/-! ## What is left -/

/-- The first tag of a part, cut out of it. -/
structure FirstTag (xml gap token rest : Bytes) (tag : Tag) : Prop where
  whole : xml = gap ++ (token ++ rest)
  gap_complete : Complete gap
  gap_tags : scanTags gap = []
  isToken : IsToken token
  token_tags : scanTags token = [{ tag with start := 0, stop := token.length }]
  parses : tokenTag token = some { tag with start := 0, stop := 0 }
  length_rest : (scanTags rest).length + 1 = (scanTags xml).length

theorem exists_firstTag {after : List Tag} (h : scanTags xml = tag :: after) :
    ∃ gap token rest, FirstTag xml gap token rest tag := by
  obtain ⟨gap, token, rest, rfl, hgap, htoken, hnone, -, -, hparse, hafter⟩ :=
    exists_split_of_scanAt (show scanAt 0 xml = [] ++ tag :: after from h)
  refine ⟨gap, token, rest, rfl, hgap, hnone, htoken, scanTags_token htoken hparse,
    tokenTag_of_parseTag hparse, ?_⟩
  rw [h, length_cons, ← hafter, scanAt_eq_map, length_map]

/-- Induction on the tags of a part, first to last. -/
theorem tags_induction {motive : Bytes → Prop}
    (none : ∀ xml, scanTags xml = [] → motive xml)
    (first : ∀ xml gap token rest tag, FirstTag xml gap token rest tag → motive rest → motive xml)
    (xml : Bytes) : motive xml := by
  induction hlen : (scanTags xml).length generalizing xml with
  | zero => exact none xml (length_eq_zero_iff.mp hlen)
  | succ n ih =>
    obtain ⟨tag, after, htags⟩ := exists_cons_of_length_eq_add_one hlen
    obtain ⟨gap, token, rest, hfirst⟩ := exists_firstTag htags
    have hrest := hfirst.length_rest
    exact first xml gap token rest tag hfirst (ih rest (by omega))

theorem FirstTag.dropTags_eq {gap rest : Bytes} (h : FirstTag xml gap token rest tag)
    (hp : ReadsOwn p) : dropTags p xml =
      gap ++ ((if p token { tag with start := 0, stop := token.length } then [] else token) ++
        dropTags p rest) := by
  have hgap : dropTags p gap = gap := dropTags_of_none (by simp [h.gap_tags])
  rw [h.whole, dropTags_append hp h.gap_complete, dropTags_append hp (complete_token h.isToken),
    hgap, dropTags_token h.token_tags]

/-- The tags of a part that are not dropped, as they are written. -/
def keptTokens (p : Bytes → Tag → Bool) (xml : Bytes) : List Bytes :=
  ((scanTags xml).filter fun tag => !p xml tag).map fun tag => slice xml tag.start tag.stop

theorem keptTokens_append (hp : ReadsOwn p) (ha : Complete a) (b : Bytes) :
    keptTokens p (a ++ b) = keptTokens p a ++ keptTokens p b := by
  have hleft : ((scanTags a).filter fun tag => !p (a ++ b) tag).map
      (fun tag => slice (a ++ b) tag.start tag.stop) = keptTokens p a := by
    rw [keptTokens,
      filter_congr fun tag htag => congrArg Bool.not (hp.left b (inside_scanTags htag).2)]
    exact map_congr_left fun tag htag =>
      slice_append_left _ _ (inside_scanTags (mem_of_mem_filter htag)).2
  have hright : (((scanTags b).map (Tag.moved a.length)).filter fun tag => !p (a ++ b) tag).map
      (fun tag => slice (a ++ b) tag.start tag.stop) = keptTokens p b := by
    rw [filter_map, map_map]
    refine congrArg₂ List.map (funext fun tag => ?_) (filter_congr fun tag _ => ?_)
    · exact slice_append_right a b tag.start tag.stop
    · exact congrArg Bool.not (hp.moved a b tag)
  rw [keptTokens, scanTags_append ha, filter_append, map_append, hleft, hright]

theorem slice_whole (token : Bytes) : slice token 0 token.length = token := by
  rw [slice, take_length, drop_zero]

theorem keptTokens_token (htags : scanTags token = [{ tag with start := 0, stop := token.length }]) :
    keptTokens p token =
      if p token { tag with start := 0, stop := token.length } then [] else [token] := by
  rw [keptTokens, htags, filter_cons, filter_nil]
  cases p token { tag with start := 0, stop := token.length } with
  | true => rfl
  | false => exact congrArg (fun token => [token]) (slice_whole token)

/-- The tags that are left are the ones not dropped. -/
theorem tagTokens_dropTags (hp : ReadsOwn p) (xml : Bytes) :
    tagTokens (dropTags p xml) = keptTokens p xml := by
  induction xml using tags_induction with
  | none xml hnone => rw [dropTags_of_none (by simp [hnone]), tagTokens, keptTokens, hnone]; rfl
  | first xml gap token rest tag hfirst ih =>
    have hgap : tagTokens gap = [] ∧ keptTokens p gap = [] := by
      rw [tagTokens, keptTokens, hfirst.gap_tags]
      exact ⟨rfl, rfl⟩
    have htoken := complete_token hfirst.isToken
    rw [hfirst.dropTags_eq hp, tagTokens_append hfirst.gap_complete, hgap.1, hfirst.whole,
      keptTokens_append hp hfirst.gap_complete, hgap.2, keptTokens_append hp htoken,
      keptTokens_token hfirst.token_tags]
    split
    · exact ih
    · rw [tagTokens_append htoken, tagTokens_token hfirst.isToken hfirst.parses, ih]

/-- To drop twice is to drop once for either reason. -/
theorem dropTags_dropTags (hp : ReadsOwn p) (hq : ReadsOwn q) (xml : Bytes) :
    dropTags q (dropTags p xml) = dropTags (fun xml tag => p xml tag || q xml tag) xml := by
  induction xml using tags_induction with
  | none xml hnone =>
    have hkept : ∀ drops, dropTags drops xml = xml := fun drops =>
      dropTags_of_none (by simp [hnone])
    rw [hkept, hkept, hkept]
  | first xml gap token rest tag hfirst ih =>
    have hgap : dropTags q gap = gap := dropTags_of_none (by simp [hfirst.gap_tags])
    rw [hfirst.dropTags_eq hp, hfirst.dropTags_eq (hp.or hq), dropTags_append hq hfirst.gap_complete,
      hgap, ← ih]
    cases hdrop : p token { tag with start := 0, stop := token.length } with
    | true => rfl
    | false =>
      rw [if_neg Bool.false_ne_true, dropTags_append hq (complete_token hfirst.isToken),
        dropTags_token hfirst.token_tags, Bool.false_or]

end Dropped

end Docx2Typed
