import Docx2Typed.Style.Kids

/-!
# Overrides over a whole request

A restyled fragment is read again, so a row of overrides acts on its children alone.
-/

namespace Docx2Typed

open Library.Utf8 (decodeLossy)
open List

/-! ## The tags around the children -/

/-- The opening tag, without its end, is that of an `rPr` in open form. -/
structure RprFragment.StartsPlain (f : RprFragment) : Prop where
  isToken : IsToken f.openForm
  opens : ∃ o, tokenTag f.openForm = some o ∧ o.bracket = .opens "rPr" ∧ o.rawName = f.root.rawName
  last : ∀ c ∈ (RprFragment.trimmedBody
    (decodeLossy (slice f.bytes f.root.openStart f.root.openEnd))).getLast?, c ≠ '>' ∧ c ≠ '/'

theorem trimmedBody_append {text : Text}
    (h : ∀ c ∈ (RprFragment.trimmedBody text).getLast?, c ≠ '>' ∧ c ≠ '/') :
    RprFragment.trimmedBody (RprFragment.trimmedBody text ++ ['>']) =
      RprFragment.trimmedBody text := by
  set body := RprFragment.trimmedBody text with hbody
  have hspace : body.rdropWhile isUnicodeWhitespace = body := rdropWhile_idempotent _ _
  have hkept : ∀ {p : Char → Bool}, (∀ c, c ≠ '>' ∧ c ≠ '/' → p c = false) →
      body.rdropWhile p = body := by
    intro p hp
    rw [rdropWhile_eq_self_iff]
    intro hne
    simp [hp _ (h _ (getLast?_eq_some_getLast hne))]
  rw [RprFragment.trimmedBody, rdropWhile_concat_neg _ _ _ (by decide),
    rdropWhile_concat_pos _ _ _ (by decide), hkept (by simp +contextual), hspace,
    hkept (by simp +contextual), hspace]

theorem isBlankRpr_lt (rest : Bytes) : isBlankRpr (byte '<' :: rest) = false := by
  have hdecode := Library.Utf8.decodeChar_encodeChar_append '<' rest
  have hbyte : String.utf8EncodeChar '<' ++ rest = byte '<' :: rest := rfl
  rw [hbyte] at hdecode
  rw [isBlankRpr, decodeLossy, length_cons, Library.Utf8.decodeLossyFuel, hdecode]
  rfl

theorem name_of_parseTag {token : Bytes} {start stop : Nat} {tag : Tag}
    (h : parseTag token start stop = some tag) : tag.name = localName tag.rawName := by
  dsimp only [parseTag] at h
  split_ifs at h
  · rw [← Option.some.inj h]
  · rw [← Option.some.inj h]

theorem IsToken.exists_cons {token : Bytes} (h : IsToken token) :
    ∃ rest, token = byte '<' :: rest := by
  cases token with
  | nil => exact absurd h.head (by simp)
  | cons b rest => exact ⟨rest, by rw [Option.some.inj h.head]⟩

variable {f : RprFragment}

theorem RprFragment.closeForm_eq {raw : Bytes} (hraw : NameBytes raw)
    (hroot : f.root.rawName = asciiString raw) : f.closeForm = endTag raw := by
  have hends : utf8 ['<', '/'] = [byte '<', byte '/'] ∧ utf8 ['>'] = [byte '>'] := by decide
  rw [closeForm, utf8_append, utf8_append, hroot, utf8_asciiString hraw, hends.1, hends.2]
  simp [endTag]

theorem RprFragment.Rows.reads_newItems {lead opening tail rear : Bytes} {items : List Item}
    (h : f.Rows lead opening items tail rear) {name : String} {element : Option Bytes}
    (helement : ∀ text ∈ element, IsElement text name true) :
    (∀ x ∈ (newItems name element items).1, x.Reads) ∧ IsGap (newItems name element items).2 := by
  refine reads_rebuiltItems element ?_ isGap_nil helement
  cases items with
  | nil => simp [withoutFirstGap]
  | cons x items =>
    obtain ⟨hx, hitems⟩ := forall_mem_cons.mp h.reads
    exact forall_mem_cons.mpr ⟨⟨isGap_nil.1, isGap_nil.2, hx.element⟩, hitems⟩

/-- What `restyled` writes is a fragment again, of the children asked for. -/
theorem RprFragment.reads_restyled {rpr : Bytes} {f : RprFragment}
    (h : RprFragment.read rpr = .ok f) (hplain : f.StartsPlain) {name : String}
    {element : Option Bytes}
    (helement : ∀ text ∈ element, IsElement text name true) :
    ∃ f', RprFragment.read (f.restyled name element) = .ok f' ∧
      f'.kids = replaceChild name (element.map fun text => ⟨name, text, true⟩) f.kids ∧
      f'.root.rawName = f.root.rawName ∧ f'.StartsPlain := by
  obtain ⟨lead, opening, items, tail, rear, hrows⟩ := RprFragment.exists_rows h
  obtain ⟨o, hopening, hopens, hrawName⟩ := hplain.opens
  obtain ⟨raw, hne, hraw, hname⟩ := exists_nameBytes hopening
  have hroot : f.root.rawName = asciiString raw := hrawName.symm.trans hname
  have hlocal : localName (asciiString raw) = "rPr" := by
    rw [← hname, ← name_of_parseTag hopening]
    exact (bracket_opens hopens).2.2
  obtain ⟨hreads, hlast⟩ := hrows.reads_newItems helement
  have hclosing : tokenTag f.closeForm = some
      { name := localName (asciiString raw), rawName := asciiString raw, closing := true
        selfClosing := false, start := 0, stop := 0 } := by
    rw [f.closeForm_eq hraw hroot]
    exact tokenTag_endTag hraw hne
  have hcloseToken : IsToken f.closeForm := by
    rw [f.closeForm_eq hraw hroot]
    exact isToken_endTag hraw
  obtain ⟨f', hok, hbytes, hspans, hstart, hend, hname'⟩ := RprFragment.ofBytes_of_rows
    hplain.isToken hcloseToken hopening hclosing hopens (by simp [Tag.bracket, hlocal]) hreads
    (hlast.append ⟨hrows.whole, hrows.noTag⟩)
  have hrestyled : f.restyled name element = f.openForm ++
      (itemsBytes (newItems name element items).1 ++
        ((newItems name element items).2 ++ tail ++ f.closeForm)) := by
    rw [hrows.restyled_eq name element]
    simp
  have hread : RprFragment.read (f.restyled name element) = .ok f' := by
    obtain ⟨rest, hrest⟩ := hplain.isToken.exists_cons
    have hblank : isBlankRpr (f.restyled name element) = false := by
      rw [hrestyled, hrest]
      exact isBlankRpr_lt _
    rw [RprFragment.read, hblank, if_neg Bool.false_ne_true, hrestyled, hok]
  have hbody : RprFragment.trimmedBody
      (decodeLossy (slice f'.bytes f'.root.openStart f'.root.openEnd)) = RprFragment.trimmedBody
        (decodeLossy (slice f.bytes f.root.openStart f.root.openEnd)) := by
    have hslice : slice f'.bytes f'.root.openStart f'.root.openEnd = f.openForm := by
      rw [hbytes, hstart, hend, slice, take_left, drop_zero]
    rw [hslice, RprFragment.openForm, utf8, Library.Utf8.decodeLossy_encode,
      trimmedBody_append hplain.last]
  have hform : f'.openForm = f.openForm := congrArg (fun body => utf8 (body ++ ['>'])) hbody
  refine ⟨f', hread, ?_, hname'.trans hrawName, ?_⟩
  · rw [f'.kids_eq hbytes hspans, f.kids_eq (A := lead ++ opening) (R := tail ++ rear)
      (by rw [hrows.bytes, append_assoc]) hrows.spans, newItems, child_rebuiltItems,
      child_withoutFirstGap]
  · constructor
    · rw [hform]
      exact hplain.isToken
    · refine ⟨o, ?_, hopens, hname'.symm⟩
      rw [hform]
      exact hopening
    · rw [hbody]
      exact hplain.last

/-! ## What a request asks for -/

namespace Override

def name : Override → String
  | .clear name => name
  | .place name _ => name

/-- The child a request puts in. -/
def child (qualifier : Text) : Override → Option RprChild
  | .clear _ => none
  | .place name attributes => some ⟨name, renderEmptyElement qualifier name attributes, true⟩

/-- Whether the child is of the value asked for. -/
def isValue (attributes : List (String × Text)) (x : RprChild) : Bool :=
  x.bare && tagAttributePairs x.written == attributes

/-- The property is of exactly the value asked for. -/
def Holds (kids : List RprChild) : Override → Prop
  | .clear name => ∀ x ∈ kids, x.name ≠ name
  | .place name attributes =>
    (∃ x ∈ kids, x.name = name) ∧ ∀ x ∈ kids, x.name = name → isValue attributes x = true

/-- What is compared with the request: the first child of the name. -/
def inForce (kids : List RprChild) : Override → Bool
  | .clear name => (kids.find? (·.name == name)).isNone
  | .place name attributes => (kids.find? (·.name == name)).any (isValue attributes)

/-- The first child of the name speaks for the others. -/
def Undisputed (kids : List RprChild) : Override → Prop
  | .clear _ => True
  | .place name attributes => (kids.find? (·.name == name)).any (isValue attributes) = true →
      ∀ x ∈ kids, x.name = name → isValue attributes x = true

variable {kids : List RprChild} {r : Override}

theorem holds_of_inForce (h : r.inForce kids = true) (hfirst : r.Undisputed kids) :
    r.Holds kids := by
  cases r with
  | clear name =>
    intro x hx hname
    rw [inForce, Option.isNone_iff_eq_none, find?_eq_none] at h
    exact h x hx (by simpa using hname)
  | place name attributes =>
    refine ⟨?_, hfirst h⟩
    obtain ⟨x, hx, -⟩ := (Option.any_eq_true _ _).mp h
    exact ⟨x, mem_of_find?_eq_some hx, by simpa using find?_some hx⟩

theorem Holds.inForce (h : r.Holds kids) : r.inForce kids = true := by
  cases r with
  | clear name =>
    rw [Override.inForce, Option.isNone_iff_eq_none, find?_eq_none]
    intro x hx
    simpa using h x hx
  | place name attributes =>
    obtain ⟨⟨x, hx, hname⟩, hall⟩ := h
    have hsome : (kids.find? (·.name == name)).isSome :=
      find?_isSome.mpr ⟨x, hx, by simpa using hname⟩
    obtain ⟨y, hy⟩ := Option.isSome_iff_exists.mp hsome
    refine (Option.any_eq_true _ _).mpr ⟨y, hy, ?_⟩
    exact hall y (mem_of_find?_eq_some hy) (by simpa using find?_some hy)

theorem Holds.undisputed (h : r.Holds kids) : r.Undisputed kids := by
  cases r with
  | clear name => trivial
  | place name attributes => exact fun _ => h.2

/-- A request looks at the children of its name only. -/
theorem holds_iff_filter : r.Holds kids ↔ r.Holds (kids.filter (·.name == r.name)) := by
  cases r with
  | clear name => simp [Holds, Override.name]
  | place name attributes =>
    simp only [Holds, Override.name, mem_filter, beq_iff_eq]
    constructor
    · rintro ⟨⟨x, hx, hname⟩, hall⟩
      exact ⟨⟨x, ⟨hx, hname⟩, hname⟩, fun y hy => hall y hy.1⟩
    · rintro ⟨⟨x, ⟨hx, -⟩, hname⟩, hall⟩
      exact ⟨⟨x, hx, hname⟩, fun y hy hyname => hall y ⟨hy, hyname⟩ hyname⟩

theorem undisputed_iff_filter :
    r.Undisputed kids ↔ r.Undisputed (kids.filter (·.name == r.name)) := by
  cases r with
  | clear name => exact Iff.rfl
  | place name attributes =>
    have hfind : (kids.filter (·.name == name)).find? (·.name == name) =
        kids.find? (·.name == name) := by
      simp only [find?_filter, and_self, Bool.decide_eq_true]
    simp only [Undisputed, Override.name, hfind, mem_filter, beq_iff_eq]
    constructor
    · intro h hfirst x hx
      exact h hfirst x hx.1
    · intro h hfirst x hx hname
      exact h hfirst x ⟨hx, hname⟩ hname

/-- What a request makes of the children. -/
def effect (qualifier : Text) (kids : List RprChild) (r : Override) : List RprChild :=
  if r.inForce kids then kids else replaceChild r.name (r.child qualifier) kids

theorem child_name (qualifier : Text) (r : Override) :
    ∀ x ∈ r.child qualifier, x.name = r.name := by
  cases r with
  | clear name => simp [child]
  | place name attributes =>
    intro x hx
    rw [← Option.some.inj hx]
    rfl

theorem filter_effect (qualifier : Text) {p : RprChild → Bool}
    (hp : ∀ x, p x = true → x.name ≠ r.name) :
    (effect qualifier kids r).filter p = kids.filter p := by
  unfold effect
  split
  · rfl
  · exact filter_replaceChild hp (r.child_name qualifier)

theorem inSchemaOrder_effect (qualifier : Text) (h : InSchemaOrder kids) :
    InSchemaOrder (effect qualifier kids r) := by
  unfold effect
  split
  · exact h
  · exact inSchemaOrder_replaceChild (r.child_name qualifier) h

/-- Behind a request the property is of the value asked for. -/
theorem holds_effect {f : RprFragment} {raw : Bytes} (hraw : NameBytes raw)
    (hroot : f.root.rawName = asciiString raw) (hsound : r.Sound) (hfirst : r.Undisputed kids) :
    r.Holds (effect f.qualifier kids r) := by
  unfold effect
  split
  next h => exact holds_of_inForce h hfirst
  next =>
    cases r with
    | clear name =>
      intro x hx hname
      have hnone := mem_replaceChild_name hx hname
      simp [child] at hnone
    | place name attributes =>
      have hpairs := (reads_rendered hraw hroot hsound).2
      set new : RprChild := ⟨name, renderEmptyElement f.qualifier name attributes, true⟩
      have hvalue : isValue attributes new = true := by simp [isValue, new, hpairs]
      have hslot : InSlot new (replaceChild name (some new) kids) := inSlot_replaceChild
      obtain ⟨before, behind, hkids, -, -⟩ := hslot
      refine ⟨⟨new, ?_, rfl⟩, ?_⟩
      · show new ∈ replaceChild name (some new) kids
        rw [hkids]
        exact mem_append_right _ mem_cons_self
      · intro x hx hname
        rw [← Option.some.inj (mem_replaceChild_name hx hname)]
        exact hvalue

end Override

/-! ## One entry -/

theorem RprFragment.find_kids (f : RprFragment) (name : String) :
    f.kids.find? (·.name == name) = (f.child name).map fun child =>
      ⟨child.name, slice f.bytes child.openStart child.stop, child.children.isEmpty⟩ := by
  rw [kids, find?_map, RprFragment.child]
  rfl

/-- Nothing is written when the first child is of the value asked for. -/
theorem RprFragment.override_eq_none_iff (f : RprFragment) (r : Override) :
    f.override r = none ↔ r.inForce f.kids = true := by
  cases r with
  | clear name =>
    rw [override, Override.inForce, f.find_kids]
    cases f.child name with
    | none => simp
    | some child => simp
  | place name attributes =>
    rw [override, Override.inForce, f.find_kids, childAttributes]
    cases f.child name with
    | none => simp
    | some child =>
      cases hchildren : child.children with
      | nil => simp [Override.isValue, hchildren]
      | cons i rest => simp [Override.isValue, hchildren]

variable {r : Override}

theorem RprFragment.override_of_not_inForce (h : ¬ r.inForce f.kids = true) : f.override r =
      some (f.restyled r.name ((r.child f.qualifier).map (·.written))) := by
  rw [← f.override_eq_none_iff] at h
  cases r with
  | clear name =>
    rw [override] at h ⊢
    split at h
    · exact absurd rfl h
    next hchild => rw [if_neg hchild]; rfl
  | place name attributes =>
    rw [override] at h ⊢
    split at h
    · exact absurd rfl h
    next hchild => rw [if_neg hchild]; rfl

/-- What a request puts in is one element of its name. -/
theorem RprFragment.isElement_child {raw : Bytes} (hraw : NameBytes raw)
    (hroot : f.root.rawName = asciiString raw) (hsound : r.Sound) :
    ∀ text ∈ (r.child f.qualifier).map (·.written), IsElement text r.name true := by
  cases r with
  | clear name => simp [Override.child]
  | place name attributes =>
    intro text htext
    rw [← Option.some.inj htext]
    exact (reads_rendered hraw hroot hsound).1

/-- One entry acts on the children alone. -/
theorem RprFragment.reads_override {rpr : Bytes} (h : RprFragment.read rpr = .ok f)
    (hplain : f.StartsPlain) (hsound : r.Sound) :
    ∃ f', RprFragment.read ((f.override r).getD rpr) = .ok f' ∧
      f'.kids = Override.effect f.qualifier f.kids r ∧ f'.root.rawName = f.root.rawName ∧
      f'.StartsPlain := by
  rw [Override.effect]
  by_cases hforce : r.inForce f.kids = true
  · rw [if_pos hforce, (f.override_eq_none_iff r).mpr hforce]
    exact ⟨f, h, rfl, rfl, hplain⟩
  rw [if_neg hforce, override_of_not_inForce hforce]
  obtain ⟨o, hopening, -, hrawName⟩ := hplain.opens
  obtain ⟨raw, -, hraw, hname⟩ := exists_nameBytes hopening
  have helement := f.isElement_child hraw (hrawName.symm.trans hname) hsound
  obtain ⟨f', hread, hkids, hrest⟩ := RprFragment.reads_restyled h hplain helement
  refine ⟨f', hread, ?_, hrest⟩
  rw [hkids, Option.map_map]
  cases r with
  | clear name => rfl
  | place name attributes => rfl

end Docx2Typed
