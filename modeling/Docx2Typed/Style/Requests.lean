import Docx2Typed.Style.Opened

/-!
# A request of several overrides

`rpr_with_overrides` carries out a whole request when the first child of each property speaks for
the other children of its name.
-/

namespace Docx2Typed

open Library.Utf8 (decodeLossy)
open List

/-! ## A row of overrides -/

namespace Override

variable {qualifier : Text}

theorem filter_foldl_effect {p : RprChild → Bool} : ∀ {requests : List Override}
    (kids : List RprChild), (∀ r ∈ requests, ∀ x, p x = true → x.name ≠ r.name) →
      (requests.foldl (effect qualifier) kids).filter p = kids.filter p
  | [], _, _ => rfl
  | r :: requests, kids, h => by
    obtain ⟨hr, hrest⟩ := forall_mem_cons.mp h
    rw [foldl_cons, filter_foldl_effect _ hrest, filter_effect qualifier hr]

theorem inSchemaOrder_foldl_effect : ∀ {requests : List Override} {kids : List RprChild},
    InSchemaOrder kids → InSchemaOrder (requests.foldl (effect qualifier) kids)
  | [], _, h => h
  | r :: requests, kids, h => by
    have hr : InSchemaOrder (effect qualifier kids r) := inSchemaOrder_effect qualifier h
    rw [foldl_cons]
    exact inSchemaOrder_foldl_effect hr

/-- The requests are about different properties. -/
def Distinct (requests : List Override) : Prop :=
  requests.Pairwise fun r r' => r.name ≠ r'.name

theorem holds_foldl_effect {f : RprFragment} {raw : Bytes} (hraw : NameBytes raw)
    (hroot : f.root.rawName = asciiString raw) :
    ∀ {requests : List Override} {kids : List RprChild},
    Distinct requests → (∀ r ∈ requests, r.Sound) → (∀ r ∈ requests, r.Undisputed kids) →
      ∀ r ∈ requests, r.Holds (requests.foldl (effect f.qualifier) kids)
  | [], _, _, _, _ => by simp
  | r :: requests, kids, hdistinct, hsound, hfirst => by
    obtain ⟨hr, hrest⟩ := pairwise_cons.mp hdistinct
    obtain ⟨hrsound, hsound⟩ := forall_mem_cons.mp hsound
    obtain ⟨hrfirst, hfirst⟩ := forall_mem_cons.mp hfirst
    refine forall_mem_cons.mpr ⟨?_, ?_⟩
    · -- the later requests leave the children of this name alone
      rw [holds_iff_filter, foldl_cons, filter_foldl_effect, ← holds_iff_filter]
      · exact holds_effect hraw hroot hrsound hrfirst
      · intro r' hr' x hx
        rw [beq_iff_eq.mp hx]
        exact hr r' hr'
    · refine holds_foldl_effect hraw hroot hrest hsound fun r' hr' => ?_
      rw [undisputed_iff_filter, filter_effect, ← undisputed_iff_filter]
      · exact hfirst r' hr'
      · intro x hx
        rw [beq_iff_eq.mp hx]
        exact (hr r' hr').symm

/-- A property in force keeps its children. -/
theorem undisputed_of_holds_foldl : ∀ {requests : List Override} {kids : List RprChild},
    Distinct requests → (∀ r ∈ requests, r.Holds (requests.foldl (effect qualifier) kids)) →
      ∀ r ∈ requests, r.Undisputed kids
  | [], _, _, _ => by simp
  | r :: requests, kids, hdistinct, hholds => by
    obtain ⟨hr, hrest⟩ := pairwise_cons.mp hdistinct
    obtain ⟨hrholds, hholds⟩ := forall_mem_cons.mp hholds
    refine forall_mem_cons.mpr ⟨?_, ?_⟩
    · rw [holds_iff_filter, foldl_cons, filter_foldl_effect, ← holds_iff_filter] at hrholds
      · cases r with
        | clear name => trivial
        | place name attributes =>
          intro hforce
          have hinForce : inForce kids (.place name attributes) = true := hforce
          rw [effect, if_pos hinForce] at hrholds
          exact hrholds.2
      · intro r' hr' x hx
        rw [beq_iff_eq.mp hx]
        exact hr r' hr'
    · intro r' hr'
      have h := undisputed_of_holds_foldl hrest hholds r' hr'
      rw [undisputed_iff_filter, filter_effect, ← undisputed_iff_filter] at h
      · exact h
      · intro x hx
        rw [beq_iff_eq.mp hx]
        exact (hr r' hr').symm

end Override

/-! ## Runs -/

/-- What the entries of a request ask for, one by one. -/
def Asks (texts : QuoteTexts) : List (String × AttributeValue) → List Override → Prop :=
  List.Forall₂ fun entry r => readOverride texts entry.1 entry.2 = .ok r

/-- The keys of a request and the properties they are about. -/
def propertyKeys : List (String × String) :=
  [("vertAlign", "vertAlign"), ("bold", "b"), ("italic", "i")]

theorem propertyKeys_injective : ∀ p ∈ propertyKeys, ∀ q ∈ propertyKeys, p.2 = q.2 → p.1 = q.1 := by
  decide

variable {texts : QuoteTexts}

theorem name_of_readOverride {key : String} {value : AttributeValue} {r : Override}
    (h : readOverride texts key value = .ok r) : (key, r.name) ∈ propertyKeys := by
  have htoggle : ∀ {key name : String}, readToggle texts key name value = .ok r →
      r.name = name := by
    intro key name h
    cases value with
    | bool enabled => rw [← Except.ok.inj h]; rfl
    | null => exact absurd h refuse_ne_ok
    | string value => exact absurd h refuse_ne_ok
    | other => exact absurd h refuse_ne_ok
  rw [readOverride] at h
  split at h
  next hkey =>
    have hname : r.name = "vertAlign" := by
      cases value with
      | null => rw [← Except.ok.inj h]; rfl
      | bool enabled => exact absurd h refuse_ne_ok
      | other => exact absurd h refuse_ne_ok
      | string value =>
        rw [readVertAlign] at h
        split at h
        · rw [← Except.ok.inj h]; rfl
        split at h
        · rw [← Except.ok.inj h]; rfl
        · exact absurd h refuse_ne_ok
    simp [propertyKeys, hkey, hname]
  split at h
  next hkey => simp [propertyKeys, hkey, htoggle h]
  split at h
  next hkey => simp [propertyKeys, hkey, htoggle h]
  · exact absurd h refuse_ne_ok

variable {entries : List (String × AttributeValue)} {requests : List Override}

theorem exists_entry (h : Asks texts entries requests) {r : Override} (hr : r ∈ requests) :
    ∃ entry ∈ entries, readOverride texts entry.1 entry.2 = .ok r := by
  induction h with
  | nil => simp at hr
  | @cons entry r' entries requests hasks _ ih =>
    rcases mem_cons.mp hr with rfl | hr
    · exact ⟨entry, mem_cons_self, hasks⟩
    · obtain ⟨entry', hentry', hasks'⟩ := ih hr
      exact ⟨entry', mem_cons_of_mem entry hentry', hasks'⟩

variable {entry : String × AttributeValue}

section

variable (h : Asks texts entries requests)

include h

theorem mem_requests {r : Override} (hentry : entry ∈ entries)
    (hr : readOverride texts entry.1 entry.2 = .ok r) : r ∈ requests := by
  induction h with
  | nil => simp at hentry
  | @cons entry' r' entries requests hasks _ ih =>
    rcases mem_cons.mp hentry with rfl | hentry
    · rw [Except.ok.inj (hr.symm.trans hasks)]
      exact mem_cons_self
    · exact mem_cons_of_mem r' (ih hentry)

/-- Different keys are different properties. -/
theorem distinct_of_asks (hnodup : (entries.map Prod.fst).Nodup) : Override.Distinct requests := by
  induction h with
  | nil => exact List.Pairwise.nil
  | @cons entry r entries requests hr hrest ih =>
    obtain ⟨hentry, hnodup⟩ := nodup_cons.mp hnodup
    refine pairwise_cons.mpr ⟨?_, ih hnodup⟩
    intro r' hr' hname
    obtain ⟨entry', hentry', hasks⟩ := exists_entry hrest hr'
    have hkey := propertyKeys_injective _ (name_of_readOverride hr) _ (name_of_readOverride hasks)
      hname
    exact hentry (mem_map.mpr ⟨entry', hentry', hkey.symm⟩)

theorem sound_of_asks : ∀ r ∈ requests, r.Sound := by
  induction h with
  | nil => simp
  | cons hr _ ih => exact forall_mem_cons.mpr ⟨sound_of_readOverride hr, ih⟩

end

variable {f : RprFragment}

section Runs

variable {texts : QuoteTexts} {base : Bytes}

theorem overrideStep_eq_ok {current next : Option Bytes}
    (hread : RprFragment.read (current.getD base) = .ok f)
    (h : overrideStep texts base current entry = .ok next) :
    ∃ r, readOverride texts entry.1 entry.2 = .ok r ∧ next = (f.override r).or current := by
  rw [overrideStep, bind_ok hread] at h
  obtain ⟨r, hr, h⟩ := bind_eq_ok h
  exact ⟨r, hr, (Except.ok.inj h).symm⟩

theorem getD_or (a current : Option Bytes) :
    (a.or current).getD base = a.getD (current.getD base) := by
  cases a with
  | none => rfl
  | some text => rfl

/-- One entry of a run. -/
theorem reads_overrideStep {current next : Option Bytes}
    (hread : RprFragment.read (current.getD base) = .ok f) (hplain : f.StartsPlain)
    (h : overrideStep texts base current entry = .ok next) :
    ∃ r f', readOverride texts entry.1 entry.2 = .ok r ∧ next = (f.override r).or current ∧
      RprFragment.read (next.getD base) = .ok f' ∧
      f'.kids = Override.effect f.qualifier f.kids r ∧ f'.root.rawName = f.root.rawName ∧
      f'.StartsPlain := by
  obtain ⟨r, hr, rfl⟩ := overrideStep_eq_ok hread h
  obtain ⟨f', hf'⟩ := RprFragment.reads_override hread hplain (sound_of_readOverride hr)
  refine ⟨r, f', hr, rfl, ?_⟩
  rw [getD_or]
  exact hf'

theorem RprFragment.qualifier_congr {f f' : RprFragment} (h : f'.root.rawName = f.root.rawName) :
    f'.qualifier = f.qualifier := by
  rw [RprFragment.qualifier, RprFragment.qualifier, h]

/-- A run acts on the children alone. -/
theorem reads_foldlM_overrideStep : ∀ {entries : List (String × AttributeValue)}
    {current result : Option Bytes} {f : RprFragment},
    RprFragment.read (current.getD base) = .ok f → f.StartsPlain →
    entries.foldlM (overrideStep texts base) current = .ok result →
      ∃ requests f', Asks texts entries requests ∧ RprFragment.read (result.getD base) = .ok f' ∧
        f'.kids = requests.foldl (Override.effect f.qualifier) f.kids ∧
        f'.root.rawName = f.root.rawName ∧ f'.StartsPlain
  | [], current, result, f, hread, hplain, h => by
    obtain rfl := Except.ok.inj h
    exact ⟨[], f, .nil, hread, rfl, rfl, hplain⟩
  | entry :: entries, current, result, f, hread, hplain, h => by
    rw [foldlM_cons] at h
    obtain ⟨next, hnext, h⟩ := bind_eq_ok h
    obtain ⟨r, g, hr, -, hg, hkids, hname, hgplain⟩ := reads_overrideStep hread hplain hnext
    obtain ⟨requests, f', hasks, hf', hkids', hname', hplain'⟩ :=
      reads_foldlM_overrideStep hg hgplain h
    refine ⟨r :: requests, f', .cons hr hasks, hf', ?_, hname'.trans hname, hplain'⟩
    rw [hkids', hkids, RprFragment.qualifier_congr hname, foldl_cons]

/-- A request that is in force is not carried out again. -/
theorem foldlM_overrideStep_of_inForce {current : Option Bytes}
    (hread : RprFragment.read (current.getD base) = .ok f) :
    ∀ {entries : List (String × AttributeValue)} {requests : List Override},
      Asks texts entries requests → (∀ r ∈ requests, r.inForce f.kids = true) →
        entries.foldlM (overrideStep texts base) current = .ok current
  | [], _, .nil, _ => rfl
  | entry :: entries, _, .cons (b := r) hr hrest, hforce => by
    obtain ⟨hrforce, hforce⟩ := forall_mem_cons.mp hforce
    have hstep : overrideStep texts base current entry = .ok current := by
      rw [overrideStep, bind_ok hread, bind_ok hr, (f.override_eq_none_iff r).mpr hrforce]
      rfl
    rw [foldlM_cons, bind_ok hstep]
    exact foldlM_overrideStep_of_inForce hread hrest hforce

end Runs

/-! ## Whole requests -/

/-- Every child a run puts in stands in its slot among the children it finds. -/
def InsertsInSlot (texts : QuoteTexts) (base : Bytes) (entries : List (String × AttributeValue)) :
    Prop :=
  ∀ before entry after, entries = before ++ entry :: after → ∃ r mid next g g',
    readOverride texts entry.1 entry.2 = .ok r ∧ rprWithOverrides texts base before = .ok mid ∧
      RprFragment.read (mid.getD base) = .ok g ∧
      rprWithOverrides texts base (before ++ [entry]) = .ok next ∧
      RprFragment.read (next.getD base) = .ok g' ∧
      (next = mid ∨ ∀ child ∈ r.child g.qualifier, InSlot child g'.kids)

/-- The request is carried out: the text is a fragment again, every property asked for is of exactly
the value asked for, the other children are the same and in order, every new child is in its slot,
and the same request finds nothing to change. -/
def CarriesOut (texts : QuoteTexts) (base : Bytes) (entries : List (String × AttributeValue))
    (result : Option Bytes) : Prop :=
  ∃ requests f f', Asks texts entries requests ∧ RprFragment.read base = .ok f ∧
    RprFragment.read (result.getD base) = .ok f' ∧ f'.root.rawName = f.root.rawName ∧
    (∀ r ∈ requests, r.Holds f'.kids) ∧
    (f'.kids.filter fun x => x.name ∉ requests.map Override.name) =
      (f.kids.filter fun x => x.name ∉ requests.map Override.name) ∧
    InsertsInSlot texts base entries ∧ (InSchemaOrder f.kids → InSchemaOrder f'.kids) ∧
    rprWithOverrides texts (result.getD base) entries = .ok none

section Whole

variable {texts : QuoteTexts} {base : Bytes} {entries : List (String × AttributeValue)}
  {result : Option Bytes} {f : RprFragment}

theorem insertsInSlot (hread : RprFragment.read base = .ok f) (hplain : f.StartsPlain)
    (h : rprWithOverrides texts base entries = .ok result) :
    InsertsInSlot texts base entries := by
  rintro before entry after rfl
  rw [rprWithOverrides, foldlM_append] at h
  obtain ⟨mid, hmid, h⟩ := bind_eq_ok h
  rw [foldlM_cons] at h
  obtain ⟨next, hnext, -⟩ := bind_eq_ok h
  have hbase : RprFragment.read ((none : Option Bytes).getD base) = .ok f := hread
  obtain ⟨-, g, -, hg, -, -, hgplain⟩ := reads_foldlM_overrideStep hbase hplain hmid
  obtain ⟨r, g', hr, hor, hg', hkids, -, -⟩ := reads_overrideStep hg hgplain hnext
  refine ⟨r, mid, next, g, g', hr, hmid, hg, ?_, hg', ?_⟩
  · rw [rprWithOverrides, foldlM_append, bind_ok hmid, foldlM_cons, bind_ok hnext]
    rfl
  rw [Override.effect] at hkids
  by_cases hforce : r.inForce g.kids = true
  · rw [(g.override_eq_none_iff r).mpr hforce] at hor
    exact .inl hor
  · right
    intro child hchild
    rw [hkids, if_neg hforce, Option.mem_def.mp hchild, ← r.child_name g.qualifier child hchild]
    exact inSlot_replaceChild

/-- The first child of each property asked for speaks for the others. -/
def AllUndisputed (texts : QuoteTexts) (entries : List (String × AttributeValue))
    (f : RprFragment) : Prop :=
  ∀ entry ∈ entries, ∀ r, readOverride texts entry.1 entry.2 = .ok r → r.Undisputed f.kids

/-- The fragment asks for everything already. -/
def AllInForce (texts : QuoteTexts) (entries : List (String × AttributeValue)) (f : RprFragment) :
    Prop :=
  ∀ entry ∈ entries, ∀ r, readOverride texts entry.1 entry.2 = .ok r → r.inForce f.kids = true

theorem carriesOut_of_startsPlain (hkeys : (entries.map Prod.fst).Nodup)
    (hread : RprFragment.read base = .ok f) (hplain : f.StartsPlain)
    (h : rprWithOverrides texts base entries = .ok result)
    (hfirst : AllUndisputed texts entries f) : CarriesOut texts base entries result := by
  have hbase : RprFragment.read ((none : Option Bytes).getD base) = .ok f := hread
  obtain ⟨requests, f', hasks, hf', hkids, hname, -⟩ := reads_foldlM_overrideStep hbase hplain h
  obtain ⟨o, hopening, -, hrawName⟩ := hplain.opens
  obtain ⟨raw, -, hraw, hrawEq⟩ := exists_nameBytes hopening
  have hholds : ∀ r ∈ requests, r.Holds f'.kids := by
    rw [hkids]
    refine Override.holds_foldl_effect hraw (hrawName.symm.trans hrawEq)
      (distinct_of_asks hasks hkeys) (sound_of_asks hasks) ?_
    intro r hr
    obtain ⟨entry, hentry, hask⟩ := exists_entry hasks hr
    exact hfirst entry hentry r hask
  refine ⟨requests, f, f', hasks, hread, hf', hname, hholds, ?_, insertsInSlot hread hplain h, ?_,
    ?_⟩
  · rw [hkids]
    refine Override.filter_foldl_effect f.kids ?_
    intro r hr x hx hxname
    simp only [decide_eq_true_eq] at hx
    exact hx (mem_map.mpr ⟨r, hr, hxname.symm⟩)
  · intro hordered
    rw [hkids]
    exact Override.inSchemaOrder_foldl_effect hordered
  · have hagain : RprFragment.read ((none : Option Bytes).getD (result.getD base)) = .ok f' := hf'
    exact foldlM_overrideStep_of_inForce hagain hasks fun r hr => (hholds r hr).inForce

theorem allUndisputed_of_carriesOut (hkeys : (entries.map Prod.fst).Nodup)
    (hread : RprFragment.read base = .ok f) (hplain : f.StartsPlain)
    (h : rprWithOverrides texts base entries = .ok result)
    (hcarries : CarriesOut texts base entries result) : AllUndisputed texts entries f := by
  have hbase : RprFragment.read ((none : Option Bytes).getD base) = .ok f := hread
  obtain ⟨requests, f', hasks, hf', hkids, -⟩ := reads_foldlM_overrideStep hbase hplain h
  obtain ⟨requests', g, g', hasks', -, hg', -, hholds, -⟩ := hcarries
  obtain rfl : g' = f' := Except.ok.inj (hg'.symm.trans hf')
  have hall : ∀ r ∈ requests, r.Holds (requests.foldl (Override.effect f.qualifier) f.kids) := by
    intro r hr
    obtain ⟨entry, hentry, hask⟩ := exists_entry hasks hr
    rw [← hkids]
    exact hholds r (mem_requests hasks' hentry hask)
  intro entry hentry r hr
  exact Override.undisputed_of_holds_foldl (distinct_of_asks hasks hkeys) hall r
    (mem_requests hasks hentry hr)

/-- A request in force writes nothing. -/
theorem exists_asks_of_inForce (hread : RprFragment.read base = .ok f) :
    ∀ {entries : List (String × AttributeValue)},
      rprWithOverrides texts base entries = .ok result → AllInForce texts entries f →
        result = none ∧ ∃ requests, Asks texts entries requests
  | [], h, _ => ⟨(Except.ok.inj h).symm, [], .nil⟩
  | entry :: entries, h, hforce => by
    have hbase : RprFragment.read ((none : Option Bytes).getD base) = .ok f := hread
    rw [rprWithOverrides, foldlM_cons] at h
    obtain ⟨next, hnext, h⟩ := bind_eq_ok h
    obtain ⟨r, hr, rfl⟩ := overrideStep_eq_ok hbase hnext
    obtain ⟨hentry, hrest⟩ := forall_mem_cons.mp hforce
    rw [(f.override_eq_none_iff r).mpr (hentry r hr)] at h
    obtain ⟨hresult, requests, hasks⟩ := exists_asks_of_inForce hread h hrest
    exact ⟨hresult, r :: requests, .cons hr hasks⟩

theorem carriesOut_of_inForce (hread : RprFragment.read base = .ok f)
    (h : rprWithOverrides texts base entries = .ok result) (hfirst : AllUndisputed texts entries f)
    (hforce : AllInForce texts entries f) : CarriesOut texts base entries result := by
  obtain ⟨rfl, requests, hasks⟩ := exists_asks_of_inForce hread h hforce
  refine ⟨requests, f, f, hasks, hread, hread, rfl, ?_, rfl, ?_, id, h⟩
  · intro r hr
    obtain ⟨entry, hentry, hask⟩ := exists_entry hasks hr
    exact Override.holds_of_inForce (hforce entry hentry r hask) (hfirst entry hentry r hask)
  · rintro before entry after rfl
    have hbefore : AllInForce texts before f := fun entry hentry =>
      hforce entry (mem_append_left _ hentry)
    have hboth : AllInForce texts (before ++ [entry]) f := by
      intro entry' hentry'
      refine hforce entry' ?_
      rw [append_cons]
      exact mem_append_left _ hentry'
    rw [append_cons, rprWithOverrides, foldlM_append] at h
    obtain ⟨next, hnext, -⟩ := bind_eq_ok h
    have hboth' := hnext
    rw [foldlM_append] at hnext
    obtain ⟨mid, hmid, hstep⟩ := bind_eq_ok hnext
    obtain ⟨rfl, -⟩ := exists_asks_of_inForce hread hmid hbefore
    obtain ⟨rfl, -⟩ := exists_asks_of_inForce hread hboth' hboth
    rw [foldlM_cons] at hstep
    obtain ⟨later, hstep, -⟩ := bind_eq_ok hstep
    have hbase : RprFragment.read ((none : Option Bytes).getD base) = .ok f := hread
    obtain ⟨r, hr, -⟩ := overrideStep_eq_ok hbase hstep
    exact ⟨r, none, none, f, f, hr, hmid, hread, hboth', hread, .inl rfl⟩

end Whole

/-- Behind a tag that ends in a second `/` nothing can be written. -/
theorem allInForce_of_reads {base : Text} {result : Option Bytes}
    (hread : RprFragment.read (utf8 base) = .ok f) (hbody : f.openBody.getLast? = some '/')
    {g : RprFragment} (hg : RprFragment.read (result.getD (utf8 base)) = .ok g) :
    ∀ {entries : List (String × AttributeValue)},
      rprWithOverrides texts (utf8 base) entries = .ok result → AllInForce texts entries f
  | [], _ => by simp [AllInForce]
  | entry :: entries, h => by
    have hbase : RprFragment.read ((none : Option Bytes).getD (utf8 base)) = .ok f := hread
    rw [rprWithOverrides, foldlM_cons] at h
    obtain ⟨next, hnext, h⟩ := bind_eq_ok h
    obtain ⟨r, hr, rfl⟩ := overrideStep_eq_ok hbase hnext
    by_cases hforce : r.inForce f.kids = true
    · rw [(f.override_eq_none_iff r).mpr hforce] at h
      refine forall_mem_cons.mpr ⟨?_, allInForce_of_reads hread hbody hg h⟩
      intro r' hr'
      obtain rfl := Except.ok.inj (hr.symm.trans hr')
      exact hforce
    · -- what is written is not read by any later step
      have hunread : ∀ g',
          RprFragment.read (((f.override r).or none).getD (utf8 base)) ≠ .ok g' := by
        rw [RprFragment.override_of_not_inForce hforce]
        exact f.read_override_ne_ok hread hbody (sound_of_readOverride hr)
      cases entries with
      | nil =>
        obtain rfl := Except.ok.inj h
        exact absurd hg (hunread g)
      | cons entry' entries =>
        rw [foldlM_cons] at h
        obtain ⟨later, hstep, -⟩ := bind_eq_ok h
        obtain ⟨g', hg', -⟩ := bind_eq_ok hstep
        exact absurd hg' (hunread g')

/-- A request is carried out when the first child of each property speaks for the others, unless it
has to write behind an opening tag that ends in a second `/`. -/
theorem carriesOut_iff {texts : QuoteTexts} {base : Text}
    {entries : List (String × AttributeValue)} {result : Option Bytes} {f : RprFragment}
    (hkeys : (entries.map Prod.fst).Nodup) (hread : RprFragment.read (utf8 base) = .ok f)
    (h : rprWithOverrides texts (utf8 base) entries = .ok result) :
    CarriesOut texts (utf8 base) entries result ↔
      AllUndisputed texts entries f ∧
        (f.openBody.getLast? = some '/' → AllInForce texts entries f) := by
  by_cases hbody : f.openBody.getLast? = some '/'
  · constructor
    · intro hcarries
      obtain ⟨requests, g, g', hasks, -, hg', -, hholds, -⟩ := hcarries
      have hforce := allInForce_of_reads hread hbody hg' h
      obtain ⟨rfl, -⟩ := exists_asks_of_inForce hread h hforce
      obtain rfl : g' = f := Except.ok.inj (hg'.symm.trans hread)
      refine ⟨fun entry hentry r hr => ?_, fun _ => hforce⟩
      exact (hholds r (mem_requests hasks hentry hr)).undisputed
    · rintro ⟨hfirst, hforce⟩
      exact carriesOut_of_inForce hread h hfirst (hforce hbody)
  · have hplain := RprFragment.startsPlain hread hbody
    constructor
    · intro hcarries
      exact ⟨allUndisputed_of_carriesOut hkeys hread hplain h hcarries, fun h => absurd h hbody⟩
    · rintro ⟨hfirst, -⟩
      exact carriesOut_of_startsPlain hkeys hread hplain h hfirst

/-- Texts for the requests below, which refuse nothing. -/
def plainTexts : QuoteTexts where
  debugText text := "\"" ++ String.ofList text ++ "\""
  valueText
    | .null => "null"
    | .bool value => toString value
    | .string value => "\"" ++ String.ofList value ++ "\""
    | .other => "[]"

def italicFragment : Text := "<w:rPr><w:i/></w:rPr>".toList

/-- Bold is put in front of the italic that is there. -/
theorem italicFragment_carriesOut :
    CarriesOut plainTexts (utf8 italicFragment) [("bold", .bool true)]
      (some (bytes "<w:rPr><w:b/><w:i/></w:rPr>")) := by
  have hdata : (RprFragment.read (utf8 italicFragment)).toOption.map
      (fun f => (f.kids, f.openBody)) =
        some ([⟨"i", bytes "<w:i/>", true⟩], "<w:rPr".toList) := by
    decide +kernel
  have hrun : (rprWithOverrides plainTexts (utf8 italicFragment)
      [("bold", .bool true)]).toOption = some (some (bytes "<w:rPr><w:b/><w:i/></w:rPr>")) := by
    decide +kernel
  cases hread : RprFragment.read (utf8 italicFragment) with
  | error e =>
    rw [hread] at hdata
    simp [Except.toOption] at hdata
  | ok f =>
    rw [hread] at hdata
    simp only [Except.toOption, Option.map_some, Option.some.injEq, Prod.mk.injEq] at hdata
    obtain ⟨hkids, hbody⟩ := hdata
    cases hresult : rprWithOverrides plainTexts (utf8 italicFragment)
        [("bold", .bool true)] with
    | error e =>
      rw [hresult] at hrun
      simp [Except.toOption] at hrun
    | ok result =>
      rw [hresult] at hrun
      simp only [Except.toOption, Option.some.injEq] at hrun
      subst hrun
      refine (carriesOut_iff (by decide) hread hresult).mpr ⟨?_, ?_⟩
      · intro entry hentry r hr
        obtain rfl := List.mem_singleton.mp hentry
        obtain rfl := Except.ok.inj hr
        rw [hkids]
        intro hforce
        exact absurd hforce (by decide)
      · intro hlast
        rw [hbody] at hlast
        exact absurd hlast (by decide)

/-- The first `w:b` asks for bold, the second for none, and a request for bold leaves both. -/
theorem twoBolds_not_carriesOut :
    rprWithOverrides plainTexts (utf8 "<w:rPr><w:b/><w:b w:val=\"0\"/></w:rPr>".toList)
        [("bold", .bool true)] = .ok none ∧
      ¬ CarriesOut plainTexts (utf8 "<w:rPr><w:b/><w:b w:val=\"0\"/></w:rPr>".toList)
        [("bold", .bool true)] none := by
  have hdata : (RprFragment.read (bytes "<w:rPr><w:b/><w:b w:val=\"0\"/></w:rPr>")).toOption.map
      (·.kids) = some [⟨"b", bytes "<w:b/>", true⟩, ⟨"b", bytes "<w:b w:val=\"0\"/>", true⟩] := by
    decide +kernel
  refine ⟨by decide +kernel, ?_⟩
  rintro ⟨requests, f, f', hasks, -, hf', -, hholds, -⟩
  have hrequest : Override.place "b" [] ∈ requests :=
    mem_requests hasks List.mem_cons_self rfl
  obtain ⟨-, hall⟩ := hholds _ hrequest
  have hread : RprFragment.read (bytes "<w:rPr><w:b/><w:b w:val=\"0\"/></w:rPr>") = .ok f' := hf'
  simp only [hread, Except.toOption, Option.map_some, Option.some.injEq] at hdata
  have hsecond : Override.isValue [] ⟨"b", bytes "<w:b w:val=\"0\"/>", true⟩ = true := by
    refine hall _ ?_ rfl
    rw [hdata]
    exact List.mem_cons_of_mem _ List.mem_cons_self
  exact absurd hsecond (by decide +kernel)

end Docx2Typed
