import Docx2Typed.Library.FileTree

/-!
# Resolving a path that need not exist

`resolve_path` asks for the canonical form of a path.  Where there is none it goes up, component by
component, to an ancestor that has one, and writes the components it left behind that form.  It
stops at `..`, and then gives back the absolute path as it was.

The result is a text: two slashes at its beginning stay two.  It is the same after the missing
components were made exactly when these are names, the first of them free, in a directory that is
not the root (`resolvePath_iff`).
-/

namespace Docx2Typed

open Library (Component FileTree)
open List

universe u

variable {ν : Type u}

/-- An absolute path; `double` says that it begins with two slashes, `slash` that it ends in one. -/
structure AbsolutePath (ν : Type u) where
  double : Bool
  components : List (Component ν)
  slash : Bool
  deriving DecidableEq

/-- A path as `std::path` reads it. -/
inductive RawPath (ν : Type u) where
  | empty
  | relative (components : List (Component ν)) (slash : Bool)
  | absolute (path : AbsolutePath ν)
  deriving DecidableEq

/-- `std::path::absolute`, in the directory `cwd`; the empty path has no absolute form. -/
def absolutePath (cwd : List ν) : RawPath ν → Option (AbsolutePath ν)
  | .empty => none
  | .relative components slash => some ⟨false, cwd.map .normal ++ components, slash⟩
  | .absolute path => some path

/-- The names written behind a canonical form, each behind a slash.  The form of the root is a slash
already. -/
def joinTail (canonical names : List ν) : AbsolutePath ν where
  double := canonical.isEmpty && !names.isEmpty
  components := (canonical ++ names).map .normal
  slash := false

/-- The loop of `resolve_path`, on the components of `current` from the last one on; `none` where
`current` has no file name. -/
def climb (canonicalize : AbsolutePath ν → Option (List ν)) (double slash : Bool)
    (components : List (Component ν)) (tail : List ν) : Option (AbsolutePath ν) :=
  match canonicalize ⟨double, components.reverse, slash⟩ with
  | some canonical => some (joinTail canonical tail)
  | none =>
    match components with
    | .normal name :: above => climb canonicalize false false above (name :: tail)
    | _ => none

/-- `resolve_path` behind `std::path::absolute`. -/
def resolveAbsolute (canonicalize : AbsolutePath ν → Option (List ν)) (absolute : AbsolutePath ν) :
    AbsolutePath ν :=
  match canonicalize absolute with
  | some canonical => joinTail canonical []
  | none =>
    (climb canonicalize absolute.double absolute.slash absolute.components.reverse []).getD absolute

/-- `resolve_path`; a path without an absolute form is left as it is. -/
def resolvePath (canonicalize : AbsolutePath ν → Option (List ν)) (cwd : List ν)
    (path : RawPath ν) : RawPath ν :=
  match absolutePath cwd path with
  | none => path
  | some absolute => .absolute (resolveAbsolute canonicalize absolute)

/-- `canonicalize` gives the place a path leads to. -/
def Canonicalizes (t : FileTree ν) (canonicalize : AbsolutePath ν → Option (List ν)) : Prop :=
  ∀ path stop, canonicalize path = some stop ↔ t.Resolves [] path.components path.slash stop

/-! ## The deepest ancestor -/

/-- `above` leads to `stop`, and with the first of `names` behind it nowhere. -/
structure Deepest (t : FileTree ν) (components : List (Component ν)) (slash : Bool)
    (above : List (Component ν)) (names stop : List ν) : Prop where
  split : components = above ++ names.map .normal
  leads : t.Resolves [] above (slash && names.isEmpty) stop
  ends : ∀ name rest, names = name :: rest → ∀ place,
    ¬ t.Resolves [] (above ++ [.normal name]) (slash && rest.isEmpty) place

variable {name : ν} {rev : List (Component ν)} {slash : Bool}

section Climb

variable {t : FileTree ν} {canonicalize : AbsolutePath ν → Option (List ν)}
  {components above : List (Component ν)} {names stop : List ν} {double slash : Bool}

theorem Canonicalizes.eq_none (hc : Canonicalizes t canonicalize) {path : AbsolutePath ν}
    (h : ∀ stop, ¬ t.Resolves [] path.components path.slash stop) : canonicalize path = none := by
  cases hpath : canonicalize path with
  | none => rfl
  | some stop => exact absurd ((hc path stop).mp hpath) (h stop)

/-- With a name more than the deepest ancestor has a path leads nowhere. -/
theorem Deepest.not_resolves (h : Deepest t components slash above names stop) (hne : names ≠ []) :
    ∀ place, ¬ t.Resolves [] components slash place := by
  intro place hplace
  obtain ⟨name, rest, rfl⟩ := exists_cons_of_ne_nil hne
  rw [h.split, map_cons, append_cons] at hplace
  cases rest with
  | nil =>
    rw [map_nil, append_nil] at hplace
    exact h.ends name [] rfl place (by simpa using hplace)
  | cons next rest =>
    obtain ⟨mid, hmid, -⟩ := hplace.split (cons_ne_nil _ _)
    exact h.ends name (next :: rest) rfl mid (by simpa using hmid.slash_false)

theorem climb_of_some {tail : List ν} (h : canonicalize ⟨double, rev.reverse, slash⟩ = some stop) :
    climb canonicalize double slash rev tail = some (joinTail stop tail) := by
  rw [climb.eq_def, h]

theorem climb_normal {tail : List ν}
    (h : canonicalize ⟨double, (.normal name :: rev).reverse, slash⟩ = none) :
    climb canonicalize double slash (.normal name :: rev) tail =
      climb canonicalize false false rev (name :: tail) := by
  rw [climb.eq_def, h]

section

variable (hc : Canonicalizes t canonicalize)

include hc

/-- The loop ends at the deepest ancestor. -/
theorem climb_of_deepest : ∀ {rev : List (Component ν)}
    {double slash : Bool} {names tail : List ν},
    Deepest t rev.reverse slash above names stop →
      climb canonicalize double slash rev tail = some (joinTail stop (names ++ tail)) := by
  intro rev
  induction rev with
  | nil =>
    intro double slash names tail h
    obtain ⟨rfl, hnames⟩ := append_eq_nil_iff.mp h.split.symm
    obtain rfl := map_eq_nil_iff.mp hnames
    exact climb_of_some ((hc _ _).mpr (by simpa using h.leads))
  | cons component rev ih =>
    intro double slash names tail h
    obtain rfl | ⟨names, name, rfl⟩ := eq_nil_or_concat' names
    · refine climb_of_some ((hc _ _).mpr ?_)
      rw [h.split]
      simpa using h.leads
    · have hsplit := h.split
      rw [reverse_cons, map_append, ← append_assoc] at hsplit
      obtain ⟨hrev, hlast⟩ := append_inj' hsplit rfl
      obtain rfl := singleton_inj.mp hlast
      have habove : Deepest t rev.reverse false above names stop := by
        refine ⟨hrev, ?_, fun first rest hnames place hplace => ?_⟩
        · have hleads := h.leads
          rw [show (names ++ [name]).isEmpty = false by simp, Bool.and_false] at hleads
          simpa using hleads
        · subst hnames
          refine h.ends first (rest ++ [name]) rfl place ?_
          rw [show (rest ++ [name]).isEmpty = false by simp, Bool.and_false]
          simpa using hplace
      rw [climb_normal (hc.eq_none (h.not_resolves (by simp))), ih habove, append_assoc]
      rfl

/-- What the loop gives is written behind the deepest ancestor. -/
theorem exists_of_climb : ∀ {rev : List (Component ν)}
    {double slash : Bool} {tail : List ν} {result : AbsolutePath ν},
    climb canonicalize double slash rev tail = some result →
      ∃ above names stop, Deepest t rev.reverse slash above names stop ∧
        result = joinTail stop (names ++ tail) := by
  intro rev
  induction rev with
  | nil =>
    intro double slash tail result h
    have hroot : canonicalize ⟨double, [], slash⟩ = some [] := (hc _ _).mpr (.here t.root)
    rw [climb_of_some hroot] at h
    exact ⟨[], [], [], ⟨rfl, .here t.root, by simp⟩, (Option.some.inj h).symm⟩
  | cons component rev ih =>
    intro double slash tail result h
    cases hcanonical : canonicalize ⟨double, (component :: rev).reverse, slash⟩ with
    | some stop =>
      rw [climb_of_some hcanonical] at h
      refine ⟨(component :: rev).reverse, [], stop, ⟨by simp, ?_, by simp⟩,
        (Option.some.inj h).symm⟩
      simpa using (hc _ _).mp hcanonical
    | none =>
      cases component with
      | parent =>
        rw [climb.eq_def, hcanonical] at h
        cases h
      | normal name =>
        rw [climb_normal hcanonical] at h
        obtain ⟨above, names, stop, hdeepest, rfl⟩ := ih h
        refine ⟨above, names ++ [name], stop, ⟨?_, ?_, ?_⟩, by rw [append_assoc]; rfl⟩
        · rw [reverse_cons, hdeepest.split, map_append, append_assoc]
          rfl
        · rw [show (names ++ [name]).isEmpty = false by simp, Bool.and_false]
          simpa using hdeepest.leads
        · intro first rest hnames place hplace
          cases names with
          | nil =>
            obtain ⟨rfl, rfl⟩ := List.cons.inj hnames
            have hsome : canonicalize ⟨double, (.normal name :: rev).reverse, slash⟩ =
                some place := by
              refine (hc _ _).mpr ?_
              rw [reverse_cons, hdeepest.split]
              simpa using hplace
            rw [hcanonical] at hsome
            cases hsome
          | cons next names =>
            rw [cons_append] at hnames
            obtain ⟨rfl, rfl⟩ := List.cons.inj hnames
            rw [show (names ++ [name]).isEmpty = false by simp, Bool.and_false] at hplace
            exact hdeepest.ends next names rfl place (by simpa using hplace)

/-- Where the loop stops short, a component is `..`. -/
theorem parent_mem_of_climb : ∀ {rev : List (Component ν)}
    {double slash : Bool} {tail : List ν},
    climb canonicalize double slash rev tail = none → Component.parent ∈ rev := by
  intro rev
  induction rev with
  | nil =>
    intro double slash tail h
    have hroot : canonicalize ⟨double, [], slash⟩ = some [] := (hc _ _).mpr (.here t.root)
    rw [climb_of_some hroot] at h
    cases h
  | cons component rev ih =>
    intro double slash tail h
    cases hcanonical : canonicalize ⟨double, (component :: rev).reverse, slash⟩ with
    | some canonical =>
      rw [climb_of_some hcanonical] at h
      cases h
    | none =>
      cases component with
      | parent => exact mem_cons_self
      | normal name =>
        rw [climb_normal hcanonical] at h
        exact mem_cons_of_mem _ (ih h)

end

/-- Above names that follow a place there is a deepest ancestor. -/
theorem exists_deepest : ∀ {names : List ν} {above : List (Component ν)}
    {place : List ν}, t.Resolves [] above (slash && names.isEmpty) place →
    ∃ taken left stop, names = taken ++ left ∧
      Deepest t (above ++ names.map .normal) slash (above ++ taken.map .normal) left stop
  | [], above, place, h => ⟨[], [], place, rfl, by simp, by simpa using h, by simp⟩
  | name :: names, above, place, h => by
    by_cases hnext : ∃ next, t.Resolves [] (above ++ [.normal name]) (slash && names.isEmpty) next
    · obtain ⟨next, hnext⟩ := hnext
      obtain ⟨taken, left, stop, rfl, hdeepest⟩ := exists_deepest hnext
      exact ⟨name :: taken, left, stop, rfl, by simpa using hdeepest⟩
    · refine ⟨[], name :: names, place, rfl, by simp, by simpa using h, ?_⟩
      intro first rest hnames next hresolves
      obtain ⟨rfl, rfl⟩ := List.cons.inj hnames
      exact hnext ⟨next, by simpa using hresolves⟩

end Climb

/-! ## What is resolved -/

variable {components : List (Component ν)}

section Resolved

variable {t t' : FileTree ν} {canonicalize canonicalize' : AbsolutePath ν → Option (List ν)}
  {absolute : AbsolutePath ν} {above : List (Component ν)} {names stop : List ν}

/-- The path leads somewhere. -/
def Leads (t : FileTree ν) (absolute : AbsolutePath ν) : Prop :=
  ∃ stop, t.Resolves [] absolute.components absolute.slash stop

/-- What is missing of the path are names, the first of them free, in a directory that is not the
root. -/
def MissingNames (t : FileTree ν) (absolute : AbsolutePath ν) : Prop :=
  ∃ above place name names, absolute.components = above ++ (name :: names).map .normal ∧
    t.Resolves [] above false place ∧ t.entry (place ++ [name]) = none ∧ place ≠ []

/-- The path ends in a slash and leads to a file, through a link or in the root. -/
def SlashedFile (t : FileTree ν) (absolute : AbsolutePath ν) : Prop :=
  absolute.slash = true ∧ ∃ above place name stop,
    absolute.components = above ++ [.normal name] ∧ t.Resolves [] above true place ∧
      t.Resolves [] absolute.components false stop ∧ t.entry stop = some .file ∧
      ¬ (stop = place ++ [name] ∧ place ≠ [])

theorem resolveAbsolute_of_deepest (hc : Canonicalizes t canonicalize)
    (h : Deepest t absolute.components absolute.slash above names stop) :
    resolveAbsolute canonicalize absolute = joinTail stop names := by
  rw [resolveAbsolute]
  cases hcanonical : canonicalize absolute with
  | some canonical =>
    have hleads := (hc _ _).mp hcanonical
    by_cases hnames : names = []
    · subst hnames
      have hstop : t.Resolves [] absolute.components absolute.slash stop := by
        rw [h.split]
        simpa using h.leads
      rw [hleads.unique hstop]
    · exact absurd hleads (h.not_resolves hnames canonical)
  | none =>
    rw [← reverse_reverse absolute.components] at h
    show (climb _ _ _ _ _).getD absolute = _
    rw [climb_of_deepest hc h, append_nil]
    rfl

theorem deepest_of_exists (h : t.Resolves [] absolute.components absolute.slash stop) :
    Deepest t absolute.components absolute.slash absolute.components [] stop :=
  ⟨by simp, by simpa using h, by simp⟩

theorem resolveAbsolute_of_exists (hc : Canonicalizes t canonicalize)
    (h : t.Resolves [] absolute.components absolute.slash stop) :
    resolveAbsolute canonicalize absolute = joinTail stop [] :=
  resolveAbsolute_of_deepest hc (deepest_of_exists h)

/-- There is a deepest ancestor, or the path is left as it is. -/
theorem deepest_or_same (hc : Canonicalizes t canonicalize) (absolute : AbsolutePath ν) :
    (∃ above names stop, Deepest t absolute.components absolute.slash above names stop) ∨
      resolveAbsolute canonicalize absolute = absolute ∧
        Component.parent ∈ absolute.components ∧ ¬ Leads t absolute ∧
        ∀ (above : List (Component ν)) (names place : List ν),
          absolute.components = above ++ names.map .normal →
            ¬ t.Resolves [] above (absolute.slash && names.isEmpty) place := by
  by_cases hdeepest : ∃ above names stop,
      Deepest t absolute.components absolute.slash above names stop
  · exact .inl hdeepest
  · have hnot : ∀ (above : List (Component ν)) (names place : List ν),
        absolute.components = above ++ names.map .normal →
        ¬ t.Resolves [] above (absolute.slash && names.isEmpty) place := by
      intro above names place hsplit hplace
      obtain ⟨taken, left, stop, -, h⟩ := exists_deepest hplace
      exact hdeepest ⟨_, _, _, hsplit ▸ h⟩
    have hmissing : ∀ stop, ¬ t.Resolves [] absolute.components absolute.slash stop :=
      fun stop h => hdeepest ⟨_, _, _, deepest_of_exists h⟩
    have hclimb : climb canonicalize absolute.double absolute.slash
        absolute.components.reverse [] = none := by
      cases hresult : climb canonicalize absolute.double absolute.slash
          absolute.components.reverse [] with
      | none => rfl
      | some result =>
        obtain ⟨above, names, stop, h, -⟩ := exists_of_climb hc hresult
        rw [reverse_reverse] at h
        exact absurd ⟨above, names, stop, h⟩ hdeepest
    refine .inr ⟨?_, ?_, fun ⟨stop, h⟩ => hmissing stop h, hnot⟩
    · rw [resolveAbsolute, hc.eq_none hmissing]
      show (climb _ _ _ _ _).getD absolute = _
      rw [hclimb]
      rfl
    · exact mem_reverse.mp (parent_mem_of_climb hc hclimb)

theorem parent_not_mem (names : List ν) : Component.parent ∉ names.map Component.normal := by
  intro h
  obtain ⟨name, -, hname⟩ := mem_map.mp h
  cases hname

theorem joinTail_components (canonical names : List ν) :
    (joinTail canonical names).components = (canonical ++ names).map .normal := rfl

theorem joinTail_inj {canonical names canonical' names' : List ν}
    (h : joinTail canonical names = joinTail canonical' names') :
    canonical ++ names = canonical' ++ names' ∧
      (canonical.isEmpty && !names.isEmpty) = (canonical'.isEmpty && !names'.isEmpty) := by
  refine ⟨?_, congrArg AbsolutePath.double h⟩
  have hmap : (canonical ++ names).map Component.normal = (canonical' ++ names').map .normal :=
    congrArg AbsolutePath.components h
  exact map_injective_iff.mpr (fun a b hab => Component.normal.inj hab) hmap

/-! ### Before and after -/

/-- A name behind a directory is found there. -/
theorem not_free_of_resolves {place : List ν} (h : t.Resolves place [.normal name] slash stop) :
    t.entry (place ++ [name]) ≠ none := by
  cases h with
  | down hdir _ => rw [hdir]; exact Option.some_ne_none _
  | file hfile => rw [hfile]; exact Option.some_ne_none _
  | link hlink _ => rw [hlink]; exact Option.some_ne_none _

/-- Missing names are resolved the same way whatever is put into free places. -/
theorem resolveAbsolute_of_missingNames (hgrows : t.Grows t') (hc : Canonicalizes t canonicalize)
    (hc' : Canonicalizes t' canonicalize') (h : MissingNames t absolute) :
    resolveAbsolute canonicalize' absolute = resolveAbsolute canonicalize absolute := by
  obtain ⟨above, place, name, names, hsplit, hplace, hfree, hroot⟩ := h
  have hmid : ∀ {mid}, t.Resolves [] above true mid → mid = place := fun hmid =>
    hmid.slash_false.unique hplace
  have hdeepest : Deepest t absolute.components absolute.slash above (name :: names) place := by
    refine ⟨hsplit, by simpa using hplace, fun first rest hnames stop hstop => ?_⟩
    obtain ⟨rfl, rfl⟩ := List.cons.inj hnames
    obtain ⟨mid, habove, hname⟩ := hstop.split (cons_ne_nil _ _)
    rw [hmid habove] at hname
    exact not_free_of_resolves hname hfree
  have hplace' : t'.Resolves [] above (absolute.slash && (name :: names).isEmpty) place := by
    simpa using hgrows.resolves hplace
  obtain ⟨taken, left, stop, hnames, hdeepest'⟩ := exists_deepest hplace'
  rw [← hsplit] at hdeepest'
  have hstop : stop = place ++ taken := by
    cases taken with
    | nil =>
      have hleads := hdeepest'.leads
      rw [map_nil, append_nil] at hleads
      rw [append_nil]
      cases hflag : absolute.slash && left.isEmpty with
      | false =>
        rw [hflag] at hleads
        exact hleads.unique (hgrows.resolves hplace)
      | true =>
        rw [hflag] at hleads
        exact hleads.slash_false.unique (hgrows.resolves hplace)
    | cons first taken =>
      obtain ⟨rfl, -⟩ := List.cons.inj hnames
      obtain ⟨mid, habove, hrest⟩ := hdeepest'.leads.split (cons_ne_nil _ _)
      obtain rfl := habove.slash_false.unique (hgrows.resolves hplace)
      exact hgrows.stop_of_missing hfree hrest
  have hempty : place.isEmpty = false := by simpa using hroot
  have hempty' : (place ++ taken).isEmpty = false := by simp [hroot]
  rw [resolveAbsolute_of_deepest hc hdeepest, resolveAbsolute_of_deepest hc' hdeepest', hstop,
    hnames, joinTail, joinTail, hempty, hempty', append_assoc]
  rfl

theorem resolveAbsolute_grows (hgrows : t.Grows t') (hc : Canonicalizes t canonicalize)
    (hc' : Canonicalizes t' canonicalize') (h : Leads t absolute) :
    resolveAbsolute canonicalize' absolute = resolveAbsolute canonicalize absolute := by
  obtain ⟨stop, h⟩ := h
  rw [resolveAbsolute_of_exists hc h, resolveAbsolute_of_exists hc' (hgrows.resolves h)]

/-- A path that is resolved the same way after it was made was missing names only. -/
theorem missingNames_of_created (hgrows : t.Grows t') (hc : Canonicalizes t canonicalize)
    (hc' : Canonicalizes t' canonicalize') (hmissing : ¬ Leads t absolute)
    (hcreated : Leads t' absolute)
    (hsame : resolveAbsolute canonicalize' absolute = resolveAbsolute canonicalize absolute) :
    MissingNames t absolute := by
  obtain ⟨final, hfinal⟩ := hcreated
  rw [resolveAbsolute_of_exists hc' hfinal] at hsame
  rcases deepest_or_same hc absolute with ⟨above, names, stop, h⟩ | ⟨hleft, hparent, -, -⟩
  · rw [resolveAbsolute_of_deepest hc h] at hsame
    cases names with
    | nil =>
      refine absurd ⟨stop, ?_⟩ hmissing
      rw [h.split]
      simpa using h.leads
    | cons name rest =>
      obtain ⟨hjoined, hroot⟩ := joinTail_inj hsame
      rw [append_nil] at hjoined
      have hleads : t.Resolves [] above false stop := by simpa using h.leads
      refine ⟨above, stop, name, rest, h.split, hleads, ?_, by rintro rfl; simp at hroot⟩
      by_contra hfree
      obtain ⟨entry, hentry⟩ := Option.ne_none_iff_exists'.mp hfree
      have habove : t.Resolves [] above true stop := hleads.slash_true (t.parent _ _ hfree)
      have hdir : t.entry (stop ++ [name]) ≠ some .dir := fun hdir =>
        h.ends name rest rfl _
          (habove.append rfl (cons_ne_nil _ _) (.down hdir (.here hdir)))
      have hkept := hgrows.kept _ _ hentry
      subst hjoined
      cases rest with
      | nil =>
        rcases hfinal.stop_entry with hdir' | ⟨hslash, hfile⟩
        · exact hdir (by rw [hentry, ← hkept, hdir'])
        · have hfile : t.entry (stop ++ [name]) = some .file := by rw [hentry, ← hkept, hfile]
          refine h.ends name [] rfl (stop ++ [name]) (habove.append rfl (cons_ne_nil _ _) ?_)
          rw [hslash]
          exact .file hfile
      | cons next rest =>
        have hdir' : t'.entry (stop ++ [name]) = some .dir := by
          refine t'.dir_of_below (cons_ne_nil next rest) ?_
          rw [← append_cons]
          rcases hfinal.stop_entry with h' | ⟨-, h'⟩ <;> rw [h'] <;> exact Option.some_ne_none _
        exact hdir (by rw [hentry, ← hkept, hdir'])
  · rw [hleft] at hsame
    rw [← hsame] at hparent
    exact absurd hparent (parent_not_mem _)

/-! ### Twice -/

theorem joinTail_eq_iff {final : List ν} :
    joinTail final [] = joinTail stop [name] ↔ final = stop ++ [name] ∧ stop ≠ [] := by
  constructor
  · intro h
    obtain ⟨hjoined, hroot⟩ := joinTail_inj h
    refine ⟨by simpa using hjoined, ?_⟩
    rintro rfl
    simp at hroot
  · rintro ⟨rfl, hroot⟩
    simp [joinTail, hroot]

section

variable {rest : List ν} (h : Deepest t components slash above (name :: rest) stop)

include h

/-- Behind its canonical form the missing names are missing again. -/
theorem Deepest.canonical (hfile : ∀ final, ¬ t.Resolves [] components false final) :
    Deepest t ((stop ++ name :: rest).map .normal) false (stop.map .normal) (name :: rest)
      stop := by
  have hleads : t.Resolves [] above false stop := by simpa using h.leads
  refine ⟨map_append, by simpa using hleads.canonical, ?_⟩
  intro first left hnames final hfinal
  obtain ⟨rfl, rfl⟩ := List.cons.inj hnames
  obtain ⟨mid, hmid, hname⟩ := hfinal.split (cons_ne_nil _ _)
  obtain rfl := hmid.slash_false.unique hleads.canonical
  have hlast : t.Resolves [] (above ++ [.normal name]) false final :=
    (hleads.slash_true hname.dir).append rfl (cons_ne_nil _ _) (by simpa using hname)
  cases rest with
  | nil =>
    refine hfile final ?_
    rw [h.split]
    exact hlast
  | cons next rest => exact h.ends name (next :: rest) rfl final (by simpa using hlast)

/-- A missing name that is there without the slash behind it. -/
theorem Deepest.slashed {final : List ν} (hfile : t.Resolves [] components false final) :
    rest = [] ∧ slash = true ∧ t.Resolves [] above true stop ∧
      t.Resolves stop [.normal name] false final ∧ t.entry final = some .file := by
  have hleads : t.Resolves [] above false stop := by simpa using h.leads
  have hslash : slash = true := by
    cases slash with
    | true => rfl
    | false => exact absurd hfile (h.not_resolves (cons_ne_nil _ _) final)
  have hrest : rest = [] := by
    cases rest with
    | nil => rfl
    | cons next rest =>
      have hlong := hfile
      rw [h.split, map_cons, append_cons] at hlong
      obtain ⟨mid, hmid, -⟩ := hlong.split (cons_ne_nil _ _)
      exact absurd (by simpa using hmid.slash_false) (h.ends name (next :: rest) rfl mid)
  subst hrest
  have hwhole := hfile
  rw [h.split] at hfile
  obtain ⟨mid, hmid, hname⟩ := hfile.split (cons_ne_nil _ _)
  obtain rfl := hmid.slash_false.unique hleads
  refine ⟨rfl, hslash, hmid, hname, ?_⟩
  rcases hwhole.stop_entry with hdir | ⟨-, hfinal⟩
  · subst hslash
    exact absurd (hwhole.slash_true hdir) (h.not_resolves (cons_ne_nil _ _) final)
  · exact hfinal

end

/-- Resolving what was resolved changes nothing, but for a file named with a slash behind it. -/
theorem resolveAbsolute_twice_iff (hc : Canonicalizes t canonicalize) :
    resolveAbsolute canonicalize (resolveAbsolute canonicalize absolute) =
      resolveAbsolute canonicalize absolute ↔ ¬ SlashedFile t absolute := by
  rcases deepest_or_same hc absolute with ⟨above, names, stop, h⟩ | ⟨hleft, -, -, hnot⟩
  · rw [resolveAbsolute_of_deepest hc h]
    cases names with
    | nil =>
      have hleads : t.Resolves [] absolute.components absolute.slash stop := by
        rw [h.split]
        simpa using h.leads
      have hcanonical :
          t.Resolves [] (joinTail stop []).components (joinTail stop []).slash stop := by
        rw [joinTail_components, append_nil]
        exact hleads.slash_false.canonical
      refine iff_of_true (resolveAbsolute_of_exists hc hcanonical) ?_
      rintro ⟨hslash, -, -, -, final, -, -, hfinal, hfile, -⟩
      obtain rfl := hleads.slash_false.unique hfinal
      rcases hleads.stop_entry with hdir | ⟨hslash', -⟩
      · rw [hfile] at hdir
        cases hdir
      · rw [hslash] at hslash'
        cases hslash'
    | cons name rest =>
      by_cases hfile : ∃ final, t.Resolves [] absolute.components false final
      · obtain ⟨final, hfinal⟩ := hfile
        obtain ⟨rfl, hslash, habove, hname, hentry⟩ := h.slashed hfinal
        have htwice : t.Resolves [] (joinTail stop [name]).components
            (joinTail stop [name]).slash final := by
          rw [joinTail_components, map_append]
          exact habove.canonical.append rfl (cons_ne_nil _ _) hname
        rw [resolveAbsolute_of_exists hc htwice, joinTail_eq_iff]
        constructor
        · rintro hequal ⟨-, above', place, name', final', hsplit, habove', hfinal', -, hother⟩
          rw [h.split] at hsplit
          obtain ⟨rfl, hlast⟩ := append_inj' hsplit rfl
          obtain rfl := Component.normal.inj (singleton_inj.mp hlast)
          obtain rfl := habove.unique habove'
          obtain rfl := hfinal.unique hfinal'
          exact hother hequal
        · intro hnot
          by_contra hother
          exact hnot ⟨hslash, above, stop, name, final, h.split, habove, hfinal, hentry, hother⟩
      · have hnone := not_exists.mp hfile
        refine iff_of_true (resolveAbsolute_of_deepest hc (h.canonical hnone)) ?_
        rintro ⟨-, -, -, -, final, -, -, hfinal, -⟩
        exact hnone final hfinal
  · rw [hleft, hleft]
    refine iff_of_true rfl ?_
    rintro ⟨-, above, place, name, final, hsplit, habove, -⟩
    exact hnot above [name] place hsplit (by simpa using habove.slash_false)

/-! ### Any path -/

/-- A property of the absolute form of a path, where it has one. -/
def RawPath.Absolutely (cwd : List ν) (path : RawPath ν) (holds : AbsolutePath ν → Prop) : Prop :=
  ∃ absolute, absolutePath cwd path = some absolute ∧ holds absolute

/-- A path that leads somewhere once its missing components were made is resolved the same way
before, and resolved again to itself, exactly when it led somewhere or missed names only, and is no
file named with a slash behind it. -/
theorem resolvePath_iff (hgrows : t.Grows t') (hc : Canonicalizes t canonicalize)
    (hc' : Canonicalizes t' canonicalize') (cwd : List ν) (path : RawPath ν) :
    (path.Absolutely cwd (Leads t') →
      (resolvePath canonicalize' cwd path = resolvePath canonicalize cwd path ∧
        resolvePath canonicalize cwd (resolvePath canonicalize cwd path) =
          resolvePath canonicalize cwd path ↔
      (path.Absolutely cwd (Leads t) ∨ path.Absolutely cwd (MissingNames t)) ∧
        ¬ path.Absolutely cwd (SlashedFile t))) ∧
    (path.Absolutely cwd (Leads t) ∨ path.Absolutely cwd (MissingNames t) →
      resolvePath canonicalize' cwd path = resolvePath canonicalize cwd path) ∧
    (resolvePath canonicalize cwd (resolvePath canonicalize cwd path) =
      resolvePath canonicalize cwd path ↔ ¬ path.Absolutely cwd (SlashedFile t)) := by
  have htwice : resolvePath canonicalize cwd (resolvePath canonicalize cwd path) =
      resolvePath canonicalize cwd path ↔ ¬ path.Absolutely cwd (SlashedFile t) := by
    cases hpath : absolutePath cwd path with
    | none =>
      have hleft : resolvePath canonicalize cwd path = path := by rw [resolvePath, hpath]
      rw [hleft, hleft]
      exact iff_of_true rfl fun ⟨absolute, habsolute, _⟩ => by simp [hpath] at habsolute
    | some absolute =>
      have hresolve : resolvePath canonicalize cwd path =
          .absolute (resolveAbsolute canonicalize absolute) := by rw [resolvePath, hpath]
      rw [hresolve]
      show RawPath.absolute (resolveAbsolute canonicalize (resolveAbsolute canonicalize absolute)) =
        _ ↔ _
      rw [RawPath.absolute.injEq, resolveAbsolute_twice_iff hc]
      simp [RawPath.Absolutely, hpath]
  have hsame : path.Absolutely cwd (Leads t) ∨ path.Absolutely cwd (MissingNames t) →
      resolvePath canonicalize' cwd path = resolvePath canonicalize cwd path := by
    rintro (⟨absolute, hpath, h⟩ | ⟨absolute, hpath, h⟩)
    · rw [resolvePath, resolvePath, hpath]
      exact congrArg RawPath.absolute (resolveAbsolute_grows hgrows hc hc' h)
    · rw [resolvePath, resolvePath, hpath]
      exact congrArg RawPath.absolute (resolveAbsolute_of_missingNames hgrows hc hc' h)
  refine ⟨fun ⟨absolute, hpath, hcreated⟩ => ?_, hsame, htwice⟩
  rw [htwice]
  refine and_congr_left fun _ => ⟨fun hequal => ?_, hsame⟩
  rw [resolvePath, resolvePath, hpath] at hequal
  by_cases hexists : Leads t absolute
  · exact .inl ⟨absolute, hpath, hexists⟩
  · exact .inr ⟨absolute, hpath, missingNames_of_created hgrows hc hc' hexists hcreated
      (RawPath.absolute.inj hequal)⟩

end Resolved

/-! ## Runs -/

section Runs

/-- Following a path where there are no links. -/
def followPlain (t : FileTree ν) : List ν → List (Component ν) → Bool → Option (List ν)
  | place, [], _ => some place
  | place, .parent :: rest, slash => followPlain t place.dropLast rest slash
  | place, .normal name :: rest, slash =>
    match t.entry (place ++ [name]) with
    | some .dir => followPlain t (place ++ [name]) rest slash
    | some .file => if rest.isEmpty && !slash then some (place ++ [name]) else none
    | _ => none

theorem dir_dropLast (t : FileTree ν) {place : List ν} (h : t.entry place = some .dir) :
    t.entry place.dropLast = some .dir := by
  obtain rfl | ⟨above, name, rfl⟩ := eq_nil_or_concat' place
  · exact h
  · rw [dropLast_concat]
    exact t.parent _ _ (by rw [h]; exact Option.some_ne_none _)

theorem followPlain_iff {t : FileTree ν}
    (hplain : ∀ place target, t.entry place ≠ some (.link target)) {stop : List ν} :
    ∀ {path : List (Component ν)} {place : List ν}, t.entry place = some .dir →
      (followPlain t place path slash = some stop ↔ t.Resolves place path slash stop)
  | [], place, hplace => by
    constructor
    · intro h
      obtain rfl := Option.some.inj h
      exact .here hplace
    · intro h
      cases h with
      | here _ => rfl
  | .parent :: rest, place, hplace => by
    rw [followPlain, followPlain_iff hplain (dir_dropLast t hplace)]
    constructor
    · exact .up hplace
    · intro h
      cases h with
      | up _ h => exact h
  | .normal name :: rest, place, hplace => by
    rw [followPlain]
    cases hentry : t.entry (place ++ [name]) with
    | none =>
      refine iff_of_false (by simp) fun h => ?_
      cases h <;> simp_all
    | some entry =>
      cases entry with
      | dir =>
        show followPlain t (place ++ [name]) rest slash = some stop ↔ _
        rw [followPlain_iff hplain hentry]
        constructor
        · exact .down hentry
        · intro h
          cases h with
          | down _ h => exact h
          | file hfile => simp [hentry] at hfile
          | link hlink _ => exact absurd hlink (hplain _ _)
      | file =>
        constructor
        · intro h
          by_cases hend : rest.isEmpty && !slash
          · obtain ⟨hrest, hslash⟩ := (Bool.and_eq_true _ _).mp hend
            obtain rfl := List.isEmpty_iff.mp hrest
            obtain rfl : slash = false := by simpa using hslash
            obtain rfl : place ++ [name] = stop := by simpa using h
            exact .file hentry
          · simp [hend] at h
        · intro h
          cases h with
          | down hdir _ => simp [hentry] at hdir
          | file _ => simp
          | link hlink _ => exact absurd hlink (hplain _ _)
      | link target => exact absurd hentry (hplain _ _)

/-- `canonicalize` where there are no links. -/
def canonicalizePlain (t : FileTree ν) (path : AbsolutePath ν) : Option (List ν) :=
  followPlain t [] path.components path.slash

theorem canonicalizes_plain {t : FileTree ν}
    (hplain : ∀ place target, t.entry place ≠ some (.link target)) :
    Canonicalizes t (canonicalizePlain t) :=
  fun _ _ => followPlain_iff hplain t.root

/-- A tree by its rows. -/
def plainTree (rows : List (List String × FileTree.Entry String))
    (hroot : rows.lookup [] = some .dir)
    (hrows : ∀ row ∈ rows, row.1 = [] ∨ rows.lookup row.1.dropLast = some .dir) :
    FileTree String where
  entry place := rows.lookup place
  root := hroot
  parent := by
    intro place name h
    obtain ⟨entry, hentry⟩ := Option.ne_none_iff_exists'.mp h
    obtain ⟨l, l', hsplit, -⟩ := List.lookup_eq_some_iff.mp hentry
    have hmem : (place ++ [name], entry) ∈ rows := by simp [hsplit]
    rcases hrows _ hmem with hnil | hdir
    · simp at hnil
    · rwa [List.dropLast_concat] at hdir

/-- A directory with nothing in it. -/
def beforeRows : List (List String × FileTree.Entry String) := [([], .dir), (["a"], .dir)]

/-- The same directory with a directory and a file in it, and a file beside it. -/
def afterRows : List (List String × FileTree.Entry String) :=
  [([], .dir), (["a"], .dir), (["a", "m"], .dir), (["a", "b"], .file), (["b"], .file)]

def beforeTree : FileTree String := plainTree beforeRows (by decide) (by decide)

def afterTree : FileTree String := plainTree afterRows (by decide) (by decide)

theorem plainTree_plain {rows : List (List String × FileTree.Entry String)}
    {hroot : rows.lookup [] = some .dir}
    {hrows : ∀ row ∈ rows, row.1 = [] ∨ rows.lookup row.1.dropLast = some .dir}
    (hplain : ∀ row ∈ rows, row.2 = .dir ∨ row.2 = .file) (place : List String)
    (target : FileTree.Target String) :
    (plainTree rows hroot hrows).entry place ≠ some (.link target) := by
  intro h
  obtain ⟨l, l', hsplit, -⟩ := lookup_eq_some_iff.mp h
  rcases hplain (place, .link target) (by simp [hsplit]) with hlink | hlink <;> cases hlink

theorem before_plain (place : List String) (target : FileTree.Target String) :
    beforeTree.entry place ≠ some (.link target) :=
  plainTree_plain (by decide) place target

theorem after_plain (place : List String) (target : FileTree.Target String) :
    afterTree.entry place ≠ some (.link target) :=
  plainTree_plain (by decide) place target

theorem before_grows : beforeTree.Grows afterTree where
  kept := by
    intro place entry h
    obtain ⟨l, l', hsplit, -⟩ := lookup_eq_some_iff.mp h
    have hmem : (place, entry) ∈ beforeRows := by simp [hsplit]
    exact (by decide : ∀ row ∈ beforeRows, afterRows.lookup row.1 = some row.2) _ hmem
  plain := fun place target h => absurd h (after_plain place target)

/-- `/a/b`. -/
def namedPath : RawPath String := .absolute ⟨false, [.normal "a", .normal "b"], false⟩

theorem namedPath_resolved :
    (namedPath.Absolutely [] (Leads afterTree) →
      (resolvePath (canonicalizePlain afterTree) [] namedPath =
          resolvePath (canonicalizePlain beforeTree) [] namedPath ∧
        resolvePath (canonicalizePlain beforeTree) []
            (resolvePath (canonicalizePlain beforeTree) [] namedPath) =
          resolvePath (canonicalizePlain beforeTree) [] namedPath ↔
      (namedPath.Absolutely [] (Leads beforeTree) ∨
          namedPath.Absolutely [] (MissingNames beforeTree)) ∧
        ¬ namedPath.Absolutely [] (SlashedFile beforeTree))) ∧
    (namedPath.Absolutely [] (Leads beforeTree) ∨
        namedPath.Absolutely [] (MissingNames beforeTree) →
      resolvePath (canonicalizePlain afterTree) [] namedPath =
        resolvePath (canonicalizePlain beforeTree) [] namedPath) ∧
    (resolvePath (canonicalizePlain beforeTree) []
          (resolvePath (canonicalizePlain beforeTree) [] namedPath) =
        resolvePath (canonicalizePlain beforeTree) [] namedPath ↔
      ¬ namedPath.Absolutely [] (SlashedFile beforeTree)) :=
  resolvePath_iff before_grows (canonicalizes_plain before_plain) (canonicalizes_plain after_plain)
    [] namedPath

/-- `/a/m/../b`, and `/b`: as they were, and as they are behind a canonical form. -/
theorem dotted_resolved : beforeTree.Grows afterTree ∧
    resolvePath (canonicalizePlain beforeTree) []
        (.absolute ⟨false, [.normal "a", .normal "m", .parent, .normal "b"], false⟩) =
      .absolute ⟨false, [.normal "a", .normal "m", .parent, .normal "b"], false⟩ ∧
    resolvePath (canonicalizePlain afterTree) []
        (.absolute ⟨false, [.normal "a", .normal "m", .parent, .normal "b"], false⟩) =
      .absolute ⟨false, [.normal "a", .normal "b"], false⟩ ∧
    resolvePath (canonicalizePlain beforeTree) [] (.absolute ⟨false, [.normal "b"], false⟩) =
      .absolute ⟨true, [.normal "b"], false⟩ ∧
    resolvePath (canonicalizePlain afterTree) [] (.absolute ⟨false, [.normal "b"], false⟩) =
      .absolute ⟨false, [.normal "b"], false⟩ := by
  exact ⟨before_grows, by decide +kernel⟩

end Runs

end Docx2Typed
