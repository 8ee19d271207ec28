import Mathlib.Data.List.Basic
import Mathlib.Data.List.Infix

/-!
# Directories, files and symbolic links

A tree of directories, files and links by the places of its entries, and the place a path leads
to: `..` leads to the directory above, a link to what its target leads to, and a file ends a path.
A link that leads nowhere, or to itself, has no such place.

* `Resolves.unique`, `Resolves.split`, `Resolves.append`: paths are followed component by component;
* `Resolves.canonical`: the place a path leads to leads to itself;
* `Grows`, `Grows.stop_of_missing`: what is put where nothing stood is found where it was put.
-/

namespace Docx2Typed.Library

open List

universe u

/-- A component of a path, without `.`. -/
inductive Component (ν : Type u) where
  | parent
  | normal (name : ν)
  deriving DecidableEq

namespace FileTree

/-- What a symbolic link holds; `slash` says that it ends in one. -/
structure Target (ν : Type u) where
  absolute : Bool
  components : List (Component ν)
  slash : Bool
  deriving DecidableEq

inductive Entry (ν : Type u) where
  | dir
  | file
  | link (target : Target ν)
  deriving DecidableEq

end FileTree

open FileTree (Target Entry)

structure FileTree (ν : Type u) where
  entry : List ν → Option (Entry ν)
  root : entry [] = some .dir
  parent : ∀ place name, entry (place ++ [name]) ≠ none → entry place = some .dir

namespace FileTree

variable {ν : Type u} {t t' : FileTree ν}

/-- From the directory `place` the components lead to `stop`.  A path that ends in a slash leads to
a directory. -/
inductive Resolves (t : FileTree ν) : List ν → List (Component ν) → Bool → List ν → Prop
  | here {place : List ν} {slash : Bool} (hplace : t.entry place = some .dir) :
      Resolves t place [] slash place
  | up {place stop : List ν} {rest : List (Component ν)} {slash : Bool}
      (hplace : t.entry place = some .dir) (h : Resolves t place.dropLast rest slash stop) :
      Resolves t place (.parent :: rest) slash stop
  | down {place stop : List ν} {name : ν} {rest : List (Component ν)} {slash : Bool}
      (hdir : t.entry (place ++ [name]) = some .dir)
      (h : Resolves t (place ++ [name]) rest slash stop) :
      Resolves t place (.normal name :: rest) slash stop
  | file {place : List ν} {name : ν} (hfile : t.entry (place ++ [name]) = some .file) :
      Resolves t place [.normal name] false (place ++ [name])
  | link {place stop : List ν} {name : ν} {rest : List (Component ν)} {slash : Bool}
      {target : Target ν} (hlink : t.entry (place ++ [name]) = some (.link target))
      (h : Resolves t (if target.absolute then [] else place) (target.components ++ rest)
        (slash || (rest.isEmpty && target.slash)) stop) :
      Resolves t place (.normal name :: rest) slash stop

theorem dir_of_below (t : FileTree ν) {place : List ν} : ∀ {rest : List ν}, rest ≠ [] →
    t.entry (place ++ rest) ≠ none → t.entry place = some .dir := by
  intro rest
  induction rest using List.reverseRecOn with
  | nil => exact fun h => absurd rfl h
  | append_singleton rest name ih =>
    intro _ h
    rw [← append_assoc] at h
    have hdir := t.parent _ _ h
    by_cases hrest : rest = []
    · rwa [hrest, append_nil] at hdir
    · exact ih hrest (by rw [hdir]; exact Option.some_ne_none _)

namespace Resolves

variable {place stop stop' : List ν} {path xs ys : List (Component ν)} {slash : Bool}

section

variable (h : t.Resolves place path slash stop)

include h

theorem dir : t.entry place = some .dir := by
  cases h with
  | here hplace => exact hplace
  | up hplace _ => exact hplace
  | down hdir _ => exact t.parent _ _ (by rw [hdir]; exact Option.some_ne_none _)
  | file hfile => exact t.parent _ _ (by rw [hfile]; exact Option.some_ne_none _)
  | link hlink _ => exact t.parent _ _ (by rw [hlink]; exact Option.some_ne_none _)

theorem stop_entry : t.entry stop = some .dir ∨ slash = false ∧ t.entry stop = some .file := by
  induction h with
  | here hplace => exact .inl hplace
  | up _ _ ih => exact ih
  | down _ _ ih => exact ih
  | file hfile => exact .inr ⟨rfl, hfile⟩
  | link _ _ ih => exact ih.imp_right fun h => ⟨(Bool.or_eq_false_iff.mp h.1).1, h.2⟩

theorem unique (h' : t.Resolves place path slash stop') : stop = stop' := by
  induction h with
  | here _ =>
    cases h' with
    | here _ => rfl
  | up _ _ ih =>
    cases h' with
    | up _ h' => exact ih h'
  | down hdir _ ih =>
    cases h' with
    | down _ h' => exact ih h'
    | file hfile => simp [hdir] at hfile
    | link hlink _ => simp [hdir] at hlink
  | file hfile =>
    cases h' with
    | down hdir _ => simp [hfile] at hdir
    | file _ => rfl
    | link hlink _ => simp [hfile] at hlink
  | link hlink _ ih =>
    cases h' with
    | down hdir _ => simp [hlink] at hdir
    | file hfile => simp [hlink] at hfile
    | link hlink' h' =>
      rw [hlink] at hlink'
      obtain rfl := Entry.link.inj (Option.some.inj hlink')
      exact ih h'

theorem slash_false : t.Resolves place path false stop := by
  induction h with
  | here hplace => exact .here hplace
  | up hplace _ ih => exact .up hplace ih
  | down hdir _ ih => exact .down hdir ih
  | file hfile => exact .file hfile
  | @link place stop name rest slash target hlink h ih =>
    refine .link hlink ?_
    cases hend : rest.isEmpty && target.slash with
    | false => simpa [hend] using ih
    | true => simpa [hend] using h

theorem slash_true (hdir : t.entry stop = some .dir) : t.Resolves place path true stop := by
  induction h with
  | here hplace => exact .here hplace
  | up hplace _ ih => exact .up hplace (ih hdir)
  | down hdown _ ih => exact .down hdown (ih hdir)
  | file hfile => simp [hfile] at hdir
  | link hlink _ ih => exact .link hlink (by simpa using ih hdir)

end

/-- A path is followed to a directory, and from there on. -/
theorem split (h : t.Resolves place (xs ++ ys) slash stop) (hys : ys ≠ []) :
    ∃ mid, t.Resolves place xs true mid ∧ t.Resolves mid ys slash stop := by
  generalize hpath : xs ++ ys = path at h
  induction h generalizing xs with
  | here hplace => exact absurd (append_eq_nil_iff.mp hpath).2 hys
  | @up place stop rest slash hplace h ih =>
    cases xs with
    | nil =>
      subst hpath
      exact ⟨place, .here hplace, .up hplace h⟩
    | cons x xs =>
      obtain ⟨rfl, hrest⟩ := List.cons.inj hpath
      obtain ⟨mid, hxs, hmid⟩ := ih hrest
      exact ⟨mid, .up hplace hxs, hmid⟩
  | @down place stop name rest slash hdir h ih =>
    cases xs with
    | nil =>
      subst hpath
      exact ⟨place, .here (Resolves.down hdir h).dir, .down hdir h⟩
    | cons x xs =>
      obtain ⟨rfl, hrest⟩ := List.cons.inj hpath
      obtain ⟨mid, hxs, hmid⟩ := ih hrest
      exact ⟨mid, .down hdir hxs, hmid⟩
  | @file place name hfile =>
    cases xs with
    | nil =>
      subst hpath
      exact ⟨place, .here (Resolves.file hfile).dir, .file hfile⟩
    | cons x xs => exact absurd (append_eq_nil_iff.mp (List.cons.inj hpath).2).2 hys
  | @link place stop name rest slash target hlink h ih =>
    cases xs with
    | nil =>
      subst hpath
      exact ⟨place, .here (Resolves.link hlink h).dir, .link hlink h⟩
    | cons x xs =>
      rw [cons_append] at hpath
      obtain ⟨rfl, rfl⟩ := List.cons.inj hpath
      obtain ⟨mid, hxs, hmid⟩ := ih (append_assoc _ _ _)
      have hmore : (xs ++ ys).isEmpty = false := by simp [hys]
      rw [hmore, Bool.false_and, Bool.or_false] at hmid
      exact ⟨mid, .link hlink (by simpa using hxs), hmid⟩

theorem append (h : t.Resolves place xs slash stop) (hslash : slash = true) (hys : ys ≠ [])
    {slash' : Bool} (h' : t.Resolves stop ys slash' stop') :
    t.Resolves place (xs ++ ys) slash' stop' := by
  induction h with
  | here _ => exact h'
  | up hplace _ ih => exact .up hplace (ih hslash h')
  | down hdir _ ih => exact .down hdir (ih hslash h')
  | file _ => cases hslash
  | @link place stop name rest slash target hlink _ ih =>
    have hmore : (rest ++ ys).isEmpty = false := by simp [hys]
    refine .link hlink ?_
    show t.Resolves _ (target.components ++ (rest ++ ys)) (slash' || ((rest ++ ys).isEmpty && _)) _
    rw [hmore, Bool.false_and, Bool.or_false, ← append_assoc]
    exact ih (by simp [hslash]) h'

end Resolves

variable {slash : Bool}

/-- What stands somewhere is found by its names, when it is no link. -/
theorem resolves_names {place : List ν} : ∀ {names : List ν},
    t.entry (place ++ names) = some .dir →
      t.Resolves place (names.map .normal) slash (place ++ names)
  | [], h => by
    rw [append_nil] at h ⊢
    exact .here h
  | name :: names, h => by
    rw [append_cons] at h ⊢
    have hdir : t.entry (place ++ [name]) = some .dir := by
      cases names with
      | nil => rwa [append_nil] at h
      | cons next names =>
        exact t.dir_of_below (cons_ne_nil _ _) (by rw [h]; exact Option.some_ne_none _)
    exact .down hdir (resolves_names h)

variable {path : List (Component ν)} {place stop : List ν}

/-- The place a path leads to leads to itself. -/
theorem Resolves.canonical (h : t.Resolves place path slash stop) :
    t.Resolves [] (stop.map .normal) slash stop := by
  rcases h.stop_entry with hdir | ⟨rfl, hfile⟩
  · exact resolves_names hdir
  · obtain rfl | ⟨above, name, rfl⟩ := eq_nil_or_concat' stop
    · rw [t.root] at hfile
      cases hfile
    · have habove := t.parent _ _ (by rw [hfile]; exact Option.some_ne_none _)
      rw [map_append]
      exact (resolves_names habove).append rfl (cons_ne_nil _ _) (.file hfile)

/-- Names lead where they say when no link is on the way. -/
theorem Resolves.eq_of_plain {stop : List ν} : ∀ {names place : List ν},
    (∀ taken, taken <+: names → taken ≠ [] →
      ∀ target, t.entry (place ++ taken) ≠ some (.link target)) →
    t.Resolves place (names.map .normal) slash stop → stop = place ++ names
  | [], place, _, h => by
    rw [map_nil] at h
    cases h with
    | here _ => rw [append_nil]
  | name :: names, place, hplain, h => by
    rw [map_cons] at h
    generalize hrest : names.map Component.normal = rest at h
    cases h with
    | down hdir h =>
      subst hrest
      rw [append_cons]
      refine eq_of_plain (fun taken htaken hne target => ?_) h
      rw [← append_cons]
      exact hplain (name :: taken) (cons_prefix_cons.mpr ⟨rfl, htaken⟩) (cons_ne_nil _ _)
        target
    | file _ =>
      obtain rfl := map_eq_nil_iff.mp hrest
      rfl
    | link hlink _ => exact absurd hlink (hplain [name] ⟨names, rfl⟩ (cons_ne_nil _ _) _)

/-- Directories and files were put where nothing stood. -/
structure Grows (t t' : FileTree ν) : Prop where
  kept : ∀ place entry, t.entry place = some entry → t'.entry place = some entry
  plain : ∀ place target, t'.entry place = some (.link target) →
    t.entry place = some (.link target)

theorem Grows.resolves (hgrows : t.Grows t') (h : t.Resolves place path slash stop) :
    t'.Resolves place path slash stop := by
  induction h with
  | here hplace => exact .here (hgrows.kept _ _ hplace)
  | up hplace _ ih => exact .up (hgrows.kept _ _ hplace) ih
  | down hdir _ ih => exact .down (hgrows.kept _ _ hdir) ih
  | file hfile => exact .file (hgrows.kept _ _ hfile)
  | link hlink _ ih => exact .link (hgrows.kept _ _ hlink) ih

/-- Behind a name that was missing the names lead where they say. -/
theorem Grows.stop_of_missing (hgrows : t.Grows t') {place names stop : List ν} {name : ν}
    (hmissing : t.entry (place ++ [name]) = none)
    (h : t'.Resolves place ((name :: names).map .normal) slash stop) :
    stop = place ++ name :: names := by
  refine Resolves.eq_of_plain (fun taken htaken hne target hlink => ?_) h
  have hlink := hgrows.plain _ _ hlink
  obtain ⟨first, taken, rfl⟩ := exists_cons_of_ne_nil hne
  obtain ⟨rfl, -⟩ := cons_prefix_cons.mp htaken
  by_cases hend : taken = []
  · rw [hend, hmissing] at hlink
    cases hlink
  · rw [append_cons] at hlink
    have hdir := t.dir_of_below hend (by rw [hlink]; exact Option.some_ne_none _)
    rw [hmissing] at hdir
    cases hdir

end FileTree

end Docx2Typed.Library
