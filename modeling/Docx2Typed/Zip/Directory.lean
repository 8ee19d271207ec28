import Docx2Typed.Zip.Places
import Mathlib.Data.List.Perm.Basic
import Mathlib.Data.List.Range

/-!
# Reading the central directory

On the bytes of a well-formed layout the search for the end record ends at the end record, and
the walk over the central directory, when it ends, lists the entries of the layout in order.
-/

namespace Docx2Typed.Zip

open Library List

/-! ## The end record -/

theorem findEocdFrom_eq {package : Bytes} {window start : Nat}
    (hsig : eocdSig <+: package.drop start) (hwindow : window ≤ start)
    (hsole : ∀ pos, start < pos → ¬ eocdSig <+: package.drop pos) :
    ∀ n, start < n → findEocdFrom package window n = some start := by
  intro n hn
  induction n with
  | zero => exact absurd hn (Nat.not_lt_zero _)
  | succ pos ih =>
    rw [findEocdFrom, if_neg (by omega)]
    rcases Nat.lt_or_ge start pos with hlt | hge
    · rw [if_neg (hsole pos hlt), ih hlt]
    · obtain rfl : start = pos := by omega
      rw [if_pos hsig]

namespace Layout

variable {layout : Layout}

theorem serialize_eq : ∃ before, layout.serialize = before ++ layout.endRecord ∧
    before.length = layout.endStart :=
  ⟨body layout.members ++ layout.tail ++ layout.central ++ layout.afterCentral, rfl,
    by simp [endStart, centralOffset]; omega⟩

theorem length_serialize :
    layout.serialize.length = layout.endStart + (22 + layout.comment.length) := by
  obtain ⟨before, heq, hlength⟩ := layout.serialize_eq
  rw [heq, length_append, hlength, length_endRecord]

theorem findEocd_serialize (h : layout.WellFormed) :
    findEocd layout.serialize = some layout.endStart := by
  obtain ⟨before, heq, hlength⟩ := layout.serialize_eq
  have hcomment := h.comment
  have hwhole := layout.length_serialize
  refine findEocdFrom_eq ?_ (by omega) (fun pos hpos => ?_) _ (by omega)
  · rw [heq, ← hlength, drop_left, endRecord]
    simp only [append_assoc]
    exact List.prefix_append _ _
  · rw [heq, drop_append, drop_eq_nil_of_le (by omega), nil_append]
    exact h.soleEnd _ (by omega)

/-! ## The entries -/

/-- A member by its number, between the members in front of it and those behind. -/
theorem exists_split {i : Nat} {m : Member} (h : layout.members[i]? = some m) :
    ∃ front back, layout.members = front ++ m :: back ∧ front.length = i := by
  obtain ⟨hi, hm⟩ := List.getElem?_eq_some_iff.mp h
  refine ⟨layout.members.take i, layout.members.drop (i + 1), ?_, by simp; omega⟩
  rw [← hm, ← drop_eq_getElem_cons hi, take_append_drop]

/-- A name stands for one member. -/
theorem eq_of_named (hnames : (layout.members.map (·.name)).Nodup) {i j : Nat} {m n : Member}
    (hm : layout.members[i]? = some m) (hn : layout.members[j]? = some n)
    (hname : m.name = n.name) :
    i = j ∧ m = n := by
  have hi := (List.getElem?_eq_some_iff.mp hm).1
  obtain rfl : i = j := by
    refine (getElem?_inj (by simpa using hi) hnames).mp ?_
    simp [hm, hn, hname]
  exact ⟨rfl, Option.some.inj (hm.symm.trans hn)⟩

theorem getElem?_split {front back : List Member} {m : Member}
    (h : layout.members = front ++ m :: back) : layout.members[front.length]? = some m := by
  rw [h, getElem?_append_right (Nat.le_refl _), Nat.sub_self]
  rfl

theorem entry_eq {i : Nat} {m : Member} (h : layout.members[i]? = some m) :
    layout.entry i = m.centralEntry (layout.offset i) := by
  rw [entry, h]
  rfl

/-- Every record ends in front of the central directory. -/
theorem offset_add_le {i : Nat} {m : Member} (h : layout.members[i]? = some m) :
    layout.offset i + m.record.length ≤ layout.centralOffset := by
  obtain ⟨front, back, hmembers, rfl⟩ := exists_split h
  rw [offset_at hmembers, centralOffset, hmembers]
  simp
  omega

/-- What the walk makes of a part of the central directory that starts at a position. -/
inductive Listed (layout : Layout) : Nat → List Nat → List CdEntry → Prop
  | nil (pos : Nat) : Listed layout pos [] []
  | cons {pos i : Nat} {order : List Nat} {entries : List CdEntry} {m : Member} {name : Text}
      (hm : layout.members[i]? = some m) (hname : m.name = utf8 name)
      (rest : Listed layout (pos + (m.centralEntry (layout.offset i)).length) order entries) :
      Listed layout pos (i :: order) (⟨name, pos, layout.offset i⟩ :: entries)

theorem listed_of_walkCentral (hmembers : ∀ m ∈ layout.members, m.WellFormed)
    (hoffset : layout.centralOffset < 2 ^ 32) {package : Bytes} {stop : Nat} :
    ∀ {order : List Nat} {fuel pos : Nat} {entries : List CdEntry},
      (∀ i ∈ order, i < layout.members.length) →
      Placed (order.flatMap layout.entry) pos package →
      stop = pos + (order.flatMap layout.entry).length →
      walkCentral package stop fuel pos = .ok entries → Listed layout pos order entries := by
  intro order
  induction order with
  | nil =>
    intro fuel pos entries _ _ hstop h
    cases fuel with
    | zero => cases h
    | succ fuel =>
      obtain rfl : stop = pos := hstop
      rw [walkCentral, if_neg (lt_irrefl _), if_pos rfl] at h
      obtain rfl := Except.ok.inj h
      exact .nil _
  | cons i order ih =>
    intro fuel pos entries hin hplaced hstop h
    cases fuel with
    | zero => cases h
    | succ fuel =>
      obtain ⟨hi, hin⟩ := forall_mem_cons.mp hin
      have hm : layout.members[i]? = some layout.members[i] := getElem?_eq_getElem hi
      generalize hmember : layout.members[i] = m at hm
      have hwell := hmembers m (hmember ▸ getElem_mem hi)
      rw [flatMap_cons, entry_eq hm] at hplaced hstop
      have hentry := hplaced.left
      rw [length_append] at hstop
      have hlength := m.length_centralEntry (layout.offset i)
      rw [walkCentral, if_pos (by omega)] at h
      have hsig : sliceOf package pos (pos + 4) = .ok centralSig :=
        sliceOf_placed ((m.centralSig_placed _).trans hentry)
      rw [bind_ok hsig, if_neg (by simp), bind_ok (readU16_placed
        ((m.centralFlags_placed _).trans hentry) m.centralFlags.toNat_lt)] at h
      split at h
      · exact absurd h refuse_ne_ok
      rw [bind_ok (readU16_placed ((m.centralNameLength_placed _).trans hentry) hwell.name),
        bind_ok (readU16_placed ((m.centralExtraLength_placed _).trans hentry) hwell.centralExtra),
        bind_ok (readU16_placed ((m.commentLength_placed _).trans hentry) hwell.comment),
        bind_ok (sliceOf_placed ((m.name_placed _).trans hentry))] at h
      split at h
      · exact absurd h refuse_ne_ok
      next name hname =>
        have hread := offset_add_le hm
        rw [bind_ok (readU32_placed ((m.offset_placed _).trans hentry) (by omega))] at h
        obtain ⟨rest, hrest, h⟩ := bind_eq_ok h
        obtain rfl := Except.ok.inj h
        rw [← hlength] at hrest
        exact .cons hm (Library.Utf8.decode_eq_some_iff.mp hname)
          (ih hin hplaced.right (by omega) hrest)

/-- A listed entry is the entry of a member of the order, and stands where it says. -/
theorem Listed.of_mem {package : Bytes} {pos : Nat} {order : List Nat} {entries : List CdEntry}
    (h : Listed layout pos order entries)
    (hplaced : Placed (order.flatMap layout.entry) pos package) :
    ∀ e ∈ entries, ∃ i ∈ order, ∃ m, layout.members[i]? = some m ∧ m.name = utf8 e.name ∧
      e.localOffset = layout.offset i ∧
      Placed (m.centralEntry (layout.offset i)) e.entryPos package := by
  induction h with
  | nil => simp
  | cons hm hname rest ih =>
    rw [flatMap_cons, entry_eq hm] at hplaced
    intro e he
    rcases mem_cons.mp he with rfl | he
    · exact ⟨_, mem_cons_self, _, hm, hname, rfl, hplaced.left⟩
    · obtain ⟨i, hi, hrest⟩ := ih hplaced.right e he
      exact ⟨i, mem_cons_of_mem _ hi, hrest⟩

end Layout

/-- Whether every entry that a reader of a package finds leads to a local header. -/
def entriesLead (package : Bytes) : Option Bool := do
  let eocdPos ← findEocd package
  let size ← (readU32 package (eocdPos + 12)).toOption
  let start ← (readU32 package (eocdPos + 16)).toOption
  let entries ← (walkCentral package (start + size) (size + 1) start).toOption
  pure (entries.all fun e => slice package e.localOffset (e.localOffset + 4) = localSig)

theorem entriesLead_serialize {layout : Layout} (hwell : layout.WellFormed) :
    entriesLead layout.serialize ≠ some false := by
  intro h
  simp only [entriesLead, Option.bind_eq_bind, Option.bind_eq_some_iff,
    Layout.findEocd_serialize hwell, Option.some.injEq, exists_eq_left',
    readU32_placed (Layout.centralSize_placed.trans Layout.endRecord_placed) hwell.centralSize,
    readU32_placed (Layout.centralOffset_placed.trans Layout.endRecord_placed) hwell.centralOffset,
    Except.toOption] at h
  obtain ⟨entries, hwalk, hall⟩ := h
  split at hwalk
  next found hfound =>
    obtain rfl := Option.some.inj hwalk
    have hin : ∀ i ∈ layout.order, i < layout.members.length := fun i hi =>
      mem_range.mp (hwell.order.mem_iff.mp hi)
    have hlisted := Layout.listed_of_walkCentral hwell.members hwell.centralOffset hin
      Layout.central_placed rfl hfound
    have hlead : ∀ e ∈ found, slice layout.serialize e.localOffset (e.localOffset + 4) =
        localSig := by
      intro e he
      obtain ⟨i, -, m, hm, -, hoffset, -⟩ := hlisted.of_mem Layout.central_placed e he
      obtain ⟨front, back, hmembers, rfl⟩ := Layout.exists_split hm
      rw [hoffset]
      exact (m.localSig_placed.trans (Layout.record_placed hmembers).left.left).drop_take
    have hfalse : (found.all fun e => decide (slice layout.serialize e.localOffset
        (e.localOffset + 4) = localSig)) = false := Option.some.inj hall
    obtain ⟨e, he, hne⟩ := all_eq_false.mp hfalse
    exact hne (decide_eq_true (hlead e he))
  next => cases hwalk

end Docx2Typed.Zip
