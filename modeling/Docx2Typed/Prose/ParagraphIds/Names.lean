import Mathlib
import Docx2Typed.Prose.Locate

/-!
# What a paragraph id says

`ParagraphPath::id` prints a container ordinal and a paragraph ordinal with dots between them.
Decimal numerals hold no dot, so the printed fields can be read back: two paths of located
paragraphs print the same id exactly when they agree field by field.
-/

namespace Docx2Typed

open List

/-! ## Reading an id back -/

theorem dot_notMem_repr_nat (n : Nat) : '.' ∉ n.repr.toList := by
  rw [Nat.toList_repr]
  intro h
  have hd := Nat.isDigit_of_mem_toDigits (b := 10) (by decide) (by decide) h
  exact absurd hd (by decide)

theorem dot_notMem_repr (i : Int) : '.' ∉ i.repr.toList := by
  rw [Int.repr_eq_if]
  split
  · exact dot_notMem_repr_nat _
  · rw [String.toList_append]
    simp only [mem_append, not_or]
    exact ⟨by decide, dot_notMem_repr_nat _⟩

/-- Two dotted strings agree field by field. -/
theorem dotted_inj :
    ∀ {a b c d : List Char}, '.' ∉ a → '.' ∉ b → a ++ '.' :: c = b ++ '.' :: d → a = b ∧ c = d
  | [], [], _, _, _, _, h => ⟨rfl, (List.cons.inj h).2⟩
  | [], x :: b, _, _, _, hb, h => by
    rw [nil_append, cons_append] at h
    exact absurd (by rw [(List.cons.inj h).1]; simp) hb
  | x :: a, [], _, _, ha, _, h => by
    rw [nil_append, cons_append] at h
    exact absurd (by rw [(List.cons.inj h).1]; simp) ha
  | x :: a, y :: b, c, d, ha, hb, h => by
    rw [cons_append, cons_append] at h
    obtain ⟨hxy, htail⟩ := List.cons.inj h
    obtain ⟨hab, hcd⟩ := dotted_inj (fun hm => ha (mem_cons_of_mem _ hm))
      (fun hm => hb (mem_cons_of_mem _ hm)) htail
    exact ⟨by rw [hxy, hab], hcd⟩

theorem repr_nat_inj {m n : Nat} (h : m.repr.toList = n.repr.toList) : m = n :=
  Nat.repr_injective (String.toList_inj.mp h)

theorem repr_int_inj {i j : Int} (h : i.repr.toList = j.repr.toList) : i = j :=
  Int.repr_injective (String.toList_inj.mp h)

theorem box_id_toList (i : Int) (n : Nat) :
    (ParagraphPath.box i n).id.toList = 'B' :: (i.repr.toList ++ '.' :: 'P' :: n.repr.toList) := by
  simp [ParagraphPath.id, String.toList_append]

theorem sdt_id_toList (i : Int) (n : Nat) :
    (ParagraphPath.sdt i n).id.toList = 'S' :: (i.repr.toList ++ '.' :: 'P' :: n.repr.toList) := by
  simp [ParagraphPath.id, String.toList_append]

theorem cell_id_toList (i : Int) (chain : List (String × Nat)) :
    (ParagraphPath.cell i chain).id.toList =
      'T' :: (i.repr.toList ++ '.' :: 'R' :: ((chainValue "tr" chain).repr.toList ++
        '.' :: 'C' :: ((chainValue "tc" chain).repr.toList ++
          '.' :: 'P' :: (chainValue "p" chain).repr.toList))) := by
  simp [ParagraphPath.id, String.toList_append]

/-- What an id says about the path it was printed from. -/
def ParagraphPath.SameFields : ParagraphPath → ParagraphPath → Prop
  | .box i m, .box j n => i = j ∧ m = n
  | .sdt i m, .sdt j n => i = j ∧ m = n
  | .cell i chain, .cell j chain' =>
    i = j ∧ chainValue "tr" chain = chainValue "tr" chain' ∧
      chainValue "tc" chain = chainValue "tc" chain' ∧
      chainValue "p" chain = chainValue "p" chain'
  | .direct, .direct => True
  | _, _ => False

theorem ParagraphPath.id_eq_iff {p q : ParagraphPath} (hp : p ≠ .direct) (hq : q ≠ .direct) :
    p.id = q.id ↔ p.SameFields q := by
  rw [← String.toList_inj]
  cases p with
  | direct => exact absurd rfl hp
  | box i m =>
    cases q with
    | direct => exact absurd rfl hq
    | box j n =>
      rw [box_id_toList, box_id_toList]
      constructor
      · intro h
        obtain ⟨hi, hn⟩ := dotted_inj (dot_notMem_repr i) (dot_notMem_repr j)
          (List.cons.inj h).2
        exact ⟨repr_int_inj hi, repr_nat_inj (List.cons.inj hn).2⟩
      · rintro ⟨rfl, rfl⟩
        rfl
    | sdt j n =>
      rw [box_id_toList, sdt_id_toList]
      simp [SameFields]
    | cell j chain =>
      rw [box_id_toList, cell_id_toList]
      simp [SameFields]
  | sdt i m =>
    cases q with
    | direct => exact absurd rfl hq
    | box j n =>
      rw [box_id_toList, sdt_id_toList]
      simp [SameFields]
    | sdt j n =>
      rw [sdt_id_toList, sdt_id_toList]
      constructor
      · intro h
        obtain ⟨hi, hn⟩ := dotted_inj (dot_notMem_repr i) (dot_notMem_repr j)
          (List.cons.inj h).2
        exact ⟨repr_int_inj hi, repr_nat_inj (List.cons.inj hn).2⟩
      · rintro ⟨rfl, rfl⟩
        rfl
    | cell j chain =>
      rw [sdt_id_toList, cell_id_toList]
      simp [SameFields]
  | cell i chain =>
    cases q with
    | direct => exact absurd rfl hq
    | box j n =>
      rw [box_id_toList, cell_id_toList]
      simp [SameFields]
    | sdt j n =>
      rw [sdt_id_toList, cell_id_toList]
      simp [SameFields]
    | cell j chain' =>
      rw [cell_id_toList, cell_id_toList]
      constructor
      · intro h
        obtain ⟨hi, hr⟩ := dotted_inj (dot_notMem_repr i) (dot_notMem_repr j)
          (List.cons.inj h).2
        obtain ⟨hr, hc⟩ := dotted_inj (dot_notMem_repr_nat _) (dot_notMem_repr_nat _)
          (List.cons.inj hr).2
        obtain ⟨hc, hp⟩ := dotted_inj (dot_notMem_repr_nat _) (dot_notMem_repr_nat _)
          (List.cons.inj hc).2
        exact ⟨repr_int_inj hi, repr_nat_inj hr, repr_nat_inj hc,
          repr_nat_inj (List.cons.inj hp).2⟩
      · rintro ⟨rfl, hr, hc, hp⟩
        rw [hr, hc, hp]

/-! ## The ids handed out -/

theorem direct_id_ne {p : ParagraphPath} (hp : p ≠ .direct) (n : Nat) :
    "P" ++ toString n ≠ p.id := by
  intro h
  have h := congrArg String.toList h
  cases p with
  | direct => exact hp rfl
  | box i m =>
    rw [box_id_toList] at h
    simp [String.toList_append] at h
  | sdt i m =>
    rw [sdt_id_toList] at h
    simp [String.toList_append] at h
  | cell i chain =>
    rw [cell_id_toList] at h
    simp [String.toList_append] at h

theorem nameLocated_direct (k start stop : Nat) (rest : List (Nat × Nat × ParagraphPath)) :
    nameLocated k ((start, stop, .direct) :: rest) =
      ("P" ++ toString k, start, stop) :: nameLocated (k + 1) rest := rfl

theorem nameLocated_path {path : ParagraphPath} (h : path ≠ .direct) (k start stop : Nat)
    (rest : List (Nat × Nat × ParagraphPath)) :
    nameLocated k ((start, stop, path) :: rest) =
      (path.id, start, stop) :: nameLocated k rest := by
  cases path with
  | direct => exact absurd rfl h
  | box i n => rfl
  | sdt i n => rfl
  | cell i chain => rfl

/-- An id in the list is a direct paragraph's number or the id of a path. -/
theorem mem_nameLocated : ∀ {k : Nat} {l : List (Nat × Nat × ParagraphPath)} {id : String},
    id ∈ (nameLocated k l).map (·.1) →
      (∃ j, k ≤ j ∧ id = "P" ++ toString j) ∨
        ∃ entry ∈ l, entry.2.2 ≠ .direct ∧ id = entry.2.2.id
  | k, [], id, h => by simp [nameLocated] at h
  | k, (start, stop, path) :: rest, id, h => by
    by_cases hpath : path = .direct
    · subst hpath
      rw [nameLocated_direct, map_cons] at h
      rcases mem_cons.mp h with rfl | h
      · exact .inl ⟨k, Nat.le_refl _, rfl⟩
      · rcases mem_nameLocated h with ⟨j, hj, rfl⟩ | ⟨entry, he, hne, rfl⟩
        · exact .inl ⟨j, by omega, rfl⟩
        · exact .inr ⟨entry, mem_cons_of_mem _ he, hne, rfl⟩
    · rw [nameLocated_path hpath, map_cons] at h
      rcases mem_cons.mp h with rfl | h
      · exact .inr ⟨_, mem_cons_self .., hpath, rfl⟩
      · rcases mem_nameLocated h with ⟨j, hj, rfl⟩ | ⟨entry, he, hne, rfl⟩
        · exact .inl ⟨j, hj, rfl⟩
        · exact .inr ⟨entry, mem_cons_of_mem _ he, hne, rfl⟩

theorem id_mem_nameLocated : ∀ {k : Nat} {l : List (Nat × Nat × ParagraphPath)}
    {entry : Nat × Nat × ParagraphPath}, entry ∈ l → entry.2.2 ≠ .direct →
      entry.2.2.id ∈ (nameLocated k l).map (·.1)
  | k, (start, stop, path) :: rest, entry, he, hne => by
    by_cases hpath : path = .direct
    · subst hpath
      rw [nameLocated_direct, map_cons]
      rcases mem_cons.mp he with rfl | he
      · exact absurd rfl hne
      · exact mem_cons_of_mem _ (id_mem_nameLocated he hne)
    · rw [nameLocated_path hpath, map_cons]
      rcases mem_cons.mp he with rfl | he
      · exact mem_cons_self ..
      · exact mem_cons_of_mem _ (id_mem_nameLocated he hne)

/-- The direct paragraphs never clash: distinctness is a matter of the paths. -/
theorem nodup_nameLocated_iff : ∀ {k : Nat} {l : List (Nat × Nat × ParagraphPath)},
    ((nameLocated k l).map (·.1)).Nodup ↔
      l.Pairwise fun a b => a.2.2 ≠ .direct → b.2.2 ≠ .direct → a.2.2.id ≠ b.2.2.id
  | k, [] => by simp [nameLocated]
  | k, (start, stop, path) :: rest => by
    by_cases hpath : path = .direct
    · subst hpath
      rw [nameLocated_direct, map_cons, nodup_cons, nodup_nameLocated_iff,
        pairwise_cons]
      refine and_congr_left fun _ => ⟨fun _ b _ hne => absurd rfl hne, fun _ hmem => ?_⟩
      rcases mem_nameLocated hmem with ⟨j, hj, heq⟩ | ⟨entry, -, hne, heq⟩
      · have := repr_nat_inj (congrArg String.toList ((String.append_right_inj _).mp heq))
        omega
      · exact direct_id_ne hne k heq
    · rw [nameLocated_path hpath, map_cons, nodup_cons, nodup_nameLocated_iff,
        pairwise_cons]
      refine and_congr_left fun _ => ⟨fun hno b hb _ hne heq => ?_, fun hno hmem => ?_⟩
      · simp only at heq
        exact hno (heq ▸ id_mem_nameLocated hb hne)
      · rcases mem_nameLocated hmem with ⟨j, -, heq⟩ | ⟨entry, he, hne, heq⟩
        · exact direct_id_ne hpath j heq.symm
        · exact hno entry he hpath hne heq

end Docx2Typed
