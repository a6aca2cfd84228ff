import Std.Data.TreeSet

namespace CoreReuse

structure Bits where
  width : Nat
  listed : List Nat
  /-- Whether the list holds the numbers that are left out. -/
  inverted : Bool
  ascending : listed.Pairwise (· < ·)
  below : ∀ i ∈ listed, i < width
deriving DecidableEq, Repr

namespace Bits

def contains (b : Bits) (i : Nat) : Bool := i < b.width && b.listed.contains i != b.inverted

def empty (width : Nat) : Bits := ⟨width, [], false, .nil, by simp⟩

instance : Inhabited Bits := ⟨empty 0⟩

def ofMembers (width : Nat) (members : List Nat) : Bits where
  width
  listed := (Std.TreeSet.ofList (members.filter (· < width))).toList
  inverted := false
  ascending :=
    (@Std.TreeSet.ordered_toList Nat compare _ _).imp fun h => Nat.compare_eq_lt.mp h
  below := by simp +contextual [Std.TreeSet.mem_toList, Std.TreeSet.mem_ofList]

@[simp] theorem width_ofMembers (width : Nat) (members : List Nat) :
    (ofMembers width members).width = width := rfl

theorem mem_listed_ofMembers {width : Nat} {members : List Nat} {i : Nat} :
    i ∈ (ofMembers width members).listed ↔ i ∈ members ∧ i < width := by
  simp [ofMembers, Std.TreeSet.mem_toList, Std.TreeSet.mem_ofList]

theorem contains_ofMembers {width : Nat} {members : List Nat} {i : Nat} (hi : i < width) :
    (ofMembers width members).contains i = members.contains i := by
  have h := @mem_listed_ofMembers width members i
  rw [Bool.eq_iff_iff]
  simp [contains, h, hi, show (ofMembers width members).inverted = false from rfl]

def ofHashes (width : UInt64) (hashes : List UInt64) : Bits :=
  ofMembers width.toNat (hashes.map fun h => (h % width).toNat)

@[simp] theorem width_ofHashes (width : UInt64) (hashes : List UInt64) :
    (ofHashes width hashes).width = width.toNat := rfl

theorem contains_ofHashes (width : UInt64) (hashes : List UInt64) {i : Nat}
    (hi : i < width.toNat) :
    (ofHashes width hashes).contains i = hashes.any fun h => (h % width).toNat == i := by
  rw [ofHashes, contains_ofMembers hi, List.contains_eq_any_beq, List.any_map]
  simp only [Function.comp_def, Bool.beq_comm]

def complement (b : Bits) : Bits := { b with inverted := !b.inverted }

@[simp] theorem width_complement (b : Bits) : b.complement.width = b.width := rfl

theorem contains_complement (b : Bits) {i : Nat} (hi : i < b.width) :
    b.complement.contains i = !b.contains i := by
  simp [complement, contains, hi]

theorem sublist_iff_subset {as bs : List Nat} (ha : as.Pairwise (· < ·))
    (hb : bs.Pairwise (· < ·)) : as.Sublist bs ↔ ∀ i ∈ as, i ∈ bs := by
  refine ⟨fun h i hi => h.mem hi, fun h => ?_⟩
  induction bs generalizing as with
  | nil => exact List.eq_nil_iff_forall_not_mem.mpr (fun i hi => by simpa using h i hi) ▸ .slnil
  | cons b bs ih =>
    have hb' := List.pairwise_cons.mp hb
    cases as with
    | nil => exact List.nil_sublist _
    | cons a as =>
      have ha' := List.pairwise_cons.mp ha
      have after : ∀ i ∈ as, i ∈ bs := fun i hi => by
        have hai := ha'.1 i hi
        rcases List.mem_cons.mp (h a (by simp)) with hab | hab
        · rcases List.mem_cons.mp (h i (by simp [hi])) with hib | hib
          · omega
          · exact hib
        · have := hb'.1 a hab
          rcases List.mem_cons.mp (h i (by simp [hi])) with hib | hib
          · omega
          · exact hib
      rcases List.mem_cons.mp (h a (by simp)) with hab | hab
      · exact hab ▸ .cons_cons a (ih ha'.2 hb'.2 after)
      · exact .cons b (ih ha hb'.2 fun i hi => (List.mem_cons.mp hi).elim (· ▸ hab) (after i))

def disjoint (a b : Bits) : Bool :=
  match a.inverted, b.inverted with
  | false, false => a.listed.all fun i => !b.listed.contains i
  | false, true => a.listed.isSublist b.listed
  | true, false => b.listed.isSublist a.listed
  | true, true => (List.range a.width).all fun i => a.listed.contains i || b.listed.contains i

theorem disjoint_iff {a b : Bits} (h : a.width = b.width) :
    a.disjoint b = true ↔ ∀ i, a.contains i = true → b.contains i = false := by
  obtain ⟨width, as, ia, ha, la⟩ := a
  obtain ⟨_, bs, ib, hb, lb⟩ := b
  cases h
  cases ia <;> cases ib <;>
    simp only [disjoint, contains, List.isSublist_iff_sublist, sublist_iff_subset ha hb,
      sublist_iff_subset hb ha, List.all_eq_true, List.mem_range] <;>
    refine forall_congr' fun i => ?_ <;>
    have := la i <;> have := lb i <;>
    by_cases i ∈ as <;> by_cases i ∈ bs <;> simp_all

def toList (b : Bits) : List Bool :=
  let listed := Std.TreeSet.ofList b.listed
  (List.range b.width).map fun i => listed.contains i != b.inverted

def ofList (bs : List Bool) : Bits :=
  ofMembers bs.length (bs.zipIdx.filterMap fun (b, i) => if b then some i else none)

end Bits

end CoreReuse
