import CoreReuse.Proofs.Index.Grammar

namespace CoreReuse

open Text

namespace FlatKind

variable {k : FlatKind} {n : UInt64}

theorem toList_toString_random :
    (random n).toString.toList = "random".toList ++ ':' :: Nat.toDigits 10 n.toNat := by
  rw [toString, String.toList_append, Nat.toString_eq_ofList_toDigits, String.toList_ofList,
    String.toList_ofList]
  rfl

theorem toList_toString_bloom :
    (bloom n).toString.toList = "bloom".toList ++ ':' :: Nat.toDigits 10 n.toNat := by
  rw [toString, String.toList_append, Nat.toString_eq_ofList_toDigits, String.toList_ofList,
    String.toList_ofList]
  rfl

theorem spells_toString (h : k.validate = .ok ()) : Spells k k.toString.toList := by
  have hpositive := validate_eq_ok_iff.mp h
  cases k with
  | list => exact .list (padded_self _)
  | random n =>
    rw [toList_toString_random]
    exact .sized .random (padded_self _) (padded_self _) (numeral_toDigits _)
      (one_le_iff_ne_zero.mp hpositive)
  | bloom n =>
    rw [toList_toString_bloom]
    exact .sized .bloom (padded_self _) (padded_self _) (numeral_toDigits _)
      (one_le_iff_ne_zero.mp hpositive)

theorem slash_notMem_toDigits (n : Nat) : '/' ∉ Nat.toDigits 10 n := by
  intro h
  exact absurd (Nat.isDigit_of_mem_toDigits (by decide) (by decide) h) (by decide)

theorem slash_notMem_toString (k : FlatKind) : '/' ∉ k.toString.toList := by
  have hdigits := slash_notMem_toDigits
  cases k with
  | list => decide
  | random n =>
    rw [toList_toString_random]
    simp [hdigits]
  | bloom n =>
    rw [toList_toString_bloom]
    simp [hdigits]

end FlatKind

namespace IndexKind

variable {kind : IndexKind}

theorem toList_toString_ofLevels (first : FlatKind) (rest : List FlatKind) :
    (ofLevels first rest).toString.toList =
      ['/'].intercalate ((first :: rest).map fun k => k.toString.toList) := by
  induction rest generalizing first with
  | nil => simp [ofLevels, toString]
  | cons next rest ih =>
    rw [ofLevels, toString, String.toList_append, String.toList_append, ih]
    simp [toString]

theorem splitOn_toString_ofLevels (first : FlatKind) (rest : List FlatKind) :
    (ofLevels first rest).toString.toList.splitOn '/' =
      (first :: rest).map fun k => k.toString.toList := by
  rw [toList_toString_ofLevels]
  apply List.splitOn_intercalate
  · intro text htext
    obtain ⟨k, -, rfl⟩ := List.mem_map.mp htext
    exact k.slash_notMem_toString
  · exact List.cons_ne_nil _ _

theorem parse_toString_of_validate (h : kind.validate = .ok ()) : parse kind.toString = .ok kind := by
  have hlevels := validate_levels h
  rw [← ofLevels_levels h, parse_eq_ok_iff]
  refine ⟨_, _, ?_, rfl⟩
  rw [splitOn_toString_ofLevels, List.forall₂_map_right_iff, List.forall₂_same]
  exact fun k hk => FlatKind.spells_toString (hlevels k hk)

theorem parse_toString_iff :
    (∀ kind : IndexKind, parse kind.toString = .ok kind ↔ kind.validate = .ok ()) ∧
      ∀ (s : String) (kind : IndexKind), parse s = .ok kind →
        kind.validate = .ok () ∧ parse kind.toString = .ok kind := by
  refine ⟨fun kind => ⟨validate_of_parse, parse_toString_of_validate⟩, fun s kind h => ?_⟩
  have hvalid := validate_of_parse h
  exact ⟨hvalid, parse_toString_of_validate hvalid⟩

theorem parse_toString_nested :
    let right := composite (flat .list) (composite (flat (.random 3)) (flat .list))
    let left := composite (composite (flat .list) (flat (.random 3))) (flat .list)
    parse " list /random: +03 / list" = .ok right ∧ parse right.toString = .ok right ∧
      left.toString = right.toString ∧ parse left.toString ≠ .ok left := by
  intro right left
  obtain ⟨hiff, hread⟩ := parse_toString_iff
  have hparse : parse " list /random: +03 / list" = .ok right := by decide +kernel
  refine ⟨hparse, (hread _ _ hparse).2, by decide +kernel, fun h => ?_⟩
  exact absurd ((hiff left).mp h) (by decide +kernel)

end IndexKind

end CoreReuse
