import CoreReuse.Index.Kind

namespace CoreReuse

def FlatKind.Positive : FlatKind → Prop
  | list => True
  | random candidates => 1 ≤ candidates
  | bloom nbits => 1 ≤ nbits

theorem one_le_iff_ne_zero {n : UInt64} : 1 ≤ n ↔ n ≠ 0 := by
  rw [UInt64.le_iff_toNat_le, ne_eq, ← UInt64.toNat_inj]
  exact Nat.one_le_iff_ne_zero

theorem FlatKind.validate_eq_ok_iff {k : FlatKind} : k.validate = .ok () ↔ k.Positive := by
  cases k with
  | list => exact iff_of_true rfl trivial
  | random candidates => simp [validate, Positive, one_le_iff_ne_zero]
  | bloom nbits => simp [validate, Positive, one_le_iff_ne_zero]

namespace IndexKind

variable {kind : IndexKind} {first : FlatKind} {rest : List FlatKind}

theorem validate_composite_flat {k : FlatKind} {inner : IndexKind} :
    (composite (flat k) inner).validate = (k.validate >>= fun _ => inner.validate) := rfl

theorem validate_composite {outer inner : IndexKind}
    (h : (composite outer inner).validate = .ok ()) :
    outer.outermost.validate = .ok () ∧ inner.validate = .ok () := by
  cases outer with
  | flat kind =>
    rw [validate_composite_flat] at h
    cases hk : kind.validate with
    | error e =>
      rw [hk] at h
      cases h
    | ok u =>
      rw [hk] at h
      exact ⟨hk, h⟩
  | composite outer' inner' => cases h

theorem validate_levels (h : kind.validate = .ok ()) :
    ∀ l ∈ kind.levels.1 :: kind.levels.2, l.validate = .ok () := by
  induction kind with
  | flat kind => simpa [levels, validate] using h
  | composite outer inner _ ih =>
    obtain ⟨houter, hinner⟩ := validate_composite h
    exact List.forall_mem_cons.mpr ⟨houter, ih hinner⟩

theorem ofLevels_levels (h : kind.validate = .ok ()) : ofLevels kind.levels.1 kind.levels.2 = kind := by
  induction kind with
  | flat kind => rfl
  | composite outer inner _ ih =>
    cases outer with
    | flat k => exact congrArg (composite (flat k)) (ih (validate_composite h).2)
    | composite outer' inner' => cases h

theorem validate_ofLevels (h : ∀ l ∈ first :: rest, l.validate = .ok ()) :
    (ofLevels first rest).validate = .ok () := by
  induction rest generalizing first with
  | nil => exact h first List.mem_cons_self
  | cons next rest ih =>
    obtain ⟨hfirst, hrest⟩ := List.forall_mem_cons.mp h
    rw [ofLevels, validate_composite_flat, hfirst]
    exact ih hrest

theorem validate_eq_ok_iff : kind.validate = .ok () ↔
    ∃ first rest, kind = ofLevels first rest ∧ ∀ l ∈ first :: rest, l.Positive := by
  constructor
  · intro h
    have hpositive := fun l hl => FlatKind.validate_eq_ok_iff.mp (validate_levels h l hl)
    exact ⟨_, _, (ofLevels_levels h).symm, hpositive⟩
  · rintro ⟨first, rest, rfl, h⟩
    exact validate_ofLevels fun l hl => FlatKind.validate_eq_ok_iff.mpr (h l hl)

end IndexKind

end CoreReuse
