import CoreReuse.Proofs.Traversal

namespace CoreReuse

open Hash

namespace Hash

theorem combine_pair (x y : UInt64) : combine [x, y] = x * 31 + y := by
  simp [combine]

theorem rolled_eq_foldl (m : Option Nat) (d : Nat) (acc : UInt64) (ts : List Term) :
    rolled m d acc ts = ts.foldl (fun acc c => acc * 31 + seen m d c) acc := by
  induction ts generalizing acc with
  | nil => rfl
  | cons t ts ih => rw [rolled_cons, ih, combine_pair, List.foldl_cons]

theorem expanded_eq_foldl (m : Option Nat) (d : Nat) (t : Term) :
    expanded m d t = t.children.foldl (fun acc c => acc * 31 + seen m (d + 1) c) (content t) := by
  cases t with
  | app n f as => exact rolled_eq_foldl m (d + 1) _ as
  | quantified n q bs b => exact combine_pair _ _
  | lambda n is b => exact combine_pair _ _
  | literal n ty x => rfl

end Hash

variable {V : Vocabulary} {m : Option Nat} {h : Hasher} {t : Term}

theorem Hasher.Reached.hashAll (hr : h.Reached V m) {ts : List Term} (hts : ∀ t ∈ ts, t ∈ V) :
    (h.hashAll ts).2.Reached V m := by
  induction ts generalizing h with
  | nil => exact hr
  | cons t ts ih =>
    have hfirst := hr.hash (hts t List.mem_cons_self)
    exact ih hfirst fun s hs => hts s (List.mem_cons_of_mem t hs)

theorem Hasher.Reached.hash_eq_structural (hr : h.Reached V m) (ht : t ∈ V) :
    (h.hash t).1 = structural m t ∧ h.Loops t (structural m t) (h.hash t).2 ∧
    (∀ d s, expanded m d s = s.children.foldl (fun acc c => acc * 31 +
      if expands m (d + 1) then expanded m (d + 1) c else content c) (content s)) ∧
    (∀ ts, (∀ s ∈ ts, s ∈ V) →
      (h.hashAll ts).1 = ts.map (structural m) ∧ (h.hashAll ts).2.Reached V m) ∧
    (∀ n f, h.memo[n]? = some f → ∃ s ∈ V, s.node = n ∧ f = ⟨structural none s, s.height⟩) ∧
    (V.Fits m → (h.hash t).2.overflowed = false) := by
  have hs := hr.sound
  obtain ⟨hx, hs'⟩ := hash_sound hs ht
  refine ⟨hx, ?_, expanded_eq_foldl m, fun ts hts => ⟨?_, hr.hashAll hts⟩, hs.memo, hs'.calm⟩
  · rw [← hx]
    exact h.loops_hash t
  · exact (hashAll_sound ts h hs hts).1

def Term.tower : Term :=
  .app 2 ⟨"f", [.int], .int, none⟩ [.app 1 ⟨"f", [.int], .int, none⟩ [.app 0 (.constant "x" .int) []]]

def Term.towered : Term :=
  .app 4 ⟨"p", [.int], .bool, none⟩ [.app 3 ⟨"g", [.int], .int, none⟩ [.tower]]

def Vocabulary.towers : Vocabulary := .ofTerms [.towered] (by decide)

theorem Vocabulary.towers_fits : towers.Fits (some 2) := by
  rintro _ ⟨⟩
  exact ⟨by decide, show ∀ t ∈ Term.subtermsAll [.towered], _ by decide⟩

theorem Hasher.Reached.hash_towered :
    let cold := Hasher.ofMaxHeight (some 2)
    let warm := (cold.hash .tower).2
    warm.memo[Term.tower.node]? = some ⟨structural none .tower, 3⟩ ∧
      structural (some 2) .towered ≠ structural none .towered ∧
      (warm.hash .towered).1 = (cold.hash .towered).1 ∧ (warm.hash .towered).2.overflowed = false := by
  have houter : Term.towered ∈ Vocabulary.towers := Vocabulary.mem_ofTerms List.mem_cons_self
  have hinner : Term.tower ∈ Vocabulary.towers :=
    Vocabulary.mem_of_mem_children (Vocabulary.mem_of_mem_children houter List.mem_cons_self)
      List.mem_cons_self
  have hcold : Reached .towers (some 2) (.ofMaxHeight (some 2)) := .new
  obtain ⟨hc, -⟩ := hcold.hash_eq_structural houter
  obtain ⟨hw, -, -, -, -, hcalm⟩ := (hcold.hash hinner).hash_eq_structural houter
  exact ⟨by decide +kernel, by decide +kernel, hw.trans hc.symm, hcalm Vocabulary.towers_fits⟩

end CoreReuse
