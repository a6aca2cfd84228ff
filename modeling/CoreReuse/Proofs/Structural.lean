import CoreReuse.Proofs.Vocabulary

namespace CoreReuse

open Hash

namespace Term

theorem height_pos (t : Term) : 1 ≤ t.height := by
  cases t <;> simp only [height] <;> omega

theorem height_le_heights {t : Term} {ts : List Term} (ht : t ∈ ts) : t.height ≤ heights ts := by
  induction ts with
  | nil => cases ht
  | cons u ts ih =>
    rw [heights]
    rcases List.mem_cons.mp ht with rfl | ht
    · exact Nat.le_max_left _ _
    · exact Nat.le_trans (ih ht) (Nat.le_max_right _ _)

theorem height_lt_of_mem_children {c t : Term} (h : c ∈ t.children) : c.height < t.height := by
  cases t with
  | app n f as => exact Nat.lt_succ_of_le (height_le_heights h)
  | quantified n q bs b =>
    obtain rfl := List.mem_singleton.mp h
    exact Nat.lt_succ_self _
  | lambda n is b =>
    obtain rfl := List.mem_singleton.mp h
    exact Nat.lt_succ_self _
  | literal n ty x => cases h

theorem isLeaf_iff_height {t : Term} : t.isLeaf = true ↔ t.height = 1 := by
  cases t with
  | app n f as =>
    cases as with
    | nil => simp [isLeaf, children, height, heights]
    | cons a as =>
      have := a.height_pos
      simp only [isLeaf, children, List.isEmpty_cons, Bool.false_eq_true, height, heights, false_iff]
      omega
  | quantified n q bs b =>
    have := b.height_pos
    simp only [isLeaf, children, List.isEmpty_cons, Bool.false_eq_true, height, false_iff]
    omega
  | lambda n is b =>
    have := b.height_pos
    simp only [isLeaf, children, List.isEmpty_cons, Bool.false_eq_true, height, false_iff]
    omega
  | literal n ty x => simp [isLeaf, children, height]

end Term

namespace Hash

def seen (maxHeight : Option Nat) (depth : Nat) (t : Term) : UInt64 :=
  if expands maxHeight depth then expanded maxHeight depth t else content t

theorem rolled_cons (m : Option Nat) (d : Nat) (acc : UInt64) (t : Term) (ts : List Term) :
    rolled m d acc (t :: ts) = rolled m d (combine [acc, seen m d t]) ts := by
  rw [rolled, seen]

@[simp] theorem expands_none (d : Nat) : expands none d = true := rfl

mutual

theorem expanded_none_depth (d e : Nat) :
    ∀ t : Term, expanded none d t = expanded none e t
  | .app n f as => by
    simp only [expanded]
    exact rolled_none_depth (d + 1) (e + 1) _ as
  | .quantified n q bs b => by simp only [expanded, expands_none, expanded_none_depth (d + 1) (e + 1) b]
  | .lambda n is b => by simp only [expanded, expands_none, expanded_none_depth (d + 1) (e + 1) b]
  | .literal n ty x => rfl

theorem rolled_none_depth (d e : Nat) (acc : UInt64) :
    ∀ ts : List Term, rolled none d acc ts = rolled none e acc ts
  | [] => rfl
  | t :: ts => by
    simp only [rolled, expands_none, if_true, expanded_none_depth d e t]
    exact rolled_none_depth d e _ ts

end

theorem structural_app (n : NodeId) (f : Decl) (as : List Term) :
    structural none (.app n f as) = rolled none 1 (content (.app n f as)) as :=
  rolled_none_depth _ _ _ as

theorem structural_quantified (n : NodeId) (q : Quantifier) (bs : List Decl) (b : Term) :
    structural none (.quantified n q bs b) =
      combine [content (.quantified n q bs b), structural none b] := by
  simp only [structural, expanded, expands_none, if_true, expanded_none_depth (1 + 1) 1 b]

theorem structural_lambda (n : NodeId) (is : List Decl) (b : Term) :
    structural none (.lambda n is b) = combine [content (.lambda n is b), structural none b] := by
  simp only [structural, expanded, expands_none, if_true, expanded_none_depth (1 + 1) 1 b]

theorem expanded_leaf {m : Option Nat} {d : Nat} {t : Term} (h : t.height = 1) :
    expanded m d t = content t := by
  cases t with
  | app n f as =>
    cases as with
    | nil => rfl
    | cons a as =>
      have := a.height_pos
      simp only [Term.height, Term.heights] at h
      omega
  | quantified n q bs b =>
    have := b.height_pos
    simp only [Term.height] at h
    omega
  | lambda n is b =>
    have := b.height_pos
    simp only [Term.height] at h
    omega
  | literal n ty x => rfl

theorem seen_leaf {m : Option Nat} {d : Nat} {t : Term} (h : t.height = 1) : seen m d t = content t := by
  rw [seen, expanded_leaf h, ite_self]

mutual

theorem expanded_of_le {m d : Nat} :
    ∀ t : Term, t.height + d ≤ m + 2 → expanded (some m) d t = structural none t
  | .app n f as, h => by
    simp only [Term.height] at h
    rw [structural_app, expanded, rolled_of_le as (by omega)]
    exact rolled_none_depth _ _ _ as
  | .quantified n q bs b, h => by
    simp only [Term.height] at h
    have hb := seen_of_le b (show b.height + (d + 1) ≤ m + 2 by omega)
    rw [structural_quantified]
    exact congrArg (fun x => combine [_, x]) hb
  | .lambda n is b, h => by
    simp only [Term.height] at h
    have hb := seen_of_le b (show b.height + (d + 1) ≤ m + 2 by omega)
    rw [structural_lambda]
    exact congrArg (fun x => combine [_, x]) hb
  | .literal n ty x, h => rfl

theorem seen_of_le {m d : Nat} (t : Term) (h : t.height + d ≤ m + 2) :
    seen (some m) d t = structural none t := by
  by_cases hd : d ≤ m
  · simp only [seen, expands, hd, decide_true, if_true]
    exact expanded_of_le t h
  · have h1 : t.height = 1 := by
      have := t.height_pos
      omega
    rw [seen_leaf h1, structural, expanded_leaf h1]

theorem rolled_of_le {m d : Nat} {acc : UInt64} :
    ∀ ts : List Term, Term.heights ts + d ≤ m + 2 →
      rolled (some m) d acc ts = rolled none d acc ts
  | [], h => rfl
  | t :: ts, h => by
    simp only [Term.heights] at h
    rw [rolled_cons, rolled_cons, seen_of_le t (by omega), rolled_of_le ts (by omega)]
    simp only [seen, expands_none, if_true, structural, expanded_none_depth d 1 t]

end

end Hash

def Hash.Whole (m : Option Nat) (depth height : Nat) : Prop := ∀ b, m = some b → height + depth ≤ b + 2

theorem Hash.Whole.mono {m : Option Nat} {d e n k : Nat} (h : Whole m d n) (hk : k + e ≤ n + d) :
    Whole m e k :=
  fun b hb => Nat.le_trans hk (h b hb)

structure Subtree.Covers (s : Subtree) (m : Option Nat) (depth : Nat) (hash : UInt64) (t : Term) :
    Prop where
  hash_eq : s.hash = hash
  complete : s.full = true → s.hash = structural none t ∧ s.height = t.height
  full : Whole m depth t.height → s.full = true

structure Subtree.Gathers (s : Subtree) (whole : Prop) (hash unbounded : UInt64) (height : Nat) :
    Prop where
  hash_eq : s.hash = hash
  complete : s.full = true → s.hash = unbounded ∧ s.height = height
  full : whole → s.full = true

theorem Subtree.gathers_ofNode (t : Term) : (Subtree.ofNode t).Gathers True (content t) (content t) 1 :=
  ⟨rfl, fun _ => ⟨rfl, rfl⟩, fun _ => rfl⟩

theorem Subtree.covers_cutOff {b d : Nat} (t : Term) (hd : b < d) :
    (Subtree.cutOff t).Covers (some b) d (content t) t where
  hash_eq := rfl
  complete h := by
    have h1 := Term.isLeaf_iff_height.mp h
    exact ⟨(expanded_leaf h1).symm, h1.symm⟩
  full h := by
    have h1 := h b rfl
    have h2 := t.height_pos
    exact Term.isLeaf_iff_height.mpr (by omega)

theorem Subtree.Gathers.absorb {s c : Subtree} {w : Prop} {x y : UInt64} {n : Nat} {m : Option Nat}
    {d : Nat} {t : Term} (hs : s.Gathers w x y n) (hc : c.Covers m d (seen m d t) t) :
    (s.absorb c).Gathers (w ∧ Whole m d t.height) (combine [x, seen m d t])
      (combine [y, structural none t]) (max n (t.height + 1)) where
  hash_eq := by rw [Subtree.absorb, hs.hash_eq, hc.hash_eq]
  complete h := by
    simp only [Subtree.absorb, Bool.and_eq_true] at h
    obtain ⟨h1, h2⟩ := hs.complete h.1
    obtain ⟨h3, h4⟩ := hc.complete h.2
    exact ⟨by rw [Subtree.absorb, h1, h3], by rw [Subtree.absorb, h2, h4]⟩
  full h := by rw [Subtree.absorb, hs.full h.1, hc.full h.2, Bool.and_self]

end CoreReuse
