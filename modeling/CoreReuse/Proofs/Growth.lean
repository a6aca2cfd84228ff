import CoreReuse.Proofs.Fingerprints

namespace CoreReuse.Hasher

structure Grows (h h' : Hasher) : Prop where
  maxHeight_eq : h'.maxHeight = h.maxHeight
  memo : ∀ n : NodeId, (h.memo[n]?).isSome → (h'.memo[n]?).isSome
  overflowed : h.overflowed = true → h'.overflowed = true

variable {h h' h'' : Hasher}

theorem Grows.refl (h : Hasher) : h.Grows h := ⟨rfl, fun _ => id, id⟩

theorem Grows.trans (h1 : h.Grows h') (h2 : h'.Grows h'') : h.Grows h'' where
  maxHeight_eq := h2.maxHeight_eq.trans h1.maxHeight_eq
  memo n hn := h2.memo n (h1.memo n hn)
  overflowed ho := h2.overflowed (h1.overflowed ho)

theorem lookup?_grows (depth : Nat) (n : NodeId) : h.Grows (h.lookup? depth n).2 := by
  unfold lookup?
  split
  · exact .refl h
  · exact .refl h
  · exact ⟨rfl, fun _ => id, fun ho => by simp [ho]⟩

theorem remember_grows (n : NodeId) (f : Fingerprint) : h.Grows (h.remember n f) where
  maxHeight_eq := rfl
  memo k hk := by
    simp only [remember, Std.TreeMap.getElem?_insert]
    split
    · rfl
    · exact hk
  overflowed := id

theorem finish_grows {n : NodeId} {done : Subtree × Hasher} (hd : h.Grows done.2) :
    h.Grows (finish n done).2 := by
  unfold finish
  split
  · exact hd.trans (remember_grows n _)
  · exact hd

theorem visit_grows {depth : Nat} {t : Term} {expand : Hasher → Subtree × Hasher}
    (he : ∀ g : Hasher, g.Grows (expand g).2) : h.Grows (h.visit depth t expand).2 := by
  have hl := lookup?_grows (h := h) depth t.node
  unfold visit
  rcases hq : h.lookup? depth t.node with ⟨_ | f, g⟩ <;> rw [hq] at hl
  · dsimp only
    split
    · exact hl.trans (he g)
    · exact hl
  · exact hl

mutual

theorem expand_grows {depth : Nat} : ∀ (t : Term) (h : Hasher), h.Grows (expand depth t h).2
  | .app _ _ as, h => finish_grows (absorbAll_grows as _ h)
  | .quantified _ _ _ b, _ => finish_grows (visit_grows (expand_grows b))
  | .lambda _ _ b, _ => finish_grows (visit_grows (expand_grows b))
  | .literal _ _ _, h => finish_grows (.refl h)

theorem absorbAll_grows {depth : Nat} : ∀ (ts : List Term) (acc : Subtree) (h : Hasher),
    h.Grows (absorbAll depth ts acc h).2
  | [], _, h => .refl h
  | t :: ts, _, _ => (visit_grows (expand_grows t)).trans (absorbAll_grows ts _ _)

end

theorem hash_grows (h : Hasher) (t : Term) : h.Grows (h.hash t).2 := by
  have hl := lookup?_grows (h := h) 1 t.node
  unfold hash
  rcases hq : h.lookup? 1 t.node with ⟨_ | f, g⟩ <;> rw [hq] at hl
  · exact hl.trans (expand_grows t g)
  · exact hl

theorem hashAll_grows (ts : List Term) (h : Hasher) : h.Grows (h.hashAll ts).2 := by
  induction ts generalizing h with
  | nil => exact .refl h
  | cons t ts ih => exact (hash_grows h t).trans (ih _)

theorem overflowed_of_remembered {k : Nat} {t : Term} (hm : h.maxHeight = some k)
    (hk : wordLimit ≤ k + 2) (ht : (h.memo[t.node]?).isSome) : (h.hash t).2.overflowed = true := by
  obtain ⟨f, hf⟩ := Option.isSome_iff_exists.mp ht
  have ho : (h.lookup? 1 t.node).2.overflowed = true := by
    rw [lookup?_bounded hf hm]
    simp [hk]
  unfold hash
  rcases hl : h.lookup? 1 t.node with ⟨_ | f, g⟩
  · rw [hl] at ho
    exact (expand_grows t g).overflowed ho
  · rw [hl] at ho
    exact ho

theorem remembered_finish {n : NodeId} {done : Subtree × Hasher} (hf : (finish n done).1.full = true) :
    ((finish n done).2.memo[n]?).isSome := by
  have hd : done.1.full = true := hf
  simp [finish, hd, remember]

theorem remembered_expand {depth : Nat} {t : Term} (hf : (expand depth t h).1.full = true) :
    ((expand depth t h).2.memo[t.node]?).isSome := by
  cases t with
  | app n f as => exact remembered_finish hf
  | quantified n q bs b => exact remembered_finish hf
  | lambda n is b => exact remembered_finish hf
  | literal n ty x => exact remembered_finish hf

theorem remembered_hash {V : Vocabulary} {m : Option Nat} {t : Term} (hs : h.Sound V m) (ht : t ∈ V)
    (hw : Hash.Whole m 1 t.height) : ((h.hash t).2.memo[t.node]?).isSome := by
  have hl := hs.lookup? ht (room_root ht)
  have hg := lookup?_grows (h := h) 1 t.node
  unfold hash
  rcases hq : h.lookup? 1 t.node with ⟨_ | f, g⟩ <;> rw [hq] at hl hg
  · have hc := (expand_sound t g hl.1 ht (room_root ht)).1
    exact remembered_expand (hc.full hw)
  · apply hg.memo
    cases hm : h.memo[t.node]? with
    | none =>
      rw [lookup?_of_none hm] at hq
      cases hq
    | some _ => rfl

end CoreReuse.Hasher
