import CoreReuse.Proofs.Structural

namespace CoreReuse

open Hash

def Term.fingerprint (t : Term) : Fingerprint := ⟨structural none t, t.height⟩

def Vocabulary.Room (V : Vocabulary) (m : Option Nat) (n : Nat) : Prop := V.Fits m → m.isSome → n < wordLimit

theorem Vocabulary.Room.mono {V : Vocabulary} {m : Option Nat} {n k : Nat} (h : V.Room m n) (hk : k ≤ n) :
    V.Room m k :=
  fun hf hm => Nat.lt_of_le_of_lt hk (h hf hm)

namespace Hasher

structure Sound (V : Vocabulary) (maxHeight : Option Nat) (h : Hasher) : Prop where
  maxHeight_eq : h.maxHeight = maxHeight
  memo : ∀ n f, h.memo[n]? = some f → ∃ t ∈ V, t.node = n ∧ f = t.fingerprint
  calm : V.Fits maxHeight → h.overflowed = false

variable {V : Vocabulary} {m : Option Nat} {h : Hasher} {t : Term}

theorem sound_ofMaxHeight (V : Vocabulary) (m : Option Nat) : (ofMaxHeight m).Sound V m where
  maxHeight_eq := rfl
  memo n f hf := by simp [ofMaxHeight] at hf
  calm _ := rfl

theorem Sound.clear (hs : h.Sound V m) : h.clear.Sound V m where
  maxHeight_eq := hs.maxHeight_eq
  memo n f hf := by simp [Hasher.clear] at hf
  calm := hs.calm

theorem Sound.memo_eq (hs : h.Sound V m) (ht : t ∈ V) {f : Fingerprint}
    (hf : h.memo[t.node]? = some f) : f = t.fingerprint := by
  obtain ⟨s, hsV, hn, rfl⟩ := hs.memo _ _ hf
  rw [V.eq_of_node_eq hsV ht hn]

theorem Sound.remember (hs : h.Sound V m) (ht : t ∈ V) : (h.remember t.node t.fingerprint).Sound V m where
  maxHeight_eq := hs.maxHeight_eq
  memo n f hf := by
    simp only [Hasher.remember, Std.TreeMap.getElem?_insert, Std.LawfulEqCmp.compare_eq_iff_eq] at hf
    split at hf
    · next hn =>
      obtain rfl := Option.some.inj hf
      exact ⟨t, ht, hn, rfl⟩
    · exact hs.memo n f hf
  calm := hs.calm

theorem lookup?_of_none {depth : Nat} {n : NodeId} (hf : h.memo[n]? = none) :
    h.lookup? depth n = (none, h) := by
  simp only [Hasher.lookup?, hf]

theorem lookup?_unbounded {depth : Nat} {n : NodeId} {f : Fingerprint} (hf : h.memo[n]? = some f)
    (hb : h.maxHeight = none) : h.lookup? depth n = (some f, h) := by
  simp only [Hasher.lookup?, hf, hb]

theorem lookup?_bounded {depth b : Nat} {n : NodeId} {f : Fingerprint} (hf : h.memo[n]? = some f)
    (hb : h.maxHeight = some b) :
    h.lookup? depth n = (if b + 2 < f.height + depth then none else some f,
      { h with overflowed := h.overflowed ||
        (wordLimit ≤ b + 2 || wordLimit ≤ f.height + depth) }) := by
  simp only [Hasher.lookup?, hf, hb]

theorem Sound.lookup? (hs : h.Sound V m) (ht : t ∈ V) {depth : Nat}
    (hd : V.Room m (t.height + depth)) :
    (h.lookup? depth t.node).2.Sound V m ∧ ∀ f, (h.lookup? depth t.node).1 = some f →
      f = t.fingerprint ∧ ∀ b, m = some b → t.height + depth ≤ b + 2 := by
  obtain rfl := hs.maxHeight_eq
  cases hf : h.memo[t.node]? with
  | none =>
    rw [lookup?_of_none hf]
    exact ⟨hs, by simp⟩
  | some f =>
    obtain rfl := hs.memo_eq ht hf
    cases hb : h.maxHeight with
    | none =>
      rw [lookup?_unbounded hf hb]
      exact ⟨hb ▸ hs, fun f hf => ⟨(Option.some.inj hf).symm, by simp⟩⟩
    | some b =>
      rw [lookup?_bounded hf hb]
      refine ⟨⟨hb, hs.memo, fun hfit => ?_⟩, fun f hf => ?_⟩
      · rw [← hb] at hfit
        have h1 := (hfit b hb).1
        have h2 : t.fingerprint.height + depth < wordLimit := hd hfit (by simp [hb])
        rw [hs.calm hfit, decide_eq_false (Nat.not_le.mpr h1), decide_eq_false (Nat.not_le.mpr h2)]
        rfl
      · by_cases hlt : b + 2 < t.fingerprint.height + depth
        · simp [hlt] at hf
        · rw [if_neg hlt] at hf
          exact ⟨(Option.some.inj hf).symm, fun c hc => Option.some.inj hc ▸ Nat.not_lt.mp hlt⟩

theorem finish_sound {n : NodeId} {s : Subtree} {depth : Nat} {x : UInt64} (hs : h.Sound V m)
    (ht : t ∈ V) (hn : t.node = n) (hc : s.Covers m depth x t) :
    (finish n (s, h)).1.Covers m depth x t ∧ (finish n (s, h)).2.Sound V m := by
  refine ⟨hc, ?_⟩
  unfold finish
  cases hfull : s.full with
  | false => simpa using hs
  | true =>
    obtain ⟨h1, h2⟩ := hc.complete hfull
    simp only [if_true, h1, h2, ← hn]
    exact hs.remember ht

theorem visit_sound (depth : Nat) {expand : Hasher → Subtree × Hasher} (hs : h.Sound V m) (ht : t ∈ V)
    (hd : V.Room m (t.height + depth))
    (he : ∀ h : Hasher, h.Sound V m →
      (expand h).1.Covers m depth (expanded m depth t) t ∧ (expand h).2.Sound V m) :
    (h.visit depth t expand).1.Covers m depth (seen m depth t) t ∧
      (h.visit depth t expand).2.Sound V m := by
  obtain ⟨hs', hf⟩ := hs.lookup? ht hd
  unfold visit
  rcases hl : h.lookup? depth t.node with ⟨_ | f, h'⟩
  · rw [hl] at hs'
    have hx : expands h'.maxHeight depth = expands m depth := by rw [hs'.maxHeight_eq]
    by_cases hm : expands m depth = true
    · simpa only [hx, hm, if_true, seen] using he h' hs'
    · simp only [hx, hm, seen]
      refine ⟨?_, hs'⟩
      cases m with
      | none => exact absurd rfl hm
      | some b => exact Subtree.covers_cutOff t (by simpa [expands] using hm)
  · rw [hl] at hs' hf
    obtain ⟨rfl, hb⟩ := hf f rfl
    refine ⟨⟨?_, fun _ => ⟨rfl, rfl⟩, fun _ => rfl⟩, hs'⟩
    cases m with
    | none =>
      simp only [seen, expands_none, if_true]
      exact expanded_none_depth 1 depth t
    | some b => exact (seen_of_le t (hb b rfl)).symm

theorem covers_binder {depth : Nat} {b : Term} {c : Subtree}
    (hx : expanded m depth t = combine [content t, seen m (depth + 1) b])
    (hn : structural none t = combine [content t, structural none b])
    (hh : t.height = b.height + 1) (hc : c.Covers m (depth + 1) (seen m (depth + 1) b) b) :
    ((Subtree.ofNode t).absorb c).Covers m depth (expanded m depth t) t := by
  have ha := (Subtree.gathers_ofNode t).absorb hc
  refine ⟨ha.hash_eq.trans hx.symm, fun hfull => ?_, fun hw => ?_⟩
  · obtain ⟨h1, h2⟩ := ha.complete hfull
    refine ⟨h1.trans hn.symm, ?_⟩
    rw [h2, hh]
    omega
  · exact ha.full ⟨trivial, hw.mono (by omega)⟩

mutual

theorem expand_sound {depth : Nat} :
    ∀ (t : Term) (h : Hasher), h.Sound V m → t ∈ V → V.Room m (t.height + depth) →
      (expand depth t h).1.Covers m depth (expanded m depth t) t ∧ (expand depth t h).2.Sound V m
  | .app n f as, h, hs, ht, hd => by
    have hd' : V.Room m (Term.heights as + (depth + 1)) := hd.mono (by simp only [Term.height]; omega)
    obtain ⟨hc, hs'⟩ := absorbAll_sound (Nat.le_refl 1) as _ h hs (Vocabulary.args_app ht) hd'
      (Subtree.gathers_ofNode (.app n f as))
    apply finish_sound hs' ht rfl
    refine ⟨hc.hash_eq, fun hfull => ?_, fun hw => ?_⟩
    · obtain ⟨h1, h2⟩ := hc.complete hfull
      refine ⟨h1.trans (rolled_none_depth _ _ _ as), ?_⟩
      rw [h2, Term.height]
      omega
    · rw [Term.height] at hw
      exact hc.full ⟨trivial, hw.mono (by omega)⟩
  | .quantified n q bs b, h, hs, ht, hd => by
    have hd' : V.Room m (b.height + (depth + 1)) := hd.mono (by simp only [Term.height]; omega)
    obtain ⟨hc, hs'⟩ := visit_sound (depth + 1) hs (Vocabulary.body_quantified ht) hd'
      (fun h hs => expand_sound b h hs (Vocabulary.body_quantified ht) hd')
    exact finish_sound hs' ht rfl (covers_binder rfl (structural_quantified n q bs b) rfl hc)
  | .lambda n is b, h, hs, ht, hd => by
    have hd' : V.Room m (b.height + (depth + 1)) := hd.mono (by simp only [Term.height]; omega)
    obtain ⟨hc, hs'⟩ := visit_sound (depth + 1) hs (Vocabulary.body_lambda ht) hd'
      (fun h hs => expand_sound b h hs (Vocabulary.body_lambda ht) hd')
    exact finish_sound hs' ht rfl (covers_binder rfl (structural_lambda n is b) rfl hc)
  | .literal n ty x, h, hs, ht, hd =>
    finish_sound hs ht rfl ⟨rfl, fun _ => ⟨rfl, rfl⟩, fun _ => rfl⟩

theorem absorbAll_sound {depth : Nat} {w : Prop} {x y : UInt64} {k : Nat} (hk : 1 ≤ k) :
    ∀ (ts : List Term) (acc : Subtree) (h : Hasher), h.Sound V m → (∀ t ∈ ts, t ∈ V) →
      V.Room m (Term.heights ts + depth) → acc.Gathers w x y k →
      (absorbAll depth ts acc h).1.Gathers (w ∧ Whole m depth (Term.heights ts))
        (rolled m depth x ts) (rolled none depth y ts) (max k (Term.heights ts + 1)) ∧
        (absorbAll depth ts acc h).2.Sound V m
  | [], acc, h, hs, _, _, hg => by
    refine ⟨⟨hg.hash_eq, fun hfull => ?_, fun hw => hg.full hw.1⟩, hs⟩
    obtain ⟨h1, h2⟩ := hg.complete hfull
    exact ⟨h1, by rw [absorbAll, h2, Term.heights]; omega⟩
  | t :: ts, acc, h, hs, ht, hd, hg => by
    have hd' : V.Room m (t.height + depth) := hd.mono (by simp only [Term.heights]; omega)
    obtain ⟨hc, hs'⟩ := visit_sound depth hs (ht t List.mem_cons_self) hd'
      (fun h hs => expand_sound t h hs (ht t List.mem_cons_self) hd')
    have hr' : V.Room m (Term.heights ts + depth) := hd.mono (by simp only [Term.heights]; omega)
    obtain ⟨hr, hs''⟩ := absorbAll_sound (by omega) ts _ _ hs'
      (fun u hu => ht u (List.mem_cons_of_mem t hu))
      hr' (hg.absorb hc)
    have hy : rolled none depth y (t :: ts) = rolled none depth (combine [y, structural none t]) ts := by
      rw [rolled_cons, seen, expands_none, if_pos rfl, expanded_none_depth depth 1 t]
      rfl
    rw [absorbAll, rolled_cons, hy, Term.heights,
      show max k (max t.height (Term.heights ts) + 1) =
        max (max k (t.height + 1)) (Term.heights ts + 1) by omega]
    refine ⟨⟨hr.hash_eq, hr.complete, fun hw => hr.full ⟨⟨hw.1, ?_⟩, ?_⟩⟩, hs''⟩
    · exact hw.2.mono (by omega)
    · exact hw.2.mono (by omega)

end

theorem room_root (ht : t ∈ V) : V.Room m (t.height + 1) := by
  intro hfit hm
  obtain ⟨b, rfl⟩ := Option.isSome_iff_exists.mp hm
  exact (hfit b rfl).2 t ht

theorem hash_sound (hs : h.Sound V m) (ht : t ∈ V) :
    (h.hash t).1 = structural m t ∧ (h.hash t).2.Sound V m := by
  obtain ⟨hs', hf⟩ := hs.lookup? ht (room_root ht)
  unfold hash
  rcases hl : h.lookup? 1 t.node with ⟨_ | f, h'⟩
  · rw [hl] at hs'
    obtain ⟨hc, hs''⟩ := expand_sound t h' hs' ht (room_root ht)
    exact ⟨hc.hash_eq, hs''⟩
  · rw [hl] at hs' hf
    obtain ⟨rfl, hb⟩ := hf f rfl
    refine ⟨?_, hs'⟩
    cases m with
    | none => rfl
    | some b => exact (expanded_of_le t (hb b rfl)).symm

theorem hashAll_sound : ∀ (ts : List Term) (h : Hasher), h.Sound V m → (∀ t ∈ ts, t ∈ V) →
    (h.hashAll ts).1 = ts.map (structural m) ∧ (h.hashAll ts).2.Sound V m
  | [], h, hs, _ => ⟨rfl, hs⟩
  | t :: ts, h, hs, ht => by
    obtain ⟨h1, hs'⟩ := hash_sound hs (ht t List.mem_cons_self)
    obtain ⟨h2, hs''⟩ := hashAll_sound ts _ hs' (fun u hu => ht u (List.mem_cons_of_mem t hu))
    exact ⟨by simp only [hashAll, h1, h2, List.map_cons], hs''⟩

theorem Reached.sound (hr : h.Reached V m) : h.Sound V m := by
  induction hr with
  | new => exact sound_ofMaxHeight V m
  | hash _ ht ih => exact (hash_sound ih ht).2
  | clear _ ih => exact ih.clear

end Hasher

end CoreReuse
