import CoreReuse.Proofs.Matching.Nameless

/-!
What shadowing in a query makes possible. For every query clause that is not hygienic there is a
clause of a core that is carried to it although no renaming makes the two alpha-equivalent: every
binder is given variables of its own, and an occurrence refers to the outermost of the binders that
bind its name.
-/

namespace CoreReuse.Term

def stand (k : Nat) (d : Decl) : Decl := .constant (String.ofList (List.replicate k 'v')) d.result

def stands (k : Nat) : List Decl → List Decl
  | [] => []
  | d :: ds => stand k d :: stands (k + 1) ds

def outer : List Decl → List Decl → Decl → Decl
  | l :: ls, r :: rs, d => if d ∈ rs then outer ls rs d else if d = r then l else d
  | _, _, d => d

mutual

def outermost (k : Nat) (ls rs : List Decl) : Term → Term
  | .app n f [] => .app n (outer ls rs f) []
  | .app n f (a :: as) => .app n f (outermostAll k ls rs (a :: as))
  | .quantified n q bs b =>
    .quantified n q (stands k bs)
      (outermost (k + bs.length) ((stands k bs).reverse ++ ls) (bs.reverse ++ rs) b)
  | .lambda n is b =>
    .lambda n (stands k is)
      (outermost (k + is.length) ((stands k is).reverse ++ ls) (is.reverse ++ rs) b)
  | .literal n ty x => .literal n ty x

def outermostAll (k : Nat) (ls rs : List Decl) : List Term → List Term
  | [] => []
  | t :: ts => outermost k ls rs t :: outermostAll k ls rs ts

end

theorem outermostAll_eq_map (k : Nat) (ls rs : List Decl) (ts : List Term) :
    outermostAll k ls rs ts = ts.map (outermost k ls rs) := by
  induction ts with
  | nil => rfl
  | cons t ts ih => rw [outermostAll, ih, List.map_cons]

@[simp] theorem length_stands (k : Nat) (ds : List Decl) : (stands k ds).length = ds.length := by
  induction ds generalizing k with
  | nil => rfl
  | cons d ds ih => rw [stands, List.length_cons, ih, List.length_cons]

theorem length_name_stand (k : Nat) (d : Decl) : (stand k d).name.length = k := by
  simp [stand, Decl.constant]

theorem mem_stands {k : Nat} {ds : List Decl} {z : Decl} (hz : z ∈ stands k ds) :
    z.arity = 0 ∧ k ≤ z.name.length ∧ z.name.length < k + ds.length := by
  induction ds generalizing k with
  | nil => cases hz
  | cons d ds ih =>
    rcases List.mem_cons.mp hz with rfl | hz
    · rw [length_name_stand, List.length_cons]
      exact ⟨rfl, by omega, by omega⟩
    · obtain ⟨h1, h2, h3⟩ := ih hz
      rw [List.length_cons]
      exact ⟨h1, by omega, by omega⟩

theorem nodup_stands (k : Nat) (ds : List Decl) : (stands k ds).Nodup := by
  induction ds generalizing k with
  | nil => exact .nil
  | cons d ds ih =>
    refine List.nodup_cons.mpr ⟨fun hm => ?_, ih (k + 1)⟩
    have := (mem_stands hm).2.1
    rw [length_name_stand] at this
    omega

theorem map_result_stands (k : Nat) (ds : List Decl) :
    (stands k ds).map Decl.result = ds.map Decl.result := by
  induction ds generalizing k with
  | nil => rfl
  | cons d ds ih => rw [stands, List.map_cons, List.map_cons, ih]; rfl

theorem outer_of_notMem {ls rs : List Decl} {d : Decl} (hd : d ∉ rs) : outer ls rs d = d := by
  cases ls with
  | nil => rfl
  | cons l ls =>
    cases rs with
    | nil => rfl
    | cons r rs =>
      simp only [List.mem_cons, not_or] at hd
      rw [outer, if_neg hd.2, if_neg hd.1]

theorem outer_mem_zip {ls rs : List Decl} {d : Decl} (hl : ls.length = rs.length) (hd : d ∈ rs) :
    (outer ls rs d, d) ∈ ls.zip rs := by
  induction ls generalizing rs with
  | nil =>
    rw [List.eq_nil_of_length_eq_zero hl.symm] at hd
    cases hd
  | cons l ls ih =>
    cases rs with
    | nil => cases hd
    | cons r rs =>
      rw [outer, List.zip_cons_cons]
      split
      · next hm => exact List.mem_cons_of_mem _ (ih (Nat.succ.inj hl) hm)
      · next hm =>
        obtain rfl := (List.mem_cons.mp hd).resolve_right hm
        rw [if_pos rfl]
        exact List.mem_cons_self

theorem count_le_one_of_outer {ls rs : List Decl} {d : Decl} (hl : ls.length = rs.length)
    (hn : ls.Nodup) (hd : d ∈ rs) (h : ls.idxOf (outer ls rs d) = rs.idxOf d) : rs.count d ≤ 1 := by
  induction ls generalizing rs with
  | nil =>
    rw [List.eq_nil_of_length_eq_zero hl.symm] at hd
    cases hd
  | cons l ls ih =>
    cases rs with
    | nil => cases hd
    | cons r rs =>
      obtain ⟨hln, hn⟩ := List.nodup_cons.mp hn
      have hl' := Nat.succ.inj hl
      rw [outer] at h
      by_cases hm : d ∈ rs
      · -- The outermost binding is further out than this one, so this one is not of `d`.
        have hz := (List.of_mem_zip (outer_mem_zip hl' hm)).1
        rw [if_pos hm, List.idxOf_cons_ne ls (fun he => hln (by rwa [he]))] at h
        have hr : r ≠ d := by
          rintro rfl
          rw [List.idxOf_cons_self] at h
          cases h
        rw [List.idxOf_cons_ne rs hr] at h
        rw [List.count_cons_of_ne hr]
        exact ih hl' hn hm (Nat.succ.inj h)
      · obtain rfl := (List.mem_cons.mp hd).resolve_right hm
        have hz : rs.count d = 0 := List.count_eq_zero_of_not_mem hm
        rw [List.count_cons_self]
        omega

structure Standing (n k : Nat) (s : Scopes) (τ : Decl → Decl) (ls rs : List Decl) : Prop where
  length_eq : ls.length = rs.length
  nodup : ls.Nodup
  above : n ≤ k
  names : ∀ z ∈ ls, n ≤ z.name.length ∧ z.name.length < k
  arity_eq : ∀ z ∈ ls, z.arity = 0
  pairs : ∀ p ∈ ls.zip rs, τ p.1 = p.2 ∧ p.1.result = p.2.result
  others : ∀ d, d ∉ ls → τ d = d
  left : ∀ z ∈ ls, z ∈ s.left
  right : ∀ d ∈ s.right, d ∈ rs

theorem pairedOff_stands (k : Nat) (bs : List Decl) : PairedOff (stands k bs) bs :=
  .of_nodup (map_result_stands k bs) (nodup_stands k bs)

theorem Standing.notMem_stands {n k : Nat} {s : Scopes} {τ : Decl → Decl} {ls rs : List Decl}
    (h : Standing n k s τ ls rs) (bs : List Decl) {z : Decl} (hz : z ∈ ls) : z ∉ stands k bs := by
  intro hm
  have h1 := (mem_stands hm).2.1
  have h2 := (h.names z hz).2
  omega

theorem Standing.enter {n k : Nat} {s : Scopes} {τ : Decl → Decl} {ls rs : List Decl}
    (h : Standing n k s τ ls rs) (bs : List Decl) :
    Standing n (k + bs.length) (s.enter (stands k bs) bs) (rebound (stands k bs) bs τ)
      ((stands k bs).reverse ++ ls) (bs.reverse ++ rs) where
  length_eq := by simp [h.length_eq]
  nodup := by
    refine List.nodup_append.mpr ⟨List.nodup_reverse.mpr (nodup_stands k bs), h.nodup, ?_⟩
    rintro z hz y hy rfl
    exact h.notMem_stands bs hy (List.mem_reverse.mp hz)
  above := Nat.le_add_right_of_le h.above
  names z hz := by
    rcases List.mem_append.mp hz with hz | hz
    · obtain ⟨-, h1, h2⟩ := mem_stands (List.mem_reverse.mp hz)
      exact ⟨Nat.le_trans h.above h1, h2⟩
    · exact (h.names z hz).imp_right (Nat.lt_add_right _)
  arity_eq z hz := by
    rcases List.mem_append.mp hz with hz | hz
    · exact (mem_stands (List.mem_reverse.mp hz)).1
    · exact h.arity_eq z hz
  pairs p hp := by
    have hl := length_stands k bs
    have hz : ((stands k bs).zip bs).reverse = (stands k bs).reverse.zip bs.reverse :=
      List.reverse_zipWith hl
    rw [List.zip_append (by simp)] at hp
    rcases List.mem_append.mp hp with hp | hp
    · have hp' : p ∈ (stands k bs).zip bs := List.mem_reverse.mp (hz ▸ hp)
      exact ⟨(pairedOff_stands k bs).rebound_eq hp', (pairedOff_stands k bs).result_eq p hp'⟩
    · rw [rebound_of_notMem (h.notMem_stands bs (List.of_mem_zip hp).1)]
      exact h.pairs p hp
  others d hd := by
    simp only [List.mem_append, List.mem_reverse, not_or] at hd
    rw [rebound_of_notMem hd.1, h.others d hd.2]
  left z hz := by
    simp only [List.mem_append, List.mem_reverse] at hz
    exact List.mem_append.mpr (hz.imp_right (h.left z))
  right d hd := by
    simp only [List.mem_append, List.mem_reverse]
    exact (List.mem_append.mp hd).imp_right (h.right d)

theorem Standing.carries {n k : Nat} {s : Scopes} {τ : Decl → Decl} {ls rs : List Decl}
    (h : Standing n k s τ ls rs) {t : Term} (hf : ∀ x ∈ t.freeVars, x ∉ rs → x.name.length < n) :
    Carries s τ (outermost k ls rs t) t := by
  induction t generalizing k s τ ls rs with
  | app m f as ih =>
    cases as with
    | nil =>
      rw [outermost]
      by_cases hm : f ∈ rs
      · have hz := outer_mem_zip h.length_eq hm
        obtain ⟨h1, h2⟩ := h.pairs _ hz
        exact ⟨h2, h1, fun _ => h.left _ (List.of_mem_zip hz).1⟩
      · have hn := hf f (by simp [freeVars, freeIn]) hm
        have hl : f ∉ ls := fun hl => Nat.not_le.mpr hn (h.names f hl).1
        rw [outer_of_notMem hm]
        exact ⟨rfl, h.others f hl, fun hr => absurd (h.right f hr) hm⟩
    | cons a as =>
      rw [outermost, outermostAll_eq_map]
      apply carries_app (by simp)
      rw [List.forall₂_map_left_iff, List.forall₂_same]
      intro t ht
      exact ih t ht h fun x hx => hf x ((mem_freeIn_app (List.cons_ne_nil a as)).mpr ⟨t, ht, hx⟩)
  | quantified m q bs b ih =>
    refine ⟨rfl, pairedOff_stands k bs, ih (h.enter bs) fun x hx hn => ?_⟩
    simp only [List.mem_append, List.mem_reverse, not_or] at hn
    exact hf x (mem_freeVars_quantified.mpr ⟨hx, hn.1⟩) hn.2
  | lambda m is b ih =>
    refine ⟨pairedOff_stands k is, ih (h.enter is) fun x hx hn => ?_⟩
    simp only [List.mem_append, List.mem_reverse, not_or] at hn
    exact hf x (mem_freeVars_lambda.mpr ⟨hx, hn.1⟩) hn.2
  | literal m ty x => exact ⟨rfl, rfl⟩

theorem outermost_bindsVariables (k : Nat) (ls rs : List Decl) (t : Term) :
    (outermost k ls rs t).BindsVariables := by
  induction t generalizing k ls rs with
  | app m f as ih =>
    cases as with
    | nil => exact each_app.mpr ⟨by simp [bounds], by simp⟩
    | cons a as =>
      rw [outermost, outermostAll_eq_map]
      refine each_app.mpr ⟨by simp [bounds], ?_⟩
      rw [List.forall_mem_map]
      exact fun t ht => ih t ht k ls rs
  | quantified m q bs b ih => exact ⟨fun z hz => (mem_stands hz).1, ih _ _ _⟩
  | lambda m is b ih => exact ⟨fun z hz => (mem_stands hz).1, ih _ _ _⟩
  | literal m ty x => simp [outermost, BindsVariables, Each, bounds]

theorem Standing.wellFormed {n k : Nat} {s : Scopes} {τ : Decl → Decl} {ls rs : List Decl}
    (h : Standing n k s τ ls rs) {t : Term} (ht : t.WellFormed) :
    (outermost k ls rs t).WellFormed := by
  induction t generalizing k s τ ls rs with
  | app m f as ih =>
    obtain ⟨hf, ha⟩ := each_app.mp ht
    cases as with
    | nil =>
      refine each_app.mpr ⟨?_, by simp⟩
      by_cases hm : f ∈ rs
      · exact (h.arity_eq _ (List.of_mem_zip (outer_mem_zip h.length_eq hm)).1).symm
      · rw [outer_of_notMem hm]
        exact hf
    | cons a as =>
      rw [outermost, outermostAll_eq_map]
      refine each_app.mpr ⟨by simpa using hf, ?_⟩
      rw [List.forall_mem_map]
      exact fun t ht => ih t ht h (ha t ht)
  | quantified m q bs b ih => exact ⟨trivial, ih (h.enter bs) ht.2⟩
  | lambda m is b ih => exact ⟨trivial, ih (h.enter is) ht.2⟩
  | literal m ty x => trivial

theorem exists_name_length_lt (ds : List Decl) : ∃ n, ∀ d ∈ ds, d.name.length < n := by
  induction ds with
  | nil => exact ⟨0, by simp⟩
  | cons d ds ih =>
    obtain ⟨n, hn⟩ := ih
    refine ⟨max n (d.name.length + 1), List.forall_mem_cons.mpr ⟨by omega, fun e he => ?_⟩⟩
    have := hn e he
    omega

theorem Standing.hygienic {n k : Nat} {s : Scopes} {τ σ : Decl → Decl} {ls rs : List Decl}
    (h : Standing n k s τ ls rs) {t : Term}
    (he : ((outermost k ls rs t).nameless ls).rename σ = t.nameless rs) :
    t.BindsVariables ∧ t.Unshadowed rs := by
  induction t generalizing k s τ ls rs with
  | app m f as ih =>
    cases as with
    | nil =>
      refine ⟨each_app.mpr ⟨by simp [bounds], by simp⟩, fun _ => ?_, trivial⟩
      by_cases hm : f ∈ rs
      · have hz := (List.of_mem_zip (outer_mem_zip h.length_eq hm)).1
        simp only [outermost, nameless, namelessAll, symbol, if_pos hz, if_pos hm, Nameless.rename,
          Nameless.renameAll, Nameless.app.injEq, Symbol.bound.injEq, and_true] at he
        exact count_le_one_of_outer h.length_eq h.nodup hm he
      · rw [List.count_eq_zero_of_not_mem hm]
        exact Nat.zero_le 1
    | cons a as =>
      rw [outermost, outermostAll_eq_map, nameless, nameless, namelessAll_eq_map, namelessAll_eq_map,
        Nameless.rename_app (by simp), Nameless.app.injEq, List.map_map, List.map_map,
        List.map_inj_left] at he
      have hall : ∀ t ∈ a :: as, t.BindsVariables ∧ t.Unshadowed rs :=
        fun t ht => ih t ht h (he.2 t ht)
      refine ⟨each_app.mpr ⟨by simp [bounds], fun t ht => (hall t ht).1⟩,
        fun h => absurd h (List.cons_ne_nil a as), ?_⟩
      exact unshadowedAll_iff.mpr fun t ht => (hall t ht).2
  | quantified m q bs b ih =>
    simp only [outermost, nameless, Nameless.rename, Nameless.quantified.injEq, true_and] at he
    obtain ⟨h1, h2⟩ := ih (h.enter bs) he.2
    exact ⟨⟨arity_eq_zero_of_map_signature_eq he.1.symm fun d hd => (mem_stands hd).1, h1⟩, h2⟩
  | lambda m is b ih =>
    simp only [outermost, nameless, Nameless.rename, Nameless.lambda.injEq] at he
    obtain ⟨h1, h2⟩ := ih (h.enter is) he.2
    exact ⟨⟨arity_eq_zero_of_map_signature_eq he.1.symm fun d hd => (mem_stands hd).1, h1⟩, h2⟩
  | literal m ty x => exact ⟨by simp [BindsVariables, Each, bounds], trivial⟩

theorem exists_carries_of_not_hygienic {q : Term} (hw : q.WellFormed) (hq : ¬ q.Hygienic) :
    ∃ c : Term, c.WellFormed ∧ c.BindsVariables ∧ Carries {} id c q ∧
      ∀ σ, (c.nameless []).rename σ ≠ q.nameless [] := by
  -- Names that stand for bound variables are longer than those of the free ones.
  obtain ⟨n, hn⟩ := exists_name_length_lt q.freeVars
  have hs : Standing n n {} id [] [] :=
    ⟨rfl, .nil, Nat.le_refl n, by simp, by simp, by simp, fun _ _ => rfl, by simp, by simp⟩
  refine ⟨outermost n [] [] q, hs.wellFormed hw, outermost_bindsVariables n [] [] q,
    hs.carries fun x hx _ => hn x hx, fun σ he => hq ?_⟩
  obtain ⟨h1, h2⟩ := hs.hygienic he
  exact ⟨h1, h2⟩

end CoreReuse.Term
