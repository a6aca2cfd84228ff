import CoreReuse.Proofs.Index.Remainders

namespace CoreReuse

variable {seed : UInt64} {k : FlatKind} {rest : List FlatKind} {hs hs₀ : List UInt64}
variable {a b c : Arrival} {arrivals : List Arrival} {f : Arrival × Nat} {t : Nat}

namespace Key

def Covers (key filed : Key) : Prop :=
  match filed with
  | .bits filed =>
    match key with
    | .bits key => ∀ i < filed.width, filed.contains i = true → key.contains i = true
    | _ => False
  | _ => True

instance decidableCovers (key filed : Key) : Decidable (key.Covers filed) :=
  match filed with
  | .bits filed =>
    match key with
    | .bits key =>
      inferInstanceAs (Decidable (∀ i < filed.width, filed.contains i = true → key.contains i = true))
    | .flat | .digest _ | .pair _ _ => .isFalse id
  | .flat | .digest _ | .pair _ _ => .isTrue trivial

theorem covers_keyOf : (k.keyOf hs).Covers (k.keyOf hs₀) ↔ k.Within hs₀ hs := by
  cases k with
  | list => exact Iff.rfl
  | random candidates => exact Iff.rfl
  | bloom nbits => exact forall_congr' fun i => ⟨fun h hi => h (Bits.lt_of_contains hi) hi, fun h _ => h⟩

end Key

theorem FlatKind.filed_keyOf : k.filed (k.keyOf hs) = k.keyOf hs := by
  cases k with
  | list => rfl
  | random candidates => rfl
  | bloom nbits => exact filed_keyOf_bloom

namespace Arrival

def below (k : FlatKind) (a : Arrival) : Arrival := ⟨(k.coreKey a.hasher a.core).2, a.core⟩

def Covers (k : FlatKind) (a b : Arrival) : Prop := (a.key k).Covers (b.key k)

instance (k : FlatKind) (a b : Arrival) : Decidable (a.Covers k b) :=
  inferInstanceAs (Decidable ((a.key k).Covers (b.key k)))

theorem covers_iff : a.Covers k b ↔ k.Within b.hashes a.hashes := by
  rw [Covers, key_eq, key_eq, Key.covers_keyOf]

@[refl] theorem Covers.refl (k : FlatKind) (a : Arrival) : a.Covers k a :=
  covers_iff.mpr (FlatKind.within_of_subset (List.Subset.refl _))

theorem Covers.trans (h : a.Covers k b) (h' : b.Covers k c) : a.Covers k c :=
  covers_iff.mpr ((covers_iff.mp h').trans (covers_iff.mp h))

theorem covers_of_ne_bloom (hk : ∀ n, k ≠ .bloom n) : a.Covers k b := by
  cases k with
  | list => trivial
  | random candidates => trivial
  | bloom nbits => exact absurd rfl (hk nbits)

end Arrival

namespace FlatKind

/-- The arrivals that cover none before them, with their positions. -/
def founders (k : FlatKind) (arrivals : List Arrival) : List (Arrival × Nat) :=
  arrivals.zipIdx.filter fun e => ∀ b ∈ arrivals.take e.2, ¬e.1.Covers k b

def joining (k : FlatKind) (arrivals : List Arrival) (f : Arrival × Nat) : List Arrival :=
  (arrivals.drop f.2).filter fun a => a.Covers k f.1

theorem mem_founders : (a, t) ∈ k.founders arrivals ↔
    arrivals[t]? = some a ∧ ∀ b ∈ arrivals.take t, ¬a.Covers k b := by
  rw [founders, List.mem_filter, List.mem_zipIdx_iff_getElem?, decide_eq_true_iff]

theorem lt_of_mem_founders (h : f ∈ k.founders arrivals) : f.2 < arrivals.length :=
  (List.getElem?_eq_some_iff.mp (mem_founders.mp h).1).1

theorem founders_concat : k.founders (arrivals ++ [a]) = k.founders arrivals ++
    if ∀ b ∈ arrivals, ¬a.Covers k b then [(a, arrivals.length)] else [] := by
  rw [founders, List.zipIdx_append, List.filter_append]
  congr 1
  · apply List.filter_congr
    rintro ⟨b, t⟩ hb
    have ht := (List.getElem?_eq_some_iff.mp (List.mem_zipIdx_iff_getElem?.mp hb)).1
    rw [List.take_append_of_le_length (Nat.le_of_lt ht)]
  · simp [List.filter_cons]

theorem joining_concat (h : f.2 ≤ arrivals.length) : k.joining (arrivals ++ [a]) f =
    k.joining arrivals f ++ if a.Covers k f.1 then [a] else [] := by
  rw [joining, List.drop_append_of_le_length h, List.filter_append]
  by_cases ha : a.Covers k f.1
  · simp [joining, ha]
  · simp [joining, ha]

theorem joining_last : k.joining (arrivals ++ [a]) (a, arrivals.length) = [a] := by
  rw [joining_concat (Nat.le_refl _), if_pos (Arrival.Covers.refl k a), joining, List.drop_length]
  rfl

theorem mem_joining (h : arrivals[t]? = some a) (hf : f.2 ≤ t) (hcovers : a.Covers k f.1) :
    a ∈ k.joining arrivals f := by
  have hdrop : (arrivals.drop f.2)[t - f.2]? = some a := by
    rw [List.getElem?_drop, Nat.add_sub_cancel' hf, h]
  exact List.mem_filter.mpr ⟨List.mem_of_getElem? hdrop, decide_eq_true hcovers⟩

theorem exists_founder (h : arrivals[t]? = some a) :
    ∃ f ∈ k.founders arrivals, f.2 ≤ t ∧ a.Covers k f.1 := by
  induction t using Nat.strongRecOn generalizing a with
  | ind t ih =>
    by_cases hnone : ∀ b ∈ arrivals.take t, ¬a.Covers k b
    · exact ⟨(a, t), mem_founders.mpr ⟨h, hnone⟩, Nat.le_refl t, .refl k a⟩
    · push Not at hnone
      obtain ⟨b, hb, hab⟩ := hnone
      obtain ⟨s, hs⟩ := List.mem_iff_getElem?.mp hb
      rw [List.getElem?_take] at hs
      split at hs
      · next hst =>
        obtain ⟨f, hf, hfs, hbf⟩ := ih s hst hs
        exact ⟨f, hf, by omega, hab.trans hbf⟩
      · cases hs

theorem founders_pairwise : (k.founders arrivals).Pairwise fun f f' => ¬f'.1.Covers k f.1 := by
  induction arrivals using List.reverseRecOn with
  | nil => exact .nil
  | append_singleton arrivals a ih =>
    rw [founders_concat]
    split
    · next hnone =>
      refine List.pairwise_append.mpr ⟨ih, List.pairwise_singleton _ _, fun f hf f' hf' => ?_⟩
      rw [List.mem_singleton.mp hf']
      exact hnone f.1 (List.mem_of_getElem? (mem_founders.mp hf).1)
    · rwa [List.append_nil]

theorem length_founders_le_one (hk : ∀ n, k ≠ .bloom n) : (k.founders arrivals).length ≤ 1 := by
  match h : k.founders arrivals with
  | [] => exact Nat.zero_le 1
  | [f] => exact Nat.le_refl 1
  | f :: f' :: fs =>
    have hp : (f :: f' :: fs).Pairwise fun f f' => ¬f'.1.Covers k f.1 := h ▸ founders_pairwise
    exact absurd (Arrival.covers_of_ne_bloom hk) (List.rel_of_pairwise_cons hp List.mem_cons_self)

theorem joining_eq_of_ne_bloom (hk : ∀ n, k ≠ .bloom n) (hf : f ∈ k.founders arrivals) :
    k.joining arrivals f = arrivals := by
  obtain ⟨harrived, hnone⟩ := mem_founders.mp hf
  have hlt := lt_of_mem_founders hf
  have hfirst : f.2 = 0 := by
    by_contra h0
    have hpos : 0 < (arrivals.take f.2).length := by
      rw [List.length_take]
      omega
    exact hnone _ (List.getElem_mem hpos) (Arrival.covers_of_ne_bloom hk)
  rw [joining, hfirst, List.drop_zero, List.filter_eq_self]
  exact fun a _ => decide_eq_true (Arrival.covers_of_ne_bloom hk)

theorem offersAll_founders (hv : k.validate = .ok ()) : k.OffersAll (k.founders arrivals).length := by
  cases k with
  | list => trivial
  | random candidates => exact (offersAll_one hv).mono (length_founders_le_one nofun)
  | bloom nbits => trivial

end FlatKind

namespace Store

variable {next : FlatKind} {inners : List (Key × Store rest)} {core : ClauseSet} {count : Nat}

def enter (seed : UInt64) (k : FlatKind) (rest : List FlatKind) (s : Store rest) (a : Arrival) : Store rest :=
  insert seed k rest (coreKey k rest a.hasher a.core).1 a.core s

def joined (seed : UInt64) (k next : FlatKind) (a : Arrival) (inners : List (Key × Store rest)) :
    List (Key × Store rest) :=
  if ∃ e ∈ inners, (a.key k).Covers e.1 then
    inners.map fun e => if (a.key k).Covers e.1 then (e.1, enter seed next rest e.2 (a.below k)) else e
  else inners ++ [(a.key k, enter seed next rest (empty rest) (a.below k))]

theorem enter_eq_joined (hroom : k.OffersAll inners.length)
    (hkeys : ∀ e ∈ inners, ∃ hs, e.1 = k.keyOf hs) :
    enter seed k (next :: rest) (count, inners) a = (count + 1, joined seed k next a inners) := by
  have hkey : (coreKey k (next :: rest) a.hasher a.core).1 =
      .pair (a.key k) (coreKey next rest (a.below k).hasher a.core).1 := rfl
  have hoffered : ∀ {i e}, inners[i]? = some e →
      (i ∈ k.selectAmong seed (k.lookupKey (a.key k)) inners ↔ (a.key k).Covers e.1) := by
    intro i e hi
    obtain ⟨hs, he⟩ := hkeys e (List.mem_of_getElem? hi)
    rw [Arrival.key_eq, he, Key.covers_keyOf]
    exact FlatKind.mem_selectAmong hroom FlatKind.asks_lookupKey hi (he.trans FlatKind.filed_keyOf.symm)
  by_cases hsome : ∃ e ∈ inners, (a.key k).Covers e.1
  · have hne : k.selectAmong seed (k.lookupKey (a.key k)) inners ≠ [] := by
      obtain ⟨e, he, hcovers⟩ := hsome
      obtain ⟨i, hi⟩ := List.mem_iff_getElem?.mp he
      exact List.ne_nil_of_mem ((hoffered hi).mpr hcovers)
    rw [enter, hkey, insert_of_ne_nil hne, joined, if_pos hsome]
    refine Prod.ext rfl (List.ext_getElem? fun i => ?_)
    rw [List.getElem?_mapIdx, List.getElem?_map]
    cases hi : inners[i]? with
    | none => rfl
    | some e =>
      simp only [Option.map_some, inserted, List.contains_iff_mem, hoffered hi]
      rfl
  · have hnil : k.selectAmong seed (k.lookupKey (a.key k)) inners = [] := by
      apply List.eq_nil_iff_forall_not_mem.mpr
      intro i hi
      have hlt := FlatKind.lt_of_mem_selectAmong hi
      exact hsome ⟨_, List.getElem_mem hlt, (hoffered (List.getElem?_eq_getElem hlt)).mp hi⟩
    rw [enter, hkey, insert_of_nil hnil, joined, if_neg hsome, Arrival.key_eq, FlatKind.filed_keyOf]
    rfl

def ofArrivals (seed : UInt64) (k : FlatKind) (rest : List FlatKind) (arrivals : List Arrival) :
    Store rest :=
  arrivals.foldl (enter seed k rest) (empty rest)

theorem ofArrivals_concat :
    ofArrivals seed k rest (arrivals ++ [a]) = enter seed k rest (ofArrivals seed k rest arrivals) a := by
  rw [ofArrivals, List.foldl_append]
  rfl

def founded (seed : UInt64) (k next : FlatKind) (rest : List FlatKind) (arrivals : List Arrival)
    (f : Arrival × Nat) : Key × Store rest :=
  (f.1.key k, ofArrivals seed next rest ((k.joining arrivals f).map (·.below k)))

theorem founded_concat (hf : f ∈ k.founders arrivals) :
    founded seed k next rest (arrivals ++ [a]) f =
      if a.Covers k f.1 then
        (f.1.key k, enter seed next rest (founded seed k next rest arrivals f).2 (a.below k))
      else founded seed k next rest arrivals f := by
  rw [founded, FlatKind.joining_concat (Nat.le_of_lt (FlatKind.lt_of_mem_founders hf))]
  split
  · rw [List.map_append, List.map_singleton, ofArrivals_concat]
    rfl
  · rw [List.append_nil]
    rfl

theorem founded_last : founded seed k next rest (arrivals ++ [a]) (a, arrivals.length) =
    (a.key k, enter seed next rest (empty rest) (a.below k)) := by
  rw [founded, FlatKind.joining_last]
  rfl

theorem joined_founded :
    joined seed k next a ((k.founders arrivals).map (founded seed k next rest arrivals)) =
      (k.founders (arrivals ++ [a])).map (founded seed k next rest (arrivals ++ [a])) := by
  have hold : (k.founders arrivals).map (founded seed k next rest (arrivals ++ [a])) = _ :=
    List.map_congr_left fun f hf => founded_concat hf
  rw [joined, FlatKind.founders_concat, List.map_append, hold]
  by_cases hnone : ∀ b ∈ arrivals, ¬a.Covers k b
  · have hfounders : ∀ f ∈ k.founders arrivals, ¬a.Covers k f.1 := fun f hf =>
      hnone f.1 (List.mem_of_getElem? (FlatKind.mem_founders.mp hf).1)
    rw [if_neg (by simpa [founded, Arrival.Covers] using hfounders), if_pos hnone, List.map_singleton,
      founded_last]
    congr 1
    apply List.map_congr_left
    intro f hf
    rw [if_neg (hfounders f hf)]
  · -- What the core covers need not be a founder itself, but covers one.
    have hsome : ∃ f ∈ k.founders arrivals, a.Covers k f.1 := by
      push Not at hnone
      obtain ⟨b, hb, hab⟩ := hnone
      obtain ⟨t, ht⟩ := List.mem_iff_getElem?.mp hb
      obtain ⟨f, hf, -, hbf⟩ := FlatKind.exists_founder (k := k) ht
      exact ⟨f, hf, hab.trans hbf⟩
    rw [if_pos (by simpa [founded, Arrival.Covers] using hsome), if_neg hnone, List.map_nil,
      List.append_nil, List.map_map]
    rfl

theorem offersAll_founded (hv : k.validate = .ok ()) :
    k.OffersAll ((k.founders arrivals).map (founded seed k next rest arrivals)).length := by
  rw [List.length_map]
  exact FlatKind.offersAll_founders hv

theorem exists_keyOf_founded : ∀ e ∈ (k.founders arrivals).map (founded seed k next rest arrivals),
    ∃ hs, e.1 = k.keyOf hs := by
  intro e he
  obtain ⟨f, -, rfl⟩ := List.mem_map.mp he
  exact ⟨_, Arrival.key_eq⟩

theorem ofArrivals_cons (hv : k.validate = .ok ()) : ofArrivals seed k (next :: rest) arrivals =
    (arrivals.length, (k.founders arrivals).map (founded seed k next rest arrivals)) := by
  induction arrivals using List.reverseRecOn with
  | nil => rfl
  | append_singleton arrivals a ih =>
    rw [ofArrivals_concat, ih, enter_eq_joined (offersAll_founded hv) exists_keyOf_founded, joined_founded,
      List.length_append, List.length_singleton]

theorem mem_contents_ofArrivals (hv : ∀ l ∈ k :: rest, l.validate = .ok ()) :
    core ∈ contents rest (ofArrivals seed k rest arrivals) ↔ ∃ a ∈ arrivals, a.core = core := by
  induction rest generalizing k arrivals with
  | nil =>
    induction arrivals using List.reverseRecOn with
    | nil => simp [ofArrivals]
    | append_singleton arrivals a ih =>
      rw [ofArrivals_concat]
      simp only [contents, enter, insert, FlatKind.file, List.map_append, List.mem_append] at ih ⊢
      rw [ih]
      simp [or_and_right, exists_or, @eq_comm _ core]
  | cons next rest ih =>
    obtain ⟨hvk, hvr⟩ := List.forall_mem_cons.mp hv
    rw [ofArrivals_cons hvk, mem_contents_cons]
    constructor
    · rintro ⟨e, he, hc⟩
      obtain ⟨f, -, rfl⟩ := List.mem_map.mp he
      obtain ⟨b, hb, rfl⟩ := (ih hvr).mp hc
      obtain ⟨a, ha, rfl⟩ := List.mem_map.mp hb
      exact ⟨a, List.mem_of_mem_drop (List.mem_filter.mp ha).1, rfl⟩
    · rintro ⟨a, ha, rfl⟩
      obtain ⟨t, ht⟩ := List.mem_iff_getElem?.mp ha
      obtain ⟨f, hf, hft, hcovers⟩ := FlatKind.exists_founder (k := k) ht
      have hjoins := FlatKind.mem_joining ht hft hcovers
      exact ⟨_, List.mem_map_of_mem hf, (ih hvr).mpr ⟨a.below k, List.mem_map_of_mem hjoins, rfl⟩⟩

end Store

namespace Index

def enter (i : Index) (a : Arrival) : Index := i.insert (i.coreKey a.hasher a.core).1 a.core

theorem foldl_enter : arrivals.foldl enter ⟨seed, k, rest, .empty rest⟩ =
    ⟨seed, k, rest, .ofArrivals seed k rest arrivals⟩ := by
  induction arrivals using List.reverseRecOn with
  | nil => rfl
  | append_singleton arrivals a ih =>
    rw [List.foldl_append, ih, Store.ofArrivals_concat]
    rfl

/-- An index of several levels after any cores, and after one more. Its inner indexes are those of the
founders, in that order, and each of them is in turn what the cores that joined it make of an index. -/
theorem composite_founded {outer inner : IndexKind} {start : Index}
    (h : (IndexKind.composite outer inner).build seed = .ok start) (arrivals : List Arrival) :
    let k := outer.outermost
    let next := inner.levels.1
    let rest := inner.levels.2
    (arrivals.foldl enter start).size = arrivals.length ∧
      ∃ fresh inners, inner.build seed = .ok fresh ∧
        arrivals.foldl enter start = ⟨seed, k, next :: rest, (arrivals.length, inners)⟩ ∧
        (∀ a, (arrivals ++ [a]).foldl enter start =
          ⟨seed, k, next :: rest, (arrivals.length + 1, Store.joined seed k next a inners)⟩) ∧
        List.Forall₂ (fun f e => e.1 = f.1.key k ∧
          ((k.joining arrivals f).map (·.below k)).foldl enter fresh = ⟨seed, next, rest, e.2⟩ ∧
          (∀ a ∈ k.joining arrivals f, (a.key k).Covers e.1) ∧
          ∀ core, core ∈ Store.contents rest e.2 ↔ ∃ a ∈ k.joining arrivals f, a.core = core)
          (k.founders arrivals) inners ∧
        (∀ t a, arrivals[t]? = some a →
          ∃ f ∈ k.founders arrivals, f.2 ≤ t ∧ (a.key k).Covers (f.1.key k) ∧ a ∈ k.joining arrivals f) ∧
        inners.Pairwise (fun e e' => ¬e'.1.Covers e.1) ∧
        ((∀ n, k ≠ .bloom n) →
          inners.length ≤ 1 ∧ ∀ f ∈ k.founders arrivals, k.joining arrivals f = arrivals) := by
  intro k next rest
  obtain ⟨hv, hstart⟩ := IndexKind.build_cases h
  obtain ⟨hvk, hvi⟩ := IndexKind.validate_composite hv
  have hrun : ∀ arrivals : List Arrival, arrivals.foldl enter start = ⟨seed, k, next :: rest,
      (arrivals.length, (k.founders arrivals).map (Store.founded seed k next rest arrivals))⟩ := by
    intro arrivals
    rw [hstart, ← Store.ofArrivals_cons hvk]
    exact foldl_enter
  have hfresh : inner.build seed = .ok ⟨seed, next, rest, .empty rest⟩ := by
    rw [IndexKind.build, hvi]
    rfl
  have hlength : (arrivals.foldl enter start).size = arrivals.length := by
    rw [hrun]
    rfl
  refine ⟨hlength, _, _, hfresh, hrun arrivals, fun a => ?_, ?_, fun t a ht => ?_, ?_, fun hk => ⟨?_, ?_⟩⟩
  · rw [hrun, List.length_append, List.length_singleton, Store.joined_founded]
  · rw [List.forall₂_map_right_iff, List.forall₂_same]
    intro f _
    refine ⟨rfl, foldl_enter, fun a ha => ?_, fun core => ?_⟩
    · exact of_decide_eq_true (List.mem_filter.mp ha).2
    · rw [Store.founded, Store.mem_contents_ofArrivals (IndexKind.validate_levels hvi)]
      simp [Arrival.below]
  · obtain ⟨f, hf, hft, hcovers⟩ := FlatKind.exists_founder ht
    exact ⟨f, hf, hft, hcovers, FlatKind.mem_joining ht hft hcovers⟩
  · exact FlatKind.founders_pairwise.map _ fun _ _ => id
  · rw [List.length_map]
    exact FlatKind.length_founders_le_one hk
  · exact fun f hf => FlatKind.joining_eq_of_ne_bloom hk hf

theorem composite_founded_predicates :
    let arrivals : List Arrival :=
      [.predicates [(0, "p")], .predicates [(0, "p"), (2, "q")], .predicates [(4, "r")]]
    ∃ start, (IndexKind.composite (.flat (.bloom 37)) (.flat .list)).build 0 = .ok start ∧
      (arrivals.foldl enter start).size = 3 ∧
      ∃ inners, arrivals.foldl enter start = ⟨0, .bloom 37, [.list], (3, inners)⟩ ∧ inners.length = 2 ∧
        inners.Pairwise fun e e' => ¬e'.1.Covers e.1 := by
  intro arrivals
  have hstart : (IndexKind.composite (.flat (.bloom 37)) (.flat .list)).build 0 = .ok _ := rfl
  obtain ⟨hsize, fresh, inners, -, hrun, -, hinners, -, hpairwise, -⟩ := composite_founded hstart arrivals
  have htwo : ((FlatKind.bloom 37).founders arrivals).length = 2 := by decide +kernel
  exact ⟨_, hstart, hsize, inners, hrun, hinners.length_eq ▸ htwo, hpairwise⟩

end Index

end CoreReuse
