import CoreReuse.Index.Level
import CoreReuse.Proofs.Index.Kinds
import CoreReuse.Proofs.Sampling
import CoreReuse.Proofs.Searches

namespace CoreReuse

open Hash Search

def ClauseSet.hashes (m : Option Nat) (s : ClauseSet) : List UInt64 := s.clauses.map (structural m)

namespace Bits

variable {width : UInt64} {hashes hashes' : List UInt64} {i : Nat}

theorem lt_of_contains {b : Bits} (h : b.contains i = true) : i < b.width := by
  simp only [contains, Bool.and_eq_true, decide_eq_true_eq] at h
  exact h.1

theorem contains_ofHashes_mono (h : hashes ⊆ hashes') (hi : (ofHashes width hashes).contains i = true) :
    (ofHashes width hashes').contains i = true := by
  have hlt := lt_of_contains hi
  rw [width_ofHashes] at hlt
  rw [contains_ofHashes width _ hlt, List.any_eq_true] at hi ⊢
  obtain ⟨x, hx, hxi⟩ := hi
  exact ⟨x, h hx, hxi⟩

theorem disjoint_complement_iff {a b : Bits} (h : a.width = b.width) :
    a.complement.disjoint b = true ↔ ∀ i, b.contains i = true → a.contains i = true := by
  rw [disjoint_iff ((width_complement a).trans h)]
  refine forall_congr' fun i => ?_
  by_cases hi : i < a.width
  · rw [contains_complement a hi]
    cases a.contains i <;> cases b.contains i <;> simp
  · have ha : a.complement.contains i = false := by
      rw [← Bool.not_eq_true]
      exact fun hc => hi (width_complement a ▸ lt_of_contains hc)
    have hb : b.contains i = false := by
      rw [← Bool.not_eq_true]
      exact fun hc => hi (h ▸ lt_of_contains hc)
    simp [ha, hb]

end Bits

namespace FlatKind

variable {V : Vocabulary} {m : Option Nat} {k : FlatKind} {key : Key} {hs hs' hs₀ : List UInt64}

def keyOf (k : FlatKind) (hs : List UInt64) : Key :=
  match k with
  | bloom nbits => .bits (Bits.ofHashes nbits hs)
  | _ => .flat

def queryKeyOf (k : FlatKind) (hs : List UInt64) : Key :=
  match k with
  | list => .flat
  | random _ => .digest (wholeDigest hs)
  | bloom nbits => .bits (Bits.ofHashes nbits hs).complement

theorem coreKey_sound {h : Hasher} {core : ClauseSet} (hh : h.Sound V m)
    (hc : ∀ c ∈ core.clauses, c ∈ V) :
    (k.coreKey h core).1 = k.keyOf (core.hashes m) ∧ (k.coreKey h core).2.Sound V m := by
  obtain ⟨hx, hs⟩ := Hasher.hashAll_sound core.clauses h hh hc
  cases k with
  | list => exact ⟨rfl, hh⟩
  | random _ => exact ⟨rfl, hh⟩
  | bloom nbits => exact ⟨congrArg (fun x => Key.bits (Bits.ofHashes nbits x)) hx, hs⟩

theorem computes_queryKey {π : Type} [PollSource π] {query : ClauseSet}
    (hq : ∀ q ∈ query.clauses, q ∈ V) :
    Computes V m query (k.queryKey query : Search π Key) (k.queryKeyOf (query.hashes m)) 0 := by
  cases k with
  | list => exact computes_pure _
  | random _ =>
    apply (computes_queryHashes hq).bind (k := 0)
    exact computes_pure _
  | bloom nbits =>
    apply (computes_queryHashes hq).bind (k := 0)
    exact computes_pure _

def Within (k : FlatKind) (hs hs' : List UInt64) : Prop :=
  match k with
  | bloom nbits =>
    ∀ i, (Bits.ofHashes nbits hs).contains i = true → (Bits.ofHashes nbits hs').contains i = true
  | _ => True

theorem within_of_subset (h : hs ⊆ hs') : k.Within hs hs' := by
  cases k with
  | list => trivial
  | random _ => trivial
  | bloom nbits => exact fun i => Bits.contains_ofHashes_mono h

theorem Within.trans (h : k.Within hs₀ hs) (h' : k.Within hs hs') : k.Within hs₀ hs' := by
  cases k with
  | list => trivial
  | random _ => trivial
  | bloom nbits => exact fun i hi => h' i (h i hi)

def Asks (k : FlatKind) (key : Key) (hs : List UInt64) : Prop :=
  match k with
  | bloom nbits => key = .bits (Bits.ofHashes nbits hs).complement
  | _ => True

theorem asks_queryKeyOf : k.Asks (k.queryKeyOf hs) hs := by
  cases k with
  | list => trivial
  | random _ => trivial
  | bloom nbits => rfl

theorem asks_lookupKey : k.Asks (k.lookupKey (k.keyOf hs)) hs := by
  cases k with
  | list => trivial
  | random _ => trivial
  | bloom nbits => simp [Asks, lookupKey, keyOf, Key.bits?]

def OffersAll (k : FlatKind) (n : Nat) : Prop :=
  match k with
  | random candidates => n ≤ candidates.toNat
  | _ => True

theorem filed_keyOf_bloom {nbits : UInt64} :
    (bloom nbits).filed ((bloom nbits).keyOf hs) = .bits (Bits.ofHashes nbits hs) := by
  simp [filed, keyOf, Key.bits?]

variable {seed : UInt64} {keys : List Key} {i : Nat}

theorem mem_select_bloom {nbits : UInt64} :
    i ∈ (bloom nbits).select seed (.bits (Bits.ofHashes nbits hs).complement) keys ↔
      ∃ stored, keys[i]? = some stored ∧ match stored with
        | .bits bs => (Bits.ofHashes nbits hs).complement.disjoint bs = true
        | _ => True := by
  simp only [select, Key.bits?, Bits.width_complement, Bits.width_ofHashes, if_true, List.mem_filterMap,
    Prod.exists, List.mem_zipIdx_iff_getElem?]
  constructor
  · rintro ⟨stored, j, hj, h⟩
    cases stored <;> simp_all
  · rintro ⟨stored, hi, h⟩
    refine ⟨stored, i, hi, ?_⟩
    cases stored <;> simp_all

theorem mem_select (hr : k.OffersAll keys.length) (ha : k.Asks key hs)
    (hi : keys[i]? = some (k.filed (k.keyOf hs₀))) : i ∈ k.select seed key keys ↔ k.Within hs₀ hs := by
  have hlt : i < keys.length := (List.getElem?_eq_some_iff.mp hi).1
  cases k with
  | list => simp [select, Within, hlt]
  | random candidates =>
    simp only [select, Within, iff_true]
    exact (Sample.mem_positions_of_le hr).mpr hlt
  | bloom nbits =>
    rw [show key = _ from ha, mem_select_bloom, hi, filed_keyOf_bloom]
    simp only [Option.some.injEq, exists_eq_left']
    exact Bits.disjoint_complement_iff rfl

theorem lt_of_mem_select (h : i ∈ k.select seed key keys) : i < keys.length := by
  cases k with
  | list => exact List.mem_range.mp h
  | random candidates => exact Sample.lt_of_mem_positions h
  | bloom nbits =>
    rw [select] at h
    split at h
    · exact List.mem_range.mp h
    · obtain ⟨⟨stored, j⟩, hj, hsome⟩ := List.mem_filterMap.mp h
      have hlt := (List.getElem?_eq_some_iff.mp (List.mem_zipIdx_iff_getElem?.mp hj)).1
      have hi : some j = some i := by
        cases stored <;> simp_all
      exact Option.some.inj hi ▸ hlt

theorem OffersAll.mono {n n' : Nat} (h : k.OffersAll n') (hn : n ≤ n') : k.OffersAll n := by
  cases k with
  | list => trivial
  | random candidates => exact Nat.le_trans hn h
  | bloom nbits => trivial

variable {α : Type} {entries : List (Key × α)}

theorem mem_selectAmong {e : Key × α} (hr : k.OffersAll entries.length) (ha : k.Asks key hs)
    (hi : entries[i]? = some e) (he : e.1 = k.filed (k.keyOf hs₀)) :
    i ∈ k.selectAmong seed key entries ↔ k.Within hs₀ hs := by
  apply mem_select (by rwa [List.length_map]) ha
  rw [List.getElem?_map, hi, ← he]
  rfl

theorem lt_of_mem_selectAmong (h : i ∈ k.selectAmong seed key entries) : i < entries.length := by
  have hlt := lt_of_mem_select h
  rwa [List.length_map] at hlt

theorem offersAll_one (hv : k.validate = .ok ()) : k.OffersAll 1 := by
  cases k with
  | list => trivial
  | random candidates =>
    apply Nat.pos_of_ne_zero
    intro h0
    obtain rfl : candidates = 0 := UInt64.toNat_inj.mp h0
    cases hv
  | bloom nbits => trivial

theorem offersAll_of_selectAmong_eq_nil (hv : k.validate = .ok ()) (ha : k.Asks key hs)
    (h : k.selectAmong seed key entries = []) : k.OffersAll (entries.length + 1) := by
  have hone := offersAll_one hv
  cases k with
  | list => trivial
  | random candidates =>
    have hl := congrArg List.length h
    simp only [selectAmong, select, Sample.length_positions, List.length_map, List.length_nil] at hl
    simp only [OffersAll] at hone ⊢
    omega
  | bloom nbits => trivial

theorem mem_offered {a : α} :
    a ∈ k.offered seed key entries ↔
      ∃ i ∈ k.selectAmong seed key entries, ∃ e, entries[i]? = some e ∧ e.2 = a := by
  simp [offered, List.mem_filterMap]

end FlatKind

end CoreReuse
