import CoreReuse.Proofs.Index.Blocks
import CoreReuse.Proofs.Index.Offers
import CoreReuse.Proofs.Index.Parallel

namespace CoreReuse

open Search

structure Arrival where
  hasher : Hasher
  core : ClauseSet

namespace Arrival

variable {k : FlatKind} {a : Arrival}

def hashes (a : Arrival) : List UInt64 := (a.hasher.hashAll a.core.clauses).1

def key (k : FlatKind) (a : Arrival) : Key := (k.coreKey a.hasher a.core).1

theorem key_eq : a.key k = k.keyOf a.hashes := by
  cases k with
  | list => rfl
  | random candidates => rfl
  | bloom nbits => rfl

end Arrival

def remainders (width : UInt64) (hashes : List UInt64) : List UInt64 := hashes.map (· % width)

namespace Bits

variable {width : UInt64} {hs qs : List UInt64}

theorem contains_ofHashes_iff (hn : width ≠ 0) {i : Nat} :
    (ofHashes width hs).contains i = true ↔ ∃ r ∈ remainders width hs, r.toNat = i := by
  simp only [remainders, List.mem_map, exists_exists_and_eq_and]
  by_cases hi : i < width.toNat
  · simp [contains_ofHashes width hs hi]
  · have hout : ¬(ofHashes width hs).contains i = true := fun h => hi (lt_of_contains h)
    refine iff_of_false hout ?_
    rintro ⟨h, -, rfl⟩
    exact hi (mod_lt hn h)

theorem included_iff (hn : width ≠ 0) :
    (∀ i, (ofHashes width hs).contains i = true → (ofHashes width qs).contains i = true) ↔
      remainders width hs ⊆ remainders width qs := by
  simp only [contains_ofHashes_iff hn]
  constructor
  · intro h r hr
    obtain ⟨r', hr', he⟩ := h r.toNat ⟨r, hr, rfl⟩
    exact UInt64.toNat_inj.mp he ▸ hr'
  · rintro h i ⟨r, hr, hi⟩
    exact ⟨r, h hr, hi⟩

theorem disjoint_ofHashes (hn : width ≠ 0) :
    (ofHashes width qs).complement.disjoint (ofHashes width hs) =
      decide (remainders width hs ⊆ remainders width qs) := by
  have hwidth : (ofHashes width qs).width = (ofHashes width hs).width := rfl
  rw [Bool.eq_iff_iff, disjoint_complement_iff hwidth, included_iff hn, decide_eq_true_iff]

end Bits

namespace Search

variable {π : Type} {query : ClauseSet} {w : Work π} {k : FlatKind}

def asked (query : ClauseSet) (w : Work π) : List UInt64 :=
  w.hashes.getD (w.query.hashAll query.clauses).1

theorem run_queryHashes : ((queryHashes query : Search π (List UInt64)).run w).1 = .ok (asked query w) := by
  cases h : w.hashes with
  | some hs => rw [run_queryHashes_of_some h, asked, h, Option.getD_some]
  | none => rw [run_queryHashes_of_none h, asked, h, Option.getD_none]

theorem run_queryKey : ((k.queryKey query : Search π Key).run w).1 = .ok (k.queryKeyOf (asked query w)) := by
  have hashed := @run_queryHashes π query w
  rcases hr : (queryHashes query : Search π (List UInt64)).run w with ⟨x, w'⟩
  rw [hr] at hashed
  obtain rfl : x = .ok (asked query w) := hashed
  cases k with
  | list => rfl
  | random candidates => simp only [FlatKind.queryKey, FlatKind.queryKeyOf, run_bind, hr, run_pure]
  | bloom nbits => simp only [FlatKind.queryKey, FlatKind.queryKeyOf, run_bind, hr, run_pure]

end Search

namespace FlatKind

variable {α : Type} {k : FlatKind} {n seed : UInt64} {hs qs : List UInt64} {w : Nat}
variable {arrivals : List (Arrival × α)}

def fileAll (k : FlatKind) (arrivals : List (Arrival × α)) : List (Key × α) :=
  arrivals.foldl (fun entries e => k.file (e.1.key k) e.2 entries) []

theorem fileAll_eq :
    k.fileAll arrivals = arrivals.map fun e => (k.filed (k.keyOf e.1.hashes), e.2) := by
  induction arrivals using List.reverseRecOn with
  | nil => rfl
  | append_singleton arrivals e ih =>
    rw [fileAll, List.foldl_append, ← fileAll, ih, List.map_append]
    simp only [List.foldl_cons, List.foldl_nil, file, Arrival.key_eq, List.map_cons, List.map_nil]

theorem offered_bits {missing : Bits} {entries : List (Bits × α)} (hm : missing.width = n.toNat) :
    (bloom n).offered seed (.bits missing) (entries.map fun e => (.bits e.1, e.2)) =
      (entries.filter fun e => missing.disjoint e.1).map (·.2) := by
  have hkey : (Key.bits missing).bits? n.toNat = some missing := if_pos hm
  rw [offered_bloom_of_some hkey, List.filter_map, List.map_map]
  rfl

theorem offered_fileAll (hn : n ≠ 0) :
    (bloom n).offered seed ((bloom n).queryKeyOf qs) ((bloom n).fileAll arrivals) =
      (arrivals.filter fun e => remainders n e.1.hashes ⊆ remainders n qs).map (·.2) := by
  have hstored : (bloom n).fileAll arrivals =
      (arrivals.map fun e => (Bits.ofHashes n e.1.hashes, e.2)).map fun e => (.bits e.1, e.2) := by
    rw [fileAll_eq, List.map_map]
    exact List.map_congr_left fun e _ => congrArg (·, e.2) filed_keyOf_bloom
  rw [hstored, queryKeyOf, offered_bits rfl, List.filter_map, List.map_map]
  simp only [Function.comp_def, Bits.disjoint_ofHashes hn]

theorem lookupKey_keyOf_bloom : (bloom n).lookupKey ((bloom n).keyOf hs) = (bloom n).queryKeyOf hs := by
  simp [lookupKey, keyOf, queryKeyOf, Key.bits?]

theorem queryKeyOf_bloom_congr (h : ∀ x, x ∈ hs ↔ x ∈ qs) :
    (bloom n).queryKeyOf hs = (bloom n).queryKeyOf qs := by
  have hbits : Bits.ofHashes n hs = Bits.ofHashes n qs := by
    apply Bits.ofMembers_congr
    simp only [List.mem_map, h, implies_true]
  rw [queryKeyOf, queryKeyOf, hbits]

theorem offered_fileAll_mono (hn : n ≠ 0) (h : hs ⊆ qs) :
    ((bloom n).offered seed ((bloom n).queryKeyOf hs) ((bloom n).fileAll arrivals)).Sublist
      ((bloom n).offered seed ((bloom n).queryKeyOf qs) ((bloom n).fileAll arrivals)) := by
  rw [offered_fileAll hn, offered_fileAll hn]
  apply List.Sublist.map
  apply List.monotone_filter_right
  intro e he
  rw [decide_eq_true_iff] at he ⊢
  exact List.Subset.trans he (List.map_subset _ h)

theorem intersects_inverted_origin {B : BlockVectors w} (hB : B.Lawful) (hw : 0 < w) (hn : n ≠ 0) :
    B.intersects (B.inverted n qs) (B.origin n hs) = !decide (remainders n hs ⊆ remainders n qs) := by
  have hwidth : (Bits.ofHashes n qs).complement.width = (Bits.ofHashes n hs).width := rfl
  rw [BlockVectors.intersects, Packed.intersects_eq hw hwidth (hB.shows_inverted hn) (hB.shows_origin hn),
    Bits.disjoint_ofHashes hn]

theorem bloom_finds_included {π : Type} {B : BlockVectors w} (hB : B.Lawful) (hn : n ≠ 0) (hw : 0 < w)
    (seed : UInt64)
    (arrivals : List (Arrival × α)) (query : ClauseSet) (work : Work π) (c : Arrival) :
    let qs := asked query work
    let key := (bloom n).queryKeyOf qs
    let found := fun key => (bloom n).offered seed key ((bloom n).fileAll arrivals)
    ((((bloom n).queryKey query : Search π Key).run work).1 = .ok key ∧
        found key = (arrivals.filter fun e => remainders n e.1.hashes ⊆ remainders n qs).map (·.2)) ∧
      ((∀ h, h ∈ c.hashes ↔ h ∈ qs) → (bloom n).lookupKey (c.key (bloom n)) = key) ∧
      (c.hashes ⊆ qs → (found ((bloom n).lookupKey (c.key (bloom n)))).Sublist (found key)) ∧
      ((arrivals.filter fun e => e.1.hashes ⊆ qs).map (·.2)).Sublist (found key) ∧
      B.packed (B.negate (B.origin n c.hashes)) = B.packed (B.inverted n c.hashes) ∧
      (arrivals.filter fun e => !B.intersects (B.inverted n qs) (B.origin n e.1.hashes)).map (·.2) =
        found key := by
  intro qs key found
  have hfound : found key = _ := offered_fileAll hn
  have hlookup : (bloom n).lookupKey (c.key (bloom n)) = (bloom n).queryKeyOf c.hashes := by
    rw [Arrival.key_eq, lookupKey_keyOf_bloom]
  refine ⟨⟨run_queryKey, hfound⟩, fun h => ?_, fun h => ?_, ?_, hB.negate_origin hn, ?_⟩
  · rw [hlookup]
    exact queryKeyOf_bloom_congr h
  · rw [hlookup]
    exact offered_fileAll_mono hn h
  · rw [hfound]
    apply List.Sublist.map
    apply List.monotone_filter_right
    intro e he
    rw [decide_eq_true_iff] at he ⊢
    exact List.map_subset _ he
  · simp only [hfound, intersects_inverted_origin hB hw hn, Bool.not_not]

end FlatKind

def ClauseSet.predicates (fs : List (NodeId × String)) : ClauseSet := .atoms (fs.map fun f => (f.1, f.2, "x"))

def Arrival.predicates (fs : List (NodeId × String)) : Arrival := ⟨.ofMaxHeight (some 7), .predicates fs⟩

theorem FlatKind.bloom_finds_predicates :
    let arrivals := [(Arrival.predicates [(0, "p")], 1), (.predicates [(4, "r")], 2),
      (.predicates [(0, "p"), (2, "q")], 3)]
    let found := fun key => (bloom 37).offered 0 key ((bloom 37).fileAll arrivals)
    let query := ClauseSet.predicates [(6, "s"), (2, "q"), (0, "p")]
    let work := Work.start (.ofMaxHeight (some 7)) ({} : Watch)
    let B := Packed.vectors 32
    ∃ key, (((bloom 37).queryKey query).run work).1 = .ok key ∧ found key = [1, 3] ∧
      (found ((bloom 37).lookupKey ((Arrival.predicates [(0, "p")]).key (bloom 37)))).Sublist [1, 3] ∧
      (arrivals.filter fun e => !B.intersects (B.inverted 37 (asked query work))
        (B.origin 37 e.1.hashes)).map (·.2) = [1, 3] := by
  intro arrivals found query work B
  obtain ⟨⟨hkey, hfound⟩, -, hmono, -, -, hblocks⟩ := bloom_finds_included (n := 37)
    (Packed.lawful (w := 32) (by decide)) (by decide) (by decide) 0 arrivals query work (.predicates [(0, "p")])
  have hthree := hfound.trans (show _ = [1, 3] by decide +kernel)
  exact ⟨_, hkey, hthree, hthree ▸ hmono (by decide +kernel), hblocks.trans hthree⟩

end CoreReuse
