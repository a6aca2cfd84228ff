import CoreReuse.Proofs.Cache.Answers

namespace CoreReuse

open Hash Search PollSource

variable {V : Vocabulary} {c : Config} {cache : Cache} {cores : List ClauseSet} {core : ClauseSet}
variable {i : IndexedCache}

def Config.filled (c : Config) (cores : List ClauseSet) : Index :=
  .ofCores c.seed c.index.levels.1 c.index.levels.2 c.height (cores.filter c.accepts)

namespace Config

theorem filled_concat_of_accepts (h : c.accepts core = true) :
    c.filled (cores ++ [core]) = (c.filled cores).insert
      (Store.keyOf c.index.levels.1 c.index.levels.2 (core.hashes c.height)) core := by
  have hf : (cores ++ [core]).filter c.accepts = cores.filter c.accepts ++ [core] := by
    rw [List.filter_append, List.filter_cons_of_pos h, List.filter_nil]
  rw [filled, hf, Index.ofCores, Store.ofCores_concat]
  rfl

theorem filled_concat_of_not_accepts (h : c.accepts core = false) :
    c.filled (cores ++ [core]) = c.filled cores := by
  have hf : (cores ++ [core]).filter c.accepts = cores.filter c.accepts := by
    rw [List.filter_append, List.filter_cons_of_neg (by simp [h]), List.filter_nil, List.append_nil]
  rw [filled, hf, filled]

theorem Serves.index_add (h : Serves V c i cores) (hi : i.index = c.filled cores)
    (hc : ∀ t ∈ core.clauses, t ∈ V) :
    (if c.accepts core then (i.add core).1 else i).index = c.filled (cores ++ [core]) := by
  cases ha : c.accepts core with
  | false =>
    rw [filled_concat_of_not_accepts ha]
    exact hi
  | true =>
    have hkey : (i.index.coreKey i.core core).1 =
        Store.keyOf i.index.outermost i.index.inner (core.hashes c.height) :=
      (Store.coreKey_sound _ _ h.holds.hasher hc).1
    rw [filled_concat_of_accepts ha]
    change (i.add core).1.index = _
    rw [IndexedCache.index_add, hkey, hi]
    rfl

theorem Reached.index_eq (hm : c.mode = .enabled) (h : Reached V c cache cores) :
    ∃ i, cache = c.around i ∧ Serves V c i cores ∧ i.index = c.filled cores := by
  induction h with
  | built hb =>
    obtain ⟨index, hi, rfl⟩ := build_cases hm hb
    obtain ⟨-, hindex⟩ := IndexKind.build_cases hi
    exact ⟨_, rfl, .built hi, (c.index_buildIndexed index).trans hindex⟩
  | add _ hc ih =>
    obtain ⟨i, rfl, hi, hindex⟩ := ih
    exact ⟨_, add_around _, hi.add hc, hi.index_add hindex hc⟩
  | check source _ hq ih =>
    obtain ⟨i, rfl, hi, hindex⟩ := ih
    rw [check_around]
    exact ⟨_, rfl, hi.check hq source, (IndexedCache.check_unchanged i _ source).1.trans hindex⟩

/-- What an index holds of cores that were added to its cache: those that are kept, each in every
innermost store that it was put into, in the order in which they came. -/
structure Stores (c : Config) (index : Index) (cores : List ClauseSet) : Prop where
  index_eq : index = c.filled cores
  size_eq : index.size = (cores.filter c.accepts).length
  mem_contents : ∀ core, core ∈ Store.contents index.inner index.store ↔ core ∈ cores.filter c.accepts
  ordered : ∀ leaf ∈ Store.leaves index.inner index.store, leaf.Sublist (cores.filter c.accepts)
  flat : index.inner = [] → Store.contents index.inner index.store = cores.filter c.accepts

theorem stores_filled (hv : ∀ l ∈ c.index.levels.1 :: c.index.levels.2, l.validate = .ok ()) :
    c.Stores (c.filled cores) cores where
  index_eq := rfl
  size_eq := Store.size_ofCores _
  mem_contents _ := Store.mem_contents_ofCores hv
  ordered _ := Store.sublist_of_mem_leaves_ofCores
  flat h := Store.contents_ofCores_flat h

theorem Serves.stores (h : Serves V c i cores) (hi : i.index = c.filled cores) :
    c.Stores i.index cores := by
  have hv := h.holds.valid
  rw [hi] at hv ⊢
  exact stores_filled hv

variable {query : ClauseSet}

theorem Serves.hit_admits {π : Type} [PollSource π] (h : Serves V c i cores)
    (hq : ∀ q ∈ query.clauses, q ∈ V) (source : π) :
    ((i.check query source).answer = .ok true →
      ∃ core ∈ cores, c.accepts core = true ∧ c.tester.Admits core.clauses query.clauses) ∧
    (c.index.innermost.OffersAll (cores.filter c.accepts).length → Quiet source →
      (∃ core ∈ cores, c.accepts core = true ∧ c.tester.Admits core.clauses query.clauses) →
      (i.check query source).answer = .ok true) := by
  obtain ⟨-, hok, hb⟩ := h.holds.check hq source
  simp only [List.mem_filter, and_assoc, h.tester_eq] at hb
  have hlevels : i.index.outermost.innermost i.index.inner = c.index.innermost := by
    rw [← c.index.innermost_levels, ← h.levels_eq]
  refine ⟨fun ht => (hb true ht).1 rfl, fun hroom hs hex => ?_⟩
  obtain ⟨b, hanswer⟩ := hok hs
  rw [hanswer, (hb b hanswer).2 (hlevels ▸ hroom) hex]

theorem Serves.exists_confirms_iff (h : Serves V c i cores) (hq : ∀ q ∈ query.clauses, q ∈ V) :
    (∃ core ∈ cores, c.accepts core = true ∧ c.tester.Confirms c.height core query) ↔
      ∃ core ∈ cores, c.accepts core = true ∧ c.tester.Admits core.clauses query.clauses := by
  refine exists_congr fun core => and_congr_right fun hcore => and_congr_right fun ha => ?_
  exact Tester.confirms_iff (h.holds.built core (List.mem_filter.mpr ⟨hcore, ha⟩)) hq

theorem Serves.hit_iff {π : Type} [PollSource π] (h : Serves V c i cores)
    (hq : ∀ q ∈ query.clauses, q ∈ V) (source : π) :
    ((i.check query source).answer = .ok true →
      ∃ core ∈ cores, c.accepts core = true ∧ c.tester.Confirms c.height core query) ∧
    (c.index.innermost.OffersAll (cores.filter c.accepts).length → Quiet source →
      (∃ core ∈ cores, c.accepts core = true ∧ c.tester.Confirms c.height core query) →
      (i.check query source).answer = .ok true) := by
  rw [h.exists_confirms_iff hq]
  exact h.hit_admits hq source

end Config

end CoreReuse
