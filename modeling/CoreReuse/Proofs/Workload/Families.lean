import CoreReuse.Proofs.Cache.Rounds
import CoreReuse.Workload
import Std.Data.String.ToNat

/-!
The families of the synthetic workload. Predicates of different numbers are different, and none is the
noise predicate; a variable tells its query and its position. So a core is matched by the queries of
its family and by no others, and without renaming only by its own.
-/

namespace CoreReuse.Workload

open Term

theorem toString_injective {i j : Nat} (h : (toString i).toList = (toString j).toList) : i = j :=
  Nat.repr_injective (String.toList_injective h)

theorem predicate_injective : Function.Injective predicate := by
  intro i j h
  have hl := congrArg String.toList (congrArg Decl.name h)
  simp only [predicate, String.toList_append] at hl
  exact toString_injective (List.append_cancel_left hl)

theorem predicate_ne_noisePredicate (i : Nat) : predicate i ≠ noisePredicate := by
  intro h
  have hl := congrArg String.toList (congrArg Decl.name h)
  simp [predicate, noisePredicate] at hl

theorem underscore_notMem_toString (n : Nat) : '_' ∉ (toString n).toList := by
  rw [Nat.toString_eq_ofList_toDigits, String.toList_ofList]
  exact Nat.underscore_not_in_toDigits

theorem variableOf_inj {query query' i j : Nat} :
    variableOf query i = variableOf query' j ↔ query = query' ∧ i = j := by
  refine ⟨fun h => ?_, fun ⟨hq, hi⟩ => by rw [hq, hi]⟩
  have hl := congrArg String.toList (congrArg Decl.name h)
  simp only [variableOf, Decl.constant, String.toList_append, List.append_assoc] at hl
  have hl : (toString query).toList ++ '_' :: 'v' :: (toString i).toList =
      (toString query').toList ++ '_' :: 'v' :: (toString j).toList := List.append_cancel_left hl
  have hv : '_' ∉ 'v' :: (toString i).toList := by
    intro hm
    exact underscore_notMem_toString i ((List.mem_cons.mp hm).resolve_left (by decide))
  obtain ⟨hq, -, hi⟩ :=
    (List.append_cons_inj_of_notMem (underscore_notMem_toString query) hv).mp hl
  exact ⟨toString_injective hq, toString_injective (List.cons.inj hi).2⟩

def link (query first i : Nat) : Term :=
  .app 0 (predicate (first + i))
    [.app 0 (variableOf query i) [], .app 0 (variableOf query (i + 1)) []]

def noiseClause (query i : Nat) (value : Int) : Term :=
  .app 0 noisePredicate [.app 0 (variableOf query i) [], .literal 0 .int (toString value)]

noncomputable def across (query query' : Nat) : Decl → Decl :=
  Function.extend (variableOf query) (variableOf query') id

theorem across_variableOf (query query' i : Nat) :
    across query query' (variableOf query i) = variableOf query' i :=
  Function.Injective.extend_apply (fun _ _ h => (variableOf_inj.mp h).2) _ _ _

theorem carries_link (query query' first i : Nat) :
    Carries {} (across query query') (link query first i) (link query' first i) := by
  have hv : ∀ j, CarriesVariable {} (across query query') (variableOf query j) (variableOf query' j) :=
    fun j => ⟨rfl, across_variableOf query query' j, nofun⟩
  exact ⟨rfl, hv i, hv (i + 1), trivial⟩

theorem eq_of_mul_add_eq {a b i j n : Nat} (hi : i < n) (hj : j < n) (h : a * n + i = b * n + j) :
    a = b ∧ i = j := by
  have hdiv : ∀ {x k : Nat}, k < n → (x * n + k) / n = x := by
    intro x k hk
    rw [Nat.add_comm, Nat.add_mul_div_right _ _ (Nat.zero_lt_of_lt hk), Nat.div_eq_of_lt hk, Nat.zero_add]
  obtain rfl : a = b := by
    have hab := congrArg (· / n) h
    simpa only [hdiv hi, hdiv hj] using hab
  exact ⟨rfl, Nat.add_left_cancel h⟩

structure Made where
  query : Nat
  family : Nat
  whole : ClauseSet
  part : ClauseSet

structure Made.Fits (w : Workload) (m : Made) : Prop where
  family_lt : m.family < w.families
  part_eq : m.part.clauses.map erase =
    (List.range w.coreSize).map (link m.query (m.family * w.coreSize))
  sublist : m.part.clauses.Sublist m.whole.clauses
  size_eq : m.whole.size = w.coreSize + w.noise
  noise : ∀ c ∈ m.whole.clauses, c ∈ m.part.clauses ∨ ∃ i value, c.erase = noiseClause m.query i value

namespace Made.Fits

variable {w : Workload} {m m' : Made} {c : Term}

theorem of_random {random : Generator} (h : m.Fits { w with random }) : m.Fits w :=
  ⟨h.family_lt, h.part_eq, h.sublist, h.size_eq, h.noise⟩

theorem part_size (h : m.Fits w) : m.part.size = w.coreSize := by
  have hl := congrArg List.length h.part_eq
  simpa [ClauseSet.size] using hl

theorem exists_link (h : m.Fits w) (hc : c ∈ m.part.clauses) :
    ∃ i < w.coreSize, c.erase = link m.query (m.family * w.coreSize) i := by
  have hm : c.erase ∈ (List.range w.coreSize).map (link m.query (m.family * w.coreSize)) :=
    h.part_eq ▸ List.mem_map_of_mem hc
  obtain ⟨i, hi, he⟩ := List.mem_map.mp hm
  exact ⟨i, List.mem_range.mp hi, he.symm⟩

theorem exists_clause (h : m.Fits w) {i : Nat} (hi : i < w.coreSize) :
    ∃ c ∈ m.part.clauses, c.erase = link m.query (m.family * w.coreSize) i := by
  have hm : link m.query (m.family * w.coreSize) i ∈ m.part.clauses.map erase :=
    h.part_eq ▸ List.mem_map_of_mem (List.mem_range.mpr hi)
  exact List.mem_map.mp hm

theorem family_eq (h : m.Fits w) {family i : Nat} (hi : i < w.coreSize) {n : NodeId} {as : List Term}
    (hc : c ∈ m.whole.clauses) (he : c.erase = .app n (predicate (family * w.coreSize + i)) as) :
    family = m.family ∧ as = [.app 0 (variableOf m.query i) [], .app 0 (variableOf m.query (i + 1)) []] := by
  rcases h.noise c hc with hp | ⟨j, value, hn⟩
  · obtain ⟨j, hj, hl⟩ := h.exists_link hp
    rw [he, link, Term.app.injEq] at hl
    obtain ⟨-, hpred, has⟩ := hl
    obtain ⟨hf, rfl⟩ := eq_of_mul_add_eq hi hj (predicate_injective hpred)
    exact ⟨hf, has⟩
  · rw [he, noiseClause, Term.app.injEq] at hn
    exact absurd hn.2.1 (predicate_ne_noisePredicate _)

theorem embeds (h : m.Fits w) (h' : m'.Fits w) (hf : m.family = m'.family) :
    ∃ τ, Embeds τ m.part.clauses m'.whole.clauses := by
  refine ⟨across m.query m'.query, fun c hc => ?_⟩
  obtain ⟨i, hi, he⟩ := h.exists_link hc
  obtain ⟨c', hc', he'⟩ := h'.exists_clause hi
  rw [← hf] at he'
  exact ⟨c', h'.sublist.subset hc', (carries_link m.query m'.query _ i).of_erase_eq he he'⟩

theorem family_eq_of_embeds (h : m.Fits w) (h' : m'.Fits w) (hw : 0 < w.coreSize) {τ : Decl → Decl}
    (he : Embeds τ m.part.clauses m'.whole.clauses) : m.family = m'.family := by
  obtain ⟨c, hc, hl⟩ := h.exists_clause hw
  obtain ⟨q, hq, hcq⟩ := he c hc
  rw [← carries_erase, hl] at hcq
  cases hqe : q.erase with
  | app n g bs =>
    rw [hqe] at hcq
    obtain ⟨rfl, -⟩ := hcq
    exact (h'.family_eq hw hq hqe).1
  | _ =>
    rw [hqe] at hcq
    cases hcq

theorem query_eq_of_verbatim (h : m.Fits w) (h' : m'.Fits w) (hw : 0 < w.coreSize)
    (ha : Tester.simple.Admits m.part.clauses m'.whole.clauses) : m.query = m'.query := by
  obtain ⟨c, hc, hl⟩ := h.exists_clause hw
  obtain ⟨q, hq, hqc⟩ := ha c hc
  rw [beq_eq_same, same_iff_erase_eq, hl] at hqc
  have has := (h'.family_eq hw hq hqc).2
  simp only [List.cons.injEq, Term.app.injEq, variableOf_inj] at has
  exact has.1.2.1.1

end Made.Fits

end CoreReuse.Workload
