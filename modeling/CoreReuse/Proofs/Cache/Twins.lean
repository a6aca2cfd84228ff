import CoreReuse.Proofs.Cache.Contents
import CoreReuse.Proofs.Matching.Oblivious

/-!
Caches that differ only in what their hashers have seen, and in what was counted. Whatever is done
with them next shows no difference.
-/

namespace CoreReuse

open Hash Search PollSource

variable {π : Type} [PollSource π] {V : Vocabulary} {m : Option Nat} {core query : ClauseSet}
variable {cores : List ClauseSet}

theorem FlatKind.queryKey_composed {T : Term → Prop} {P : (α : Type) → Search π α → Prop}
    (h : Composes T query P) (k : FlatKind) : P _ (k.queryKey query) := by
  cases k with
  | list => exact h.pure _
  | random candidates => exact h.bind h.queryHashes fun _ => h.pure _
  | bloom nbits => exact h.bind h.queryHashes fun _ => h.pure _

theorem Store.queryKey_composed {T : Term → Prop} {P : (α : Type) → Search π α → Prop}
    (h : Composes T query P) (k : FlatKind) (rest : List FlatKind) :
    P _ (Store.queryKey k rest query) := by
  induction rest generalizing k with
  | nil => exact k.queryKey_composed h
  | cons next rest ih =>
    apply h.bind (k.queryKey_composed h)
    intro outer
    apply h.bind (ih next)
    intro inner
    exact h.pure _

namespace IndexedCache

theorem begin_oblivious (c : IndexedCache) (hq : ∀ q ∈ query.clauses, q ∈ V) :
    Oblivious V m query (c.begin query : Search π Key) := by
  have h := composes_oblivious (π := π) (m := m) hq
  rw [begin_eq]
  exact h.bind h.poll fun _ => Store.queryKey_composed h _ _

theorem test_oblivious (t : Tester) (hc : ∀ c ∈ core.clauses, c ∈ V) (hq : ∀ q ∈ query.clauses, q ∈ V) :
    Oblivious V m query (test t query core : Search π Bool) := by
  have h := composes_oblivious (π := π) (m := m) hq
  exact h.bind h.poll fun _ => Tester.matches_composed h t hc hq

theorem testAll_oblivious (t : Tester) (hc : ∀ core ∈ cores, ∀ c ∈ core.clauses, c ∈ V)
    (hq : ∀ q ∈ query.clauses, q ∈ V) (n : Nat) {v w : Work π} (h : v.Alike V m query w) :
    (testAll t query cores n v).answer = (testAll t query cores n w).answer ∧
      (testAll t query cores n v).consumed = (testAll t query cores n w).consumed ∧
      (testAll t query cores n v).work.Alike V m query (testAll t query cores n w).work := by
  induction cores generalizing n v w with
  | nil => exact ⟨rfl, rfl, h⟩
  | cons core cores ih =>
    obtain ⟨hcore, hcores⟩ := List.forall_mem_cons.mp hc
    obtain ⟨hr, hw⟩ := test_oblivious (m := m) t hcore hq v w h
    simp only [testAll]
    rcases hv : (test t query core).run v with ⟨x, v'⟩
    rcases hw' : (test t query core).run w with ⟨y, w'⟩
    rw [hv, hw'] at hr hw
    obtain rfl : x = y := hr
    rcases x with e | _ | _
    · exact ⟨rfl, rfl, hw⟩
    · exact ih hcores (n + 1) hw
    · exact ⟨rfl, rfl, hw⟩

structure Twins (V : Vocabulary) (m : Option Nat) (cores : List ClauseSet) (i j : IndexedCache) : Prop where
  left : i.Holds V m cores
  right : j.Holds V m cores
  index_eq : j.index = i.index
  tester_eq : j.tester = i.tester
  depth_eq : j.proposer.depth = i.proposer.depth

variable {i j : IndexedCache}

theorem name_proposer (c : IndexedCache) : c.proposer.name = c.index.name :=
  c.proposer.forwards_index.name_eq

theorem Twins.name_eq (h : Twins V m cores i j) : j.proposer.name = i.proposer.name := by
  rw [name_proposer, name_proposer, h.index_eq]

omit [PollSource π] in
theorem Twins.roundEvents_eq (h : Twins V m cores i j) {r r' : Round π} (ha : r.answer = r'.answer)
    (hn : r.consumed = r'.consumed) : i.roundEvents r = j.roundEvents r' := by
  simp only [roundEvents, CandidateIndex.events_drop, h.name_eq, h.tester_eq, h.depth_eq, ha, hn]

theorem Twins.add (h : Twins V m cores i j) (hc : ∀ t ∈ core.clauses, t ∈ V) :
    (i.add core).2 = (j.add core).2 ∧
      Twins V m (cores ++ [core]) (i.add core).1 (j.add core).1 := by
  have hkey : (j.index.coreKey j.core core).1 = (i.index.coreKey i.core core).1 := by
    rw [h.index_eq]
    exact (Store.coreKey_sound _ _ h.right.hasher hc).1.trans
      (Store.coreKey_sound _ _ h.left.hasher hc).1.symm
  refine ⟨?_, h.left.add hc, h.right.add hc, ?_, h.tester_eq, ?_⟩
  · change [Trace.Event.addingCore i.proposer.name core.size] = [.addingCore j.proposer.name core.size]
    rw [h.name_eq]
  · rw [index_add, index_add, hkey, h.index_eq]
  · exact (j.proposer.depth_insert _ _).trans (h.depth_eq.trans (i.proposer.depth_insert _ _).symm)

def shown (c : IndexedCache) (query : ClauseSet) (source : π) : Outcome Unit π :=
  (c.check query source).map fun _ => ()

theorem Twins.check (h : Twins V m cores i j) (hq : ∀ q ∈ query.clauses, q ∈ V) (source : π) :
    i.shown query source = j.shown query source ∧
      Twins V m cores (i.check query source).cache (j.check query source).cache := by
  have hcaches : (i.check query source).cache.Holds V m cores ∧
      (j.check query source).cache.Holds V m cores :=
    ⟨(h.left.check hq source).1, (h.right.check hq source).1⟩
  have hbegin : j.begin query = (i.begin query : Search π Key) := by simp only [begin_eq, h.index_eq]
  obtain ⟨hr, hw⟩ := begin_oblivious i hq _ _
    (Work.alike_start query h.left.hasher h.right.hasher source)
  unfold shown
  simp only [check_eq_index, hbegin] at hcaches ⊢
  rcases hv : (i.begin query).run (.start i.core source) with ⟨x, v⟩
  rcases hw' : (i.begin query).run (.start j.core source) with ⟨y, w⟩
  rw [hv, hw'] at hr hw hcaches
  obtain rfl : x = y := hr
  cases x with
  | error e =>
    have hs : v.source = w.source := hw.source_eq
    exact ⟨by simp only [Outcome.map, hs], h⟩
  | ok key =>
    have hc : ∀ core ∈ i.index.candidates key, ∀ t ∈ core.clauses, t ∈ V :=
      fun core hm => h.left.built core (h.left.candidates key core hm)
    obtain ⟨h1, h2, h3⟩ := testAll_oblivious i.tester hc hq 0 hw
    simp only [h.tester_eq, h.index_eq] at hcaches ⊢
    refine ⟨?_, hcaches.1, hcaches.2, ?_, h.tester_eq, ?_⟩
    · simp only [Outcome.map, h1, h3.source_eq, h3.events_eq, h.roundEvents_eq h1 h2]
    · rw [index_afterRound, index_afterRound, h.index_eq]
    · exact (j.proposer.depth_drop _).trans (h.depth_eq.trans (i.proposer.depth_drop _).symm)

end IndexedCache

inductive Use where
  | add (core : ClauseSet)
  | check (query : ClauseSet) (answers : Nat → Bool)

inductive Seen where
  | added (events : List Trace.Event)
  | checked (outcome : Outcome Unit PollStream)

namespace Use

def terms : Use → List Term
  | add core => core.clauses
  | check query _ => query.clauses

def after {κ : Type} [UnsatCache κ] (cache : κ) : Use → κ
  | add core => (UnsatCache.add cache core).1
  | check query answers => (UnsatCache.check cache query (⟨answers, 0⟩ : PollStream)).cache

def on (cache : Cache) : Use → Seen × Cache
  | add core => (.added (UnsatCache.add cache core).2, (UnsatCache.add cache core).1)
  | check query answers =>
    let o := UnsatCache.check cache query (⟨answers, 0⟩ : PollStream)
    (.checked (o.map fun _ => ()), o.cache)

def run (cache : Cache) : List Use → List Seen × Cache
  | [] => ([], cache)
  | u :: us =>
    let (x, cache) := u.on cache
    let (xs, cache) := run cache us
    (x :: xs, cache)

end Use

namespace Config

variable {c : Config} {cache cache' : Cache}

structure Twins (V : Vocabulary) (c : Config) (cache cache' : Cache) : Prop where
  exists_twins : ∃ cores i j, cache = c.around i ∧ cache' = c.around j ∧
    IndexedCache.Twins V c.height cores i j

theorem Twins.calm (h : Twins V c cache cache') (hf : V.Fits c.height) : cache.base.overflowed = false := by
  obtain ⟨cores, i, j, rfl, rfl, hij⟩ := h.exists_twins
  exact hij.left.hasher.calm hf

theorem Twins.on (h : Twins V c cache cache') {u : Use} (hu : ∀ t ∈ u.terms, t ∈ V) :
    (u.on cache).1 = (u.on cache').1 ∧ Twins V c (u.on cache).2 (u.on cache').2 := by
  obtain ⟨cores, i, j, rfl, rfl, hij⟩ := h.exists_twins
  cases u with
  | add core =>
    obtain ⟨he, ht⟩ := hij.add hu
    simp only [Use.on, add_around_eq]
    split
    · exact ⟨congrArg Seen.added he, _, _, _, rfl, rfl, ht⟩
    · exact ⟨rfl, _, _, _, rfl, rfl, hij⟩
  | check query answers =>
    obtain ⟨he, ht⟩ := hij.check hu (⟨answers, 0⟩ : PollStream)
    simp only [Use.on, check_around]
    exact ⟨congrArg Seen.checked he, _, _, _, rfl, rfl, ht⟩

theorem Twins.run (h : Twins V c cache cache') {us : List Use} (hu : ∀ u ∈ us, ∀ t ∈ u.terms, t ∈ V) :
    (Use.run cache us).1 = (Use.run cache' us).1 ∧
      Twins V c (Use.run cache us).2 (Use.run cache' us).2 := by
  induction us generalizing cache cache' with
  | nil => exact ⟨rfl, h⟩
  | cons u us ih =>
    obtain ⟨hu, hus⟩ := List.forall_mem_cons.mp hu
    obtain ⟨h1, h2⟩ := h.on hu
    obtain ⟨h3, h4⟩ := ih h2 hus
    exact ⟨congrArg₂ List.cons h1 h3, h4⟩

theorem Reached.depth_eq (hm : c.mode = .enabled) (h : Reached V c cache cores) :
    ∃ i, cache = c.around i ∧ i.proposer.depth = c.logCandidates.toNat := by
  induction h with
  | built hb =>
    obtain ⟨index, -, rfl⟩ := build_cases hm hb
    refine ⟨_, rfl, ?_⟩
    unfold buildIndexed
    cases c.logCandidates <;> rfl
  | add _ hc ih =>
    obtain ⟨i, rfl, hi⟩ := ih
    refine ⟨_, add_around _, ?_⟩
    split
    · exact (i.proposer.depth_insert _ _).trans hi
    · exact hi
  | check source _ hq ih =>
    obtain ⟨i, rfl, hi⟩ := ih
    rw [check_around]
    refine ⟨_, rfl, ?_⟩
    unfold IndexedCache.check
    split
    · exact hi
    · exact (i.proposer.depth_drop _).trans hi

theorem around_inj {i j : IndexedCache} (h : c.around i = c.around j) : i = j :=
  BaseCache.indexed.inj (congrArg Layered.base h)

theorem Reached.twins (hm : c.mode = .enabled) (h : Reached V c cache cores)
    (h' : Reached V c cache' cores) : Twins V c cache cache' := by
  obtain ⟨i, rfl, hi, hindex⟩ := h.index_eq hm
  obtain ⟨j, rfl, hj, hindex'⟩ := h'.index_eq hm
  obtain ⟨i', he, hdepth⟩ := h.depth_eq hm
  obtain ⟨j', he', hdepth'⟩ := h'.depth_eq hm
  obtain rfl := around_inj he
  obtain rfl := around_inj he'
  exact ⟨_, i, j, rfl, rfl, hi.holds, hj.holds, hindex'.trans hindex.symm,
    hj.tester_eq.trans hi.tester_eq.symm, hdepth'.trans hdepth.symm⟩

end Config

end CoreReuse
