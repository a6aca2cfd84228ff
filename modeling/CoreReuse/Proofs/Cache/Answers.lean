import CoreReuse.Proofs.Cache.Checks
import CoreReuse.Proofs.Index.Filling

namespace CoreReuse

open Hash Search PollSource

variable {π : Type} [PollSource π] {V : Vocabulary} {m : Option Nat} {core query : ClauseSet}
variable {cores : List ClauseSet}

def IndexKind.innermost : IndexKind → FlatKind
  | flat kind => kind
  | composite _ inner => inner.innermost

theorem IndexKind.innermost_levels (kind : IndexKind) :
    kind.levels.1.innermost kind.levels.2 = kind.innermost := by
  induction kind with
  | flat kind => rfl
  | composite outer inner _ ih => exact ih

theorem IndexedCache.holds_built {kind : IndexKind} {seed : UInt64} {p : CandidateIndex}
    (h : kind.build seed = .ok p.index) (t : Tester) (m : Option Nat) :
    Holds V m ⟨.ofMaxHeight m, p, t⟩ [] := by
  obtain ⟨hv, hp⟩ := IndexKind.build_cases h
  have hnone : ∀ core, core ∈ Store.contents kind.levels.2 (.empty kind.levels.2) ↔ core ∈ [] := by simp
  have hs := Hasher.sound_ofMaxHeight V m
  have hplain : Holds V m ⟨.ofMaxHeight m, .plain ⟨seed, kind.levels.1, kind.levels.2, .empty _⟩, t⟩ [] :=
    ⟨hs, IndexKind.validate_levels hv, Store.filed_empty, Store.atMost_empty, hnone, by simp⟩
  exact hplain.of_index_eq hp hs

def Config.accepts (c : Config) (core : ClauseSet) : Bool :=
  c.maxCoreSize.all fun bound => core.size ≤ bound.toNat

namespace Config

variable {c : Config} {cache : Cache}

def height (c : Config) : Option Nat := c.maxHashHeight.map UInt64.toNat

def layers (c : Config) : List Layer :=
  c.maxCoreSize.toList.map fun bound => .maxCoreSize bound.toNat

/-- The caches that come of a configuration by additions and checks, with the cores that were added.
A check may be interrupted. -/
inductive Reached (V : Vocabulary) (c : Config) : Cache → List ClauseSet → Prop where
  | built {cache : Cache} {events : List Trace.Event} : c.build = .ok (cache, events) →
      Reached V c cache []
  | add {cache : Cache} {cores : List ClauseSet} {core : ClauseSet} : Reached V c cache cores →
      (∀ t ∈ core.clauses, t ∈ V) → Reached V c (UnsatCache.add cache core).1 (cores ++ [core])
  | check {cache : Cache} {cores : List ClauseSet} {query : ClauseSet} {π : Type} [PollSource π]
      (source : π) : Reached V c cache cores → (∀ q ∈ query.clauses, q ∈ V) →
      Reached V c (UnsatCache.check cache query source).cache cores

structure Serves (V : Vocabulary) (c : Config) (i : IndexedCache) (cores : List ClauseSet) : Prop where
  holds : i.Holds V c.height (cores.filter c.accepts)
  tester_eq : i.tester = c.tester
  levels_eq : (i.index.outermost, i.index.inner) = c.index.levels

theorem build_cases (hm : c.mode = .enabled) {events : List Trace.Event}
    (h : c.build = .ok (cache, events)) :
    ∃ index, c.index.build c.seed = .ok index ∧
      cache = ⟨c.layers, .indexed (c.buildIndexed index)⟩ := by
  unfold build at h
  cases hv : c.validate with
  | error e =>
    rw [hv] at h
    cases h
  | ok u =>
    rw [hv, hm] at h
    cases hi : c.index.build c.seed with
    | error e =>
      rw [hi] at h
      cases h
    | ok index =>
      rw [hi] at h
      refine ⟨index, rfl, ?_⟩
      unfold layers
      cases hs : c.maxCoreSize with
      | none =>
        rw [hs] at h
        cases h
        rfl
      | some bound =>
        rw [hs] at h
        cases h
        rfl

variable {i : IndexedCache}

def around (c : Config) (i : IndexedCache) : Cache := ⟨c.layers, .indexed i⟩

theorem add_around_eq (core : ClauseSet) :
    UnsatCache.add (c.around i) core =
      if c.accepts core then (c.around (i.add core).1, (i.add core).2) else (c.around i, []) := by
  cases hs : c.maxCoreSize with
  | none =>
    have ha : c.accepts core = true := by rw [accepts, hs]; rfl
    simp only [around, layers, hs, ha, if_true]
    rfl
  | some bound =>
    have ha : c.accepts core = decide (core.size ≤ bound.toNat) := by rw [accepts, hs]; rfl
    simp only [around, layers, hs, ha]
    by_cases hb : core.size ≤ bound.toNat
    · simp only [hb, decide_true, if_true, UnsatCache.add, Layered.addThrough, Layer.maxCoreSize,
        Option.toList, List.map_cons, List.map_nil]
    · simp only [hb, decide_false, if_false, UnsatCache.add, Layered.addThrough, Layer.maxCoreSize,
        Option.toList, List.map_cons, List.map_nil, Bool.false_eq_true]

theorem add_around (core : ClauseSet) :
    (UnsatCache.add (c.around i) core).1 = c.around (if c.accepts core then (i.add core).1 else i) := by
  rw [add_around_eq]
  split
  · rfl
  · rfl

theorem check_around (query : ClauseSet) (source : π) :
    UnsatCache.check (c.around i) query source = (i.check query source).map c.around := by
  cases hs : c.maxCoreSize with
  | none =>
    unfold around layers
    rw [hs]
    rfl
  | some bound =>
    unfold around layers
    rw [hs]
    rfl

theorem index_buildIndexed (c : Config) (index : Index) : (c.buildIndexed index).index = index := by
  unfold buildIndexed IndexedCache.index
  cases c.logCandidates <;> rfl

theorem Serves.built {index : Index} (h : c.index.build c.seed = .ok index) :
    Serves V c (c.buildIndexed index) [] := by
  have hi := c.index_buildIndexed index
  have hholds : (c.buildIndexed index).Holds V c.height [] :=
    IndexedCache.holds_built (h.trans (congrArg _ hi.symm)) _ _
  obtain ⟨-, rfl⟩ := IndexKind.build_cases h
  exact ⟨hholds, rfl, by rw [hi]⟩

theorem Serves.add (h : Serves V c i cores) (hc : ∀ t ∈ core.clauses, t ∈ V) :
    Serves V c (if c.accepts core then (i.add core).1 else i) (cores ++ [core]) := by
  have hf : (cores ++ [core]).filter c.accepts =
      cores.filter c.accepts ++ if c.accepts core then [core] else [] := by
    rw [List.filter_append, List.filter_cons, List.filter_nil]
  refine ⟨?_, ?_, ?_⟩
  · rw [hf]
    split
    · exact h.holds.add hc
    · rw [List.append_nil]
      exact h.holds
  · split
    · exact h.tester_eq
    · exact h.tester_eq
  · split
    · rw [IndexedCache.index_add]
      exact h.levels_eq
    · exact h.levels_eq

theorem Serves.check (h : Serves V c i cores) (hq : ∀ q ∈ query.clauses, q ∈ V) (source : π) :
    Serves V c (i.check query source).cache cores := by
  obtain ⟨hindex, htester⟩ := IndexedCache.check_unchanged i query source
  exact ⟨(h.holds.check hq source).1, htester.trans h.tester_eq, hindex ▸ h.levels_eq⟩

theorem Reached.serves (hm : c.mode = .enabled) (h : Reached V c cache cores) :
    ∃ i, cache = c.around i ∧ Serves V c i cores := by
  induction h with
  | built hb =>
    obtain ⟨index, hi, rfl⟩ := build_cases hm hb
    exact ⟨_, rfl, .built hi⟩
  | add _ hc ih =>
    obtain ⟨i, rfl, hi⟩ := ih
    exact ⟨_, add_around _, hi.add hc⟩
  | check source _ hq ih =>
    obtain ⟨i, rfl, hi⟩ := ih
    rw [check_around]
    exact ⟨_, rfl, hi.check hq source⟩

end Config

/-- The tester answers that the core matches, with hashers that have hashed nothing yet. -/
def Tester.Confirms (t : Tester) (m : Option Nat) (core query : ClauseSet) : Prop :=
  ((t.«matches» core query).run (.start (.ofMaxHeight m) ({} : Watch))).1 = .ok true

instance (t : Tester) (m : Option Nat) (core query : ClauseSet) : Decidable (t.Confirms m core query) :=
  inferInstanceAs (Decidable (_ = Except.ok true))

theorem Tester.confirms_iff {t : Tester} (hc : ∀ c ∈ core.clauses, c ∈ V)
    (hq : ∀ q ∈ query.clauses, q ∈ V) :
    t.Confirms m core query ↔ t.Admits core.clauses query.clauses := by
  obtain ⟨b, n, hn, hb⟩ := t.yields (π := Watch) (m := m) hc hq
  have hs := Work.sound_start query (Hasher.sound_ofMaxHeight V m) ({} : Watch)
  rw [← hb, Tester.Confirms, hn.ok_of_quiet hs (quiet_none 0), Except.ok.injEq]

/-- A check that is not interrupted answers. If the innermost level leaves none out by sampling, the
answer is true exactly if the tester confirms one of the cores that were added and kept; a true
answer always means that. Sums of heights that fit in words are all that is formed; if the bound and
two do not, the joining search never answers true without that sum. -/
theorem Config.Reached.check_iff {c : Config} (hm : c.mode = .enabled) {cache : Cache}
    (h : Reached V c cache cores) (hq : ∀ q ∈ query.clauses, q ∈ V) (source : π) :
    (Quiet source → ∃ b, (UnsatCache.check cache query source).answer = .ok b) ∧
      (c.index.innermost.OffersAll (cores.filter c.accepts).length →
        ∀ b, (UnsatCache.check cache query source).answer = .ok b →
          (b = true ↔ ∃ core ∈ cores, c.accepts core = true ∧ c.tester.Confirms c.height core query)) ∧
      ((UnsatCache.check cache query source).answer = .ok true →
        ∃ core ∈ cores, c.accepts core = true ∧ c.tester.Confirms c.height core query) ∧
      (V.Fits c.height → (UnsatCache.check cache query source).cache.base.overflowed = false) ∧
      ∀ k, c.height = some k → wordLimit ≤ k + 2 → c.tester = .fullOpt →
        (∀ core ∈ cores, core.clauses ≠ [] ∧ ∀ t ∈ core.clauses, t.height ≤ k + 1) →
        (UnsatCache.check cache query source).answer = .ok true →
        (UnsatCache.check cache query source).cache.base.overflowed = true := by
  obtain ⟨i, rfl, hi⟩ := h.serves hm
  obtain ⟨h1, h2, h3⟩ := hi.holds.check hq source
  rw [check_around]
  have hadmits : (∃ core ∈ cores.filter c.accepts, i.tester.Admits core.clauses query.clauses) ↔
      ∃ core ∈ cores, c.accepts core = true ∧ c.tester.Confirms c.height core query := by
    simp only [List.mem_filter, and_assoc]
    refine exists_congr fun core => and_congr_right fun hcore => and_congr_right fun ha => ?_
    rw [hi.tester_eq, Tester.confirms_iff (hi.holds.built core (List.mem_filter.mpr ⟨hcore, ha⟩)) hq]
  have hlevels : i.index.outermost.innermost i.index.inner = c.index.innermost := by
    rw [← c.index.innermost_levels, ← hi.levels_eq]
  rw [hadmits, hlevels] at h3
  refine ⟨h2, fun hroom b hb => ⟨(h3 b hb).1, (h3 b hb).2 hroom⟩, fun ht => (h3 true ht).1 rfl,
    fun hf => h1.hasher.calm hf, fun k hk hlimit ht hcores hr => ?_⟩
  have hholds := hi.holds
  rw [hk] at hholds
  exact hholds.overflowed_of_check hlimit (hi.tester_eq.trans ht) hq
    (fun core hc => hcores core (List.mem_filter.mp hc).1) hr

def Config.bloomOverList : Config where
  tester := .full
  index := .composite (.flat (.bloom 8)) (.flat .list)

def Config.highest : Config where
  maxHashHeight := some 18446744073709551615

theorem Config.Reached.check_mixed :
    (∃ cache, Reached .mixed .bloomOverList cache [.apart, .foreign, .together] ∧
      (cache.base.indexed?.map fun i => i.index.innerCount) = some 3 ∧
      .cacheHit "full" 2 2 ∈ (UnsatCache.check cache .mixed ({} : Watch)).events ∧
      (UnsatCache.check cache .mixed ({} : Watch)).answer = .ok true ∧
      (UnsatCache.check cache .mixed ({} : Watch)).cache.base.overflowed = false) ∧
      ∃ cache, Reached .mixed .highest cache [.apart, .foreign, .together] ∧
        (UnsatCache.check cache .mixed ({} : Watch)).cache.base.overflowed = true := by
  have hapart := Vocabulary.mem_mixed (s := .apart) (by simp)
  have hforeign := Vocabulary.mem_mixed (s := .foreign) (by simp)
  have htogether := Vocabulary.mem_mixed (s := .together) (by simp)
  have hq := Vocabulary.mem_mixed (s := .mixed) (by simp)
  have h1 : Reached .mixed .bloomOverList _ ([] ++ [.apart] ++ [.foreign] ++ [.together]) :=
    .add (.add (.add (.built rfl) hapart) hforeign) htogether
  have h2 : Reached .mixed .highest _ ([] ++ [.apart] ++ [.foreign] ++ [.together]) :=
    .add (.add (.add (.built rfl) hapart) hforeign) htogether
  have hmem : ClauseSet.together ∈ [] ++ [.apart] ++ [.foreign] ++ [.together] := by simp
  refine ⟨⟨_, h1, by decide +kernel, by decide +kernel, ?_⟩, _, h2, ?_⟩
  · obtain ⟨hok, hiff, -, hcalm, -⟩ := h1.check_iff rfl hq ({} : Watch)
    obtain ⟨b, hb⟩ := hok (quiet_none 0)
    have ht := (hiff trivial b hb).mpr ⟨_, hmem, rfl, by decide +kernel⟩
    exact ⟨ht ▸ hb, hcalm Vocabulary.mixed_fits⟩
  · obtain ⟨hok, hiff, -, -, hover⟩ := h2.check_iff rfl hq ({} : Watch)
    obtain ⟨b, hb⟩ := hok (quiet_none 0)
    have ht := (hiff trivial b hb).mpr ⟨_, hmem, rfl, by decide +kernel⟩
    exact hover 18446744073709551615 (by decide) (by decide) rfl (by decide) (ht ▸ hb)

theorem Config.highest_overflows :
    let c : Config := { Config.highest with tester := .full, index := .flat (.bloom 8) }
    let run := (c.tester.«matches» (.unary 0 "x") (.unary 2 "a")).run
      (.start (.ofMaxHeight c.height) ({} : Watch))
    c.tester.Confirms c.height (.unary 0 "x") (.unary 2 "a") ∧ run.2.coreAfter.overflowed = false ∧
      ∃ cache events, c.build = .ok (cache, events) ∧
        (UnsatCache.check (UnsatCache.add cache (.unary 0 "x")).1 (.unary 2 "a")
          ({} : Watch)).cache.base.overflowed = true :=
  ⟨by decide +kernel, by decide +kernel, _, _, rfl, by decide +kernel⟩

end CoreReuse
