import CoreReuse.Proofs.Cache.Invariance
import CoreReuse.Proofs.Cache.Twins
import Mathlib.Data.Nat.Find

namespace CoreReuse

open Hash Search PollSource

namespace PollStream

variable {b : Nat → Bool} {n k : Nat}

theorem pollFor_succ : pollFor (n + 1) (⟨b, k⟩ : PollStream) =
    bif b k then (true, ⟨b, k + 1⟩) else pollFor n ⟨b, k + 1⟩ := by
  have hp : PollSource.poll (⟨b, k⟩ : PollStream) = (b k, ⟨b, k + 1⟩) := rfl
  rw [pollFor, hp]
  cases b k <;> rfl

theorem pollFor_of_forall (h : ∀ i < n, b (k + i) = false) :
    pollFor n (⟨b, k⟩ : PollStream) = (false, ⟨b, k + n⟩) := by
  induction n generalizing k with
  | zero => rfl
  | succ n ih =>
    have h0 : b k = false := h 0 (Nat.succ_pos n)
    rw [pollFor_succ, h0, cond_false, ih, Nat.add_right_comm, Nat.add_assoc]
    intro i hi
    rw [Nat.add_right_comm, Nat.add_assoc]
    exact h (i + 1) (by omega)

theorem pollFor_of_first {i : Nat} (hi : i < n) (hb : b (k + i) = true)
    (hf : ∀ j < i, b (k + j) = false) : pollFor n (⟨b, k⟩ : PollStream) = (true, ⟨b, k + i + 1⟩) := by
  obtain ⟨r, rfl⟩ : ∃ r, n = i + (r + 1) := ⟨n - i - 1, by omega⟩
  rw [pollFor_add, pollFor_of_forall hf]
  dsimp only
  rw [pollFor_succ, hb, cond_true]

end PollStream

/-- What a run does with the answers that its polls have: it is interrupted exactly if one of the
first so many is true, and polls no further than the first of these; otherwise it polls so often, and
the outcome is this one. -/
structure Interruptible {α : Type} (run : (Nat → Bool) → Except Interrupted α × Nat) (a : α) (n : Nat) :
    Prop where
  interrupted_iff : ∀ b, (run b).1 = .error .interrupted ↔ ∃ i < n, b i = true
  stops : ∀ b i, i < n → b i = true → (∀ j < i, b j = false) → (run b).2 = i + 1
  completes : ∀ b, (∀ i < n, b i = false) → run b = (.ok a, n)

theorem interruptible_of_pollFor {α : Type} {run : (Nat → Bool) → Except Interrupted α × Nat} {a : α}
    {n : Nat} (h : ∀ b, run b = (bif (pollFor n (⟨b, 0⟩ : PollStream)).1 then .error .interrupted
      else .ok a, (pollFor n (⟨b, 0⟩ : PollStream)).2.polls)) : Interruptible run a n := by
  have hfirst : ∀ b i, i < n → b i = true → (∀ j < i, b j = false) →
      run b = (.error .interrupted, i + 1) := by
    intro b i hi hb hf
    have hp := PollStream.pollFor_of_first (k := 0) hi (by simpa using hb) (by simpa using hf)
    rw [h, hp]
    simp
  have hnone : ∀ b, (∀ i < n, b i = false) → run b = (.ok a, n) := by
    intro b hb
    have hp := PollStream.pollFor_of_forall (n := n) (k := 0) (by simpa using hb)
    rw [h, hp]
    simp
  refine ⟨fun b => ⟨fun he => ?_, ?_⟩, fun b i hi hb hf => by rw [hfirst b i hi hb hf], hnone⟩
  · by_contra hn
    have hb : ∀ i < n, b i = false := by
      intro i hi
      by_contra ht
      exact hn ⟨i, hi, by simpa using ht⟩
    rw [hnone b hb] at he
    cases he
  · intro hex
    obtain ⟨hi, hb⟩ := Nat.find_spec hex
    have hf : ∀ j < Nat.find hex, b j = false := by
      intro j hj
      have := Nat.find_min hex hj
      by_contra ht
      exact this ⟨by omega, by simpa using ht⟩
    rw [hfirst b _ hi hb hf]

variable {V : Vocabulary} {m : Option Nat} {core query : ClauseSet} {cores : List ClauseSet}

def Search.polled {α : Type} (s : Search PollStream α) (w : Work PollStream) (answers : Nat → Bool) :
    Except Interrupted α × Nat :=
  let r := s.run { w with source := ⟨answers, 0⟩ }
  (r.1, r.2.source.polls)

theorem Search.Computes.interruptible {α : Type} {s : Search PollStream α} {a : α} {n : Nat}
    (h : Computes V m query s a n) {w : Work PollStream} (hw : w.Sound V m query) :
    Interruptible (Search.polled s w) a n := by
  apply interruptible_of_pollFor
  intro b
  obtain ⟨h1, -, h2⟩ := h { w with source := ⟨b, 0⟩ } ⟨hw.hashes, hw.buckets, hw.core, hw.query⟩
  exact Prod.ext h1 (congrArg PollStream.polls h2)

namespace IndexedCache

variable {π : Type} [PollSource π]

theorem testAll_computes (t : Tester) (hc : ∀ core ∈ cores, ∀ c ∈ core.clauses, c ∈ V)
    (hq : ∀ q ∈ query.clauses, q ∈ V) :
    ∃ hit k, ∀ (n : Nat) (w : Work π), w.Sound V m query →
      (testAll t query cores n w).answer =
        (bif (pollFor k w.source).1 then .error .interrupted else .ok hit) ∧
      (testAll t query cores n w).work.source = (pollFor k w.source).2 := by
  induction cores with
  | nil => exact ⟨none, 0, fun n w hw => ⟨rfl, rfl⟩⟩
  | cons core cores ih =>
    obtain ⟨hcore, hcores⟩ := List.forall_mem_cons.mp hc
    obtain ⟨b, k, hk, -⟩ := test_yields (π := π) (t := t) (m := m) hcore hq
    obtain ⟨hit, k', hrest⟩ := ih hcores
    cases b with
    | true =>
      refine ⟨some core, k, fun n w hw => ?_⟩
      obtain ⟨h1, -, h2⟩ := hk w hw
      rw [testAll]
      rcases hr : (test t query core).run w with ⟨x, v⟩
      rcases hp : pollFor k w.source with ⟨_ | _, p⟩ <;> rw [hr, hp] at h1 h2
      · obtain rfl : x = .ok true := h1
        exact ⟨rfl, h2⟩
      · obtain rfl : x = .error .interrupted := h1
        exact ⟨rfl, h2⟩
    | false =>
      refine ⟨hit, k + k', fun n w hw => ?_⟩
      obtain ⟨h1, hs, h2⟩ := hk w hw
      rw [testAll, pollFor_add]
      rcases hr : (test t query core).run w with ⟨x, v⟩
      rcases hp : pollFor k w.source with ⟨_ | _, p⟩ <;> rw [hr, hp] at h1 h2 <;> rw [hr] at hs
      · obtain rfl : x = .ok false := h1
        obtain rfl : v.source = p := h2
        exact hrest (n + 1) v hs
      · obtain rfl : x = .error .interrupted := h1
        exact ⟨rfl, h2⟩

theorem Holds.check_computes {c : IndexedCache} (h : c.Holds V m cores) (hq : ∀ q ∈ query.clauses, q ∈ V) :
    ∃ a n, ∀ source : π,
      (c.check query source).answer = (bif (pollFor n source).1 then .error .interrupted else .ok a) ∧
      (c.check query source).source = (pollFor n source).2 := by
  obtain ⟨key, n, hn, -⟩ := begin_yields (π := π) (c := c) (m := m) hq
  have hc : ∀ core ∈ c.index.candidates key, ∀ t ∈ core.clauses, t ∈ V :=
    fun core hm => h.built core (h.candidates key core hm)
  obtain ⟨hit, k, hround⟩ := testAll_computes (π := π) (m := m) c.tester hc hq
  refine ⟨hit.isSome, n + k, fun source => ?_⟩
  have hstart : (Work.start c.core source).source = source := rfl
  obtain ⟨h1, hs, h2⟩ := hn _ (Work.sound_start query h.hasher source)
  rw [hstart] at h1 h2
  rw [check_eq_index, pollFor_add]
  rcases hr : (c.begin query).run (.start c.core source) with ⟨x, w⟩
  rcases hp : pollFor n source with ⟨_ | _, p⟩ <;> rw [hr, hp] at h1 h2 <;> rw [hr] at hs
  · obtain rfl : x = .ok key := h1
    obtain rfl : w.source = p := h2
    obtain ⟨h3, h4⟩ := hround 0 w hs
    refine ⟨?_, h4⟩
    change Except.map Option.isSome _ = _
    rw [h3]
    cases (pollFor k w.source).1 <;> rfl
  · obtain rfl : x = .error .interrupted := h1
    exact ⟨rfl, h2⟩

end IndexedCache

namespace Config

variable {c : Config} {cache : Cache}

def polled (cache : Cache) (query : ClauseSet) (answers : Nat → Bool) : Except Interrupted Bool × Nat :=
  let o := UnsatCache.check cache query (⟨answers, 0⟩ : PollStream)
  (o.answer, o.source.polls)

theorem Reached.exists_interruptible (hm : c.mode = .enabled) (h : Reached V c cache cores)
    (hq : ∀ q ∈ query.clauses, q ∈ V) : ∃ a n, Interruptible (Config.polled cache query) a n := by
  obtain ⟨i, rfl, hi⟩ := h.serves hm
  obtain ⟨a, n, hn⟩ := hi.holds.check_computes (π := PollStream) hq
  refine ⟨a, n, interruptible_of_pollFor fun b => ?_⟩
  obtain ⟨h1, h2⟩ := hn ⟨b, 0⟩
  unfold Config.polled
  rw [check_around]
  exact Prod.ext h1 (congrArg PollStream.polls h2)

theorem Twins.polled_eq {cache' : Cache} (h : Twins V c cache cache')
    (hq : ∀ q ∈ query.clauses, q ∈ V) : Config.polled cache query = Config.polled cache' query := by
  funext b
  have hs := Seen.checked.inj (h.on (u := .check query b) hq).1
  exact Prod.ext (congrArg (·.answer) hs) (congrArg (·.source.polls) hs)

def stored (cache : Cache) : Option Index := cache.base.indexed?.map IndexedCache.index

theorem Reached.stored_check {π : Type} [PollSource π] (hm : c.mode = .enabled)
    (h : Reached V c cache cores) (query : ClauseSet) (source : π) :
    stored (UnsatCache.check cache query source).cache = stored cache := by
  obtain ⟨i, rfl, -⟩ := h.serves hm
  rw [check_around]
  exact congrArg some (IndexedCache.check_unchanged i query source).1

/-- The matchers and the check are interrupted exactly, after whatever the hashers have seen. A check,
interrupted or not, leaves the stored cores as they are, and what is done with the cache next shows
the same as if it had not taken place. Sums of heights that fit in words are all that is formed. -/
theorem interrupted_exactly (hq : ∀ q ∈ query.clauses, q ∈ V) :
    (∀ (t : Tester) (m : Option Nat) (core : ClauseSet), (∀ c ∈ core.clauses, c ∈ V) →
      ∃ a n, ∀ w : Work PollStream, w.Sound V m query →
        Interruptible (Search.polled (t.«matches» core query) w) a n) ∧
    ∀ (c : Config) (cores : List ClauseSet), c.mode = .enabled →
      (∃ a n, ∀ cache, Reached V c cache cores → Interruptible (Config.polled cache query) a n) ∧
      ∀ cache, Reached V c cache cores → ∀ b : Nat → Bool,
        let after := (UnsatCache.check cache query (⟨b, 0⟩ : PollStream)).cache
        stored after = stored cache ∧
        ∀ us : List Use, (∀ u ∈ us, ∀ t ∈ u.terms, t ∈ V) →
          (Use.run after us).1 = (Use.run cache us).1 ∧
          (V.Fits c.height → (Use.run after us).2.base.overflowed = false) := by
  refine ⟨fun t m core hc => ?_, fun c cores hm => ⟨?_, fun cache h b => ⟨?_, fun us hus => ?_⟩⟩⟩
  · obtain ⟨a, n, hn, -⟩ := t.yields (π := PollStream) (m := m) hc hq
    exact ⟨a, n, fun w hw => hn.interruptible hw⟩
  · by_cases hex : ∃ cache, Reached V c cache cores
    · obtain ⟨cache, h⟩ := hex
      obtain ⟨a, n, hn⟩ := h.exists_interruptible hm hq
      exact ⟨a, n, fun cache' h' => (h'.twins hm h).polled_eq hq ▸ hn⟩
    · exact ⟨true, 0, fun cache h => absurd ⟨cache, h⟩ hex⟩
  · exact h.stored_check hm query _
  · have h' := h.check (⟨b, 0⟩ : PollStream) hq
    obtain ⟨hshown, hafter⟩ := (h'.twins hm h).run hus
    exact ⟨hshown, hafter.calm⟩

theorem interrupted_exactly_unary :
    ∃ cache, Reached .unaries .bloomOverList cache [.unary 0 "x"] ∧
      Interruptible (Config.polled cache (.unary 2 "a")) true 3 ∧
      (Config.polled cache (.unary 2 "a") (· == 2)).1 = .error .interrupted ∧
      let after := (UnsatCache.check cache (.unary 2 "a") (⟨(· == 2), 0⟩ : PollStream)).cache
      let again := [Use.check (.unary 2 "a") fun _ => false]
      stored after = stored cache ∧ (Use.run after again).1 = (Use.run cache again).1 ∧
        (Use.run after again).2.base.overflowed = false := by
  have hq := Vocabulary.mem_unaries_query
  have h : Reached .unaries .bloomOverList _ ([] ++ [.unary 0 "x"]) :=
    .add (.built rfl) Vocabulary.mem_unaries_core
  refine ⟨_, h, ?_⟩
  obtain ⟨⟨a, n, hn⟩, htrace⟩ := (interrupted_exactly hq).2 .bloomOverList [.unary 0 "x"] rfl
  have hquiet := (hn _ h).completes (fun _ => false) fun _ _ => rfl
  have hrun := hquiet.symm.trans (show _ = (Except.ok true, 3) by decide +kernel)
  obtain ⟨ha, rfl⟩ := Prod.mk.inj hrun
  obtain rfl := Except.ok.inj ha
  obtain ⟨hstored, hafter⟩ := htrace _ h (· == 2)
  have hagain : ∀ u ∈ [Use.check (.unary 2 "a") fun _ => false], ∀ t ∈ u.terms, t ∈ Vocabulary.unaries :=
    List.forall_mem_singleton.mpr hq
  obtain ⟨hshown, hcalm⟩ := hafter _ hagain
  exact ⟨hn _ h, ((hn _ h).interrupted_iff (· == 2)).mpr ⟨2, by decide, rfl⟩, hstored, hshown,
    hcalm Vocabulary.unaries_fits⟩

theorem interrupted_overflows :
    ∃ cache events, { Config.highest with tester := .full }.build = .ok (cache, events) ∧
      let added := (UnsatCache.add cache (.unary 0 "x")).1
      let cut := UnsatCache.check added (.bothUnary "q" "r" "a") (⟨(· == 3), 0⟩ : PollStream)
      cut.answer = .error .interrupted ∧ cut.cache.base.overflowed = false ∧
        (UnsatCache.check added (.unary 6 "a") ({} : Watch)).answer = .ok true ∧
        (UnsatCache.check added (.unary 6 "a") ({} : Watch)).cache.base.overflowed = false ∧
        (UnsatCache.check cut.cache (.unary 6 "a") ({} : Watch)).cache.base.overflowed = true :=
  ⟨_, _, rfl, by decide +kernel, by decide +kernel, by decide +kernel, by decide +kernel,
    by decide +kernel⟩

end Config

end CoreReuse
