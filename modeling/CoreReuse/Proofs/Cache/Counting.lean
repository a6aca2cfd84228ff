import CoreReuse.Proofs.Cache.Feeds
import CoreReuse.Proofs.Cache.Interruption
import Mathlib.Algebra.Ring.Nat

namespace CoreReuse

open Hash Search PollSource

theorem Counter.foldl_record (n : Counter) (rounds : List (List ClauseSet)) :
    rounds.foldl (fun n pulled => n.record pulled.length) n =
      ⟨n.checks + rounds.length, n.consumed + (rounds.map List.length).sum,
        rounds.getLast?.elim n.last List.length⟩ := by
  induction rounds generalizing n with
  | nil => rfl
  | cons pulled rounds ih =>
    rw [List.foldl_cons, ih, List.getLast?_cons]
    simp only [record, List.length_cons, List.map_cons, List.sum_cons, Option.elim_some, Nat.add_assoc,
      Nat.add_comm 1]
    cases rounds.getLast? <;> rfl

def Use.starts : Use → Bool
  | add _ => false
  | check _ answers => !answers 0

namespace IndexedCache

variable {π γ : Type} [PollSource π] {c : IndexedCache} {query : ClauseSet} {source : π} {n : Counter}

def counting (c : IndexedCache) (n : Counter) : IndexedCache :=
  { c with proposer := .counting c.proposer n }

def round? (c : IndexedCache) (f : Feed γ) (openAt : Key → γ) (query : ClauseSet) (source : π) :
    Option (Dropped γ π) :=
  match (c.begin query).run (.start c.core source) with
  | (.error _, _) => none
  | (.ok key, w) => some (f.testEach c.tester query (openAt key) w)

def plainRound? (c : IndexedCache) (query : ClauseSet) (source : π) :
    Option (Dropped (Cursor c.index.inner) π) :=
  c.round? c.index.feed c.index.cursor query source

def countedRound? (c : IndexedCache) (query : ClauseSet) (source : π) :
    Option (Dropped (Counted c.index.inner) π) :=
  c.round? c.index.countedFeed c.index.counted query source

theorem countedRound?_eq (c : IndexedCache) (query : ClauseSet) (source : π) :
    c.countedRound? query source = (c.plainRound? query source).map fun d =>
      ⟨d.answer, ⟨d.feed, d.pulled.length⟩, d.pulled, d.work⟩ := by
  unfold countedRound? plainRound? round?
  split
  · rfl
  · next key w _ =>
    have h := c.index.testEach_countedFeed c.tester query (c.index.cursor key) 0 w
    simp only [Nat.zero_add] at h
    exact congrArg some h

theorem check_eq (c : IndexedCache) (query : ClauseSet) (source : π) :
    let o := c.check query source
    o.cache = (c.plainRound? query source).elim c (fun d => { c with
        core := d.work.coreAfter
        proposer := (c.proposer.drop d.pulled.length).1 }) ∧
      o.answer = (c.plainRound? query source).elim (.error .interrupted) fun d =>
        d.answer.map Option.isSome := by
  rw [check_eq_index]
  unfold plainRound? round?
  rcases (c.begin query).run (.start c.core source) with ⟨_ | key, w⟩
  · exact ⟨rfl, rfl⟩
  · dsimp only
    rw [← c.index.feed_left_cursor, Feed.testAll_left, Nat.zero_add]
    exact ⟨rfl, rfl⟩

theorem begin_counting (c : IndexedCache) (n : Counter) (query : ClauseSet) (source : π) :
    ((c.counting n).begin query).run (.start (c.counting n).core source) =
      (c.begin query).run (.start c.core source) := by
  unfold begin
  rw [← (c.proposer.forwards_inner n).queryKey_eq]
  rfl

theorem offered_counting (c : IndexedCache) (n : Counter) (query : ClauseSet) (source : π) :
    (c.counting n).offered query source = c.offered query source := by
  unfold offered
  rw [begin_counting]
  rfl

theorem check_counting (c : IndexedCache) (n : Counter) (query : ClauseSet) (source : π) :
    let o := (c.counting n).check query source
    o.answer = (c.check query source).answer ∧ o.source = (c.check query source).source ∧
      o.cache = (c.check query source).cache.counting
        ((c.plainRound? query source).elim n fun d => n.record d.pulled.length) := by
  have hcandidates := (c.proposer.forwards_inner n).candidates_eq
  have hshown : ((c.counting n).check query source).answer = (c.check query source).answer ∧
      ((c.counting n).check query source).source = (c.check query source).source := by
    unfold check
    rw [begin_counting]
    simp only [counting, hcandidates]
    split
    · exact ⟨rfl, rfl⟩
    · exact ⟨rfl, rfl⟩
  refine ⟨hshown.1, hshown.2, ?_⟩
  rw [(check_eq (c.counting n) query source).1, (check_eq c query source).1]
  change Option.elim (c.plainRound? query source) _ _ = _
  cases c.plainRound? query source with
  | none => rfl
  | some d => rfl

def pulls (c : IndexedCache) : Use → Option (List ClauseSet)
  | .add _ => none
  | .check query answers => (c.plainRound? query (⟨answers, 0⟩ : PollStream)).map (·.pulled)

def rounds : IndexedCache → List Use → List (List ClauseSet)
  | _, [] => []
  | c, u :: us => (c.pulls u).toList ++ rounds (u.after c) us

theorem after_counting (c : IndexedCache) (n : Counter) (u : Use) :
    u.after (c.counting n) =
      (u.after c).counting ((c.pulls u).elim n fun pulled => n.record pulled.length) := by
  cases u with
  | add core => rfl
  | check query answers =>
    refine (check_counting c n query _).2.2.trans ?_
    simp only [pulls, Option.elim_map]
    rfl

theorem foldl_after_counting (c : IndexedCache) (n : Counter) (us : List Use) :
    us.foldl Use.after (c.counting n) = (us.foldl Use.after c).counting
      ((c.rounds us).foldl (fun n pulled => n.record pulled.length) n) := by
  induction us generalizing c n with
  | nil => rfl
  | cons u us ih =>
    rw [List.foldl_cons, after_counting, ih, List.foldl_cons, rounds, List.foldl_append]
    cases c.pulls u <;> rfl

variable {V : Vocabulary} {m : Option Nat} {cores : List ClauseSet} {us : List Use} {u : Use}

theorem begin_computes (hq : ∀ q ∈ query.clauses, q ∈ V) :
    Computes V m query (c.begin query : Search π Key)
      (Store.queryKeyOf c.index.outermost c.index.inner (query.hashes m)) 1 := by
  rw [begin_eq]
  exact Computes.bind (n := 1) (k := 0) computes_poll (Store.computes_queryKey hq)

theorem pollFor_one (source : π) : pollFor 1 source = PollSource.poll source := by
  rw [pollFor]
  rcases PollSource.poll source with ⟨_ | _, source⟩
  · rfl
  · rfl

theorem round?_cases (h : c.core.Sound V m) (hq : ∀ q ∈ query.clauses, q ∈ V) (source : π) :
    (PollSource.poll source).1 = true ∧ c.plainRound? query source = none ∨
      (PollSource.poll source).1 = false ∧ ∃ key, ∃ w : Work π, w.Sound V m query ∧
        c.index.feed.left (c.index.cursor key) = c.offered query source ∧
        c.plainRound? query source = some (c.index.feed.testEach c.tester query (c.index.cursor key) w) := by
  have hn := begin_computes (π := π) (c := c) (m := m) hq
  have hw := Work.sound_start query h source
  obtain ⟨h1, hs, -⟩ := hn _ hw
  have hstart : (Work.start c.core source).source = source := rfl
  rw [hstart, pollFor_one] at h1
  unfold plainRound? round?
  rcases hr : (c.begin query).run (.start c.core source) with ⟨x, w⟩
  rw [hr] at h1 hs
  cases hp : (PollSource.poll source).1 with
  | true =>
    rw [hp] at h1
    obtain rfl : x = .error .interrupted := h1
    exact .inl ⟨rfl, rfl⟩
  | false =>
    rw [hp] at h1
    obtain rfl : x = .ok _ := h1
    refine .inr ⟨rfl, _, w, hs, ?_, rfl⟩
    rw [offered, hr]
    exact c.index.feed_left_cursor _

theorem Holds.after (h : c.Holds V m cores) (hu : ∀ t ∈ u.terms, t ∈ V) :
    ∃ cores', (u.after c).Holds V m cores' := by
  cases u with
  | add core => exact ⟨_, h.add hu⟩
  | check query answers => exact ⟨_, (h.check hu _).1⟩

theorem Holds.foldl_after (h : c.Holds V m cores) (hus : ∀ u ∈ us, ∀ t ∈ u.terms, t ∈ V) :
    ∃ cores', (us.foldl Use.after c).Holds V m cores' := by
  induction us generalizing c cores with
  | nil => exact ⟨cores, h⟩
  | cons u us ih =>
    obtain ⟨hu, hus⟩ := List.forall_mem_cons.mp hus
    obtain ⟨_, h⟩ := h.after hu
    exact ih h hus

theorem Holds.length_pulls (h : c.Holds V m cores) (hu : ∀ t ∈ u.terms, t ∈ V) :
    (c.pulls u).toList.length = [u].countP Use.starts := by
  cases u with
  | add core => rfl
  | check query answers =>
    rcases round?_cases h.hasher hu (⟨answers, 0⟩ : PollStream) with ⟨hp, hr⟩ | ⟨hp, key, w, -, -, hr⟩
    · have ha : answers 0 = true := hp
      simp [pulls, hr, Use.starts, ha]
    · have ha : answers 0 = false := hp
      simp [pulls, hr, Use.starts, ha]

theorem Holds.length_rounds (h : c.Holds V m cores) (hus : ∀ u ∈ us, ∀ t ∈ u.terms, t ∈ V) :
    (c.rounds us).length = us.countP Use.starts := by
  induction us generalizing c cores with
  | nil => rfl
  | cons u us ih =>
    obtain ⟨hu, hus⟩ := List.forall_mem_cons.mp hus
    obtain ⟨_, h'⟩ := h.after hu
    rw [rounds, List.length_append, h.length_pulls hu, ih h' hus, ← List.countP_append]
    rfl

/-- A check of a cache that counts has all that it has without the count, and leaves the count as the
feed does that it drops. -/
structure Counts (m : Option Nat) (c : IndexedCache) (n n' : Counter) (query : ClauseSet) (source : π) :
    Prop where
  forwards : (c.counting n).proposer.Forwards c.proposer
  begin_eq : ((c.counting n).begin query).run (.start (c.counting n).core source) =
    (c.begin query).run (.start c.core source)
  offered_eq : (c.counting n).offered query source = c.offered query source
  answer_eq : ((c.counting n).check query source).answer = (c.check query source).answer
  source_eq : ((c.counting n).check query source).source = (c.check query source).source
  cache_eq : ((c.counting n).check query source).cache = (c.check query source).cache.counting n'
  stopped : (PollSource.poll source).1 = true →
    n' = n ∧ (c.check query source).answer = .error .interrupted
  dropped : (PollSource.poll source).1 = false → ∃ d d', c.plainRound? query source = some d ∧
    (c.counting n).countedRound? query source = some d' ∧ d'.answer = d.answer ∧ d'.pulled = d.pulled ∧
    d.pulled ++ c.index.feed.left d.feed = c.offered query source ∧
    d'.feed.consumed = d.pulled.length ∧ n' = d'.feed.close n
  hit : (c.check query source).answer = .ok true →
    n'.last = (c.offered query source).findIdx (fun core => c.tester.Confirms m core query) + 1 ∧
    n'.last ≤ (c.offered query source).length
  miss : (c.check query source).answer = .ok false →
    n'.last = (c.offered query source).length ∧
    ∀ core ∈ c.offered query source, ¬ c.tester.Confirms m core query

theorem Holds.counts (h : c.Holds V m cores) (hq : ∀ q ∈ query.clauses, q ∈ V) (n : Counter) (source : π) :
    ∃ n', Counts m c n n' query source := by
  obtain ⟨h1, h2, h3⟩ := check_counting c n query source
  have hanswer := (check_eq c query source).2
  have hforwards := c.proposer.forwards_inner n
  have hbegin := begin_counting c n query source
  have hoffered := offered_counting c n query source
  rcases round?_cases h.hasher hq source with ⟨hp, hr⟩ | ⟨hp, key, w, hw, hleft, hr⟩
  · rw [hr] at h3 hanswer
    refine ⟨n, hforwards, hbegin, hoffered, h1, h2, h3, fun _ => ⟨rfl, hanswer⟩, fun hp' => ?_,
      fun ha => ?_, fun ha => ?_⟩
    · cases hp.symm.trans hp'
    · cases hanswer.symm.trans ha
    · cases hanswer.symm.trans ha
  · have hcounted := (countedRound?_eq (c.counting n) query source).trans (congrArg _ hr)
    have hc : ∀ core ∈ c.index.feed.left (c.index.cursor key), ∀ t ∈ core.clauses, t ∈ V := by
      rw [Index.feed_left_cursor]
      exact fun core hcore => h.built core (h.candidates key core hcore)
    have hpulled := c.index.feed.pulled_append_left c.tester query (c.index.cursor key) w
    obtain ⟨hhit, hmiss⟩ := Feed.testEach_first (t := c.tester)
      (p := fun core => c.tester.Confirms m core query) hq (c.index.cursor key) hc
      (fun core hcore => decide_eq_true_iff.trans (Tester.confirms_iff (hc core hcore) hq)) hw
    rw [hr] at h3 hanswer
    rw [hleft] at hpulled hhit hmiss
    refine ⟨_, hforwards, hbegin, hoffered, h1, h2, h3, fun hp' => ?_,
      fun _ => ⟨_, _, hr, hcounted, rfl, rfl, hpulled, rfl, rfl⟩, fun ha => ?_, fun ha => ?_⟩
    · cases hp.symm.trans hp'
    · obtain ⟨_, hd, hsome⟩ := exists_of_map_isSome (r := ⟨_, 0, w⟩) (hanswer.symm.trans ha)
      obtain ⟨core, rfl⟩ := Option.isSome_iff_exists.mp hsome
      exact hhit core hd
    · obtain ⟨_ | _, hd, hnone⟩ := exists_of_map_isSome (r := ⟨_, 0, w⟩) (hanswer.symm.trans ha)
      · obtain ⟨hall, hnot⟩ := hmiss hd
        exact ⟨hall, fun core hcore hconf => hnot core hcore (decide_eq_true hconf)⟩
      · cases hnone

/-- After any additions and checks the count is of the checks whose first poll did not fire, and of the
candidates that these took. Nothing else tells a cache that counts from one that does not. -/
theorem counts_exactly {kind : IndexKind} {seed : UInt64} {p : CandidateIndex}
    (hb : kind.build seed = .ok p.index) (t : Tester) (m : Option Nat)
    (hus : ∀ u ∈ us, ∀ t ∈ u.terms, t ∈ V) :
    let start : IndexedCache := ⟨.ofMaxHeight m, p, t⟩
    let plain := us.foldl Use.after start
    ∃ n : Counter, us.foldl Use.after (start.counting {}) = plain.counting n ∧
      n.checks = us.countP Use.starts ∧ n.checks = (start.rounds us).length ∧
      n.consumed = ((start.rounds us).map List.length).sum ∧
      n.last = (start.rounds us).getLast?.elim 0 List.length ∧
      ∀ (π : Type) [PollSource π] (query : ClauseSet) (source : π), (∀ q ∈ query.clauses, q ∈ V) →
        (∃ n', Counts m plain n n' query source) ∧
        (V.Fits m → ((plain.counting n).check query source).cache.core.overflowed = false) := by
  intro start plain
  have hstart : start.Holds V m [] := holds_built hb t m
  obtain ⟨cores, hplain⟩ := hstart.foldl_after hus
  have hcount := Counter.foldl_record {} (start.rounds us)
  simp only [Nat.zero_add] at hcount
  refine ⟨_, (foldl_after_counting start {} us).trans (congrArg _ hcount), hstart.length_rounds hus, rfl,
    rfl, rfl, fun π _ query source hq => ⟨hplain.counts hq _ source, fun hf => ?_⟩⟩
  obtain ⟨-, -, hcache⟩ := check_counting plain _ query source
  rw [hcache]
  exact (hplain.check hq source).1.hasher.calm hf

theorem counts_exactly_unary :
    ∃ index, (IndexKind.composite (.flat (.bloom 8)) (.flat .list)).build 42 = .ok index ∧
      let us := [Use.add (.unary 0 "x"), .check (.unary 2 "a") fun _ => true, .check (.unary 2 "a") (· == 1)]
      let start : IndexedCache := ⟨.ofMaxHeight (some 7), .plain index, .full⟩
      let plain := us.foldl Use.after start
      ∃ n n', us.foldl Use.after (start.counting {}) = plain.counting n ∧ n.checks = 1 ∧
        Counts (some 7) plain n n' (.unary 2 "a") ({} : Watch) ∧ n'.last = 1 ∧
        ((plain.counting n).check (.unary 2 "a") ({} : Watch)).cache.core.overflowed = false := by
  have hb : (IndexKind.composite (.flat (.bloom 8)) (.flat .list)).build 42 =
    .ok ⟨42, .bloom 8, [.list], .empty [.list]⟩ := rfl
  refine ⟨_, hb, ?_⟩
  intro us
  have hq := Vocabulary.mem_unaries_query
  have hus : ∀ u ∈ us, ∀ t ∈ u.terms, t ∈ Vocabulary.unaries := by
    simpa [us] using ⟨Vocabulary.mem_unaries_core, hq, hq⟩
  obtain ⟨n, hn, hchecks, -, -, -, hrest⟩ := counts_exactly (p := .plain _) hb .full (some 7) hus
  obtain ⟨⟨n', hcounts⟩, hcalm⟩ := hrest Watch (.unary 2 "a") {} hq
  obtain ⟨hlast, -⟩ := hcounts.hit (by decide +kernel)
  refine ⟨n, n', hn, hchecks, hcounts, hlast.trans ?_, hcalm Vocabulary.unaries_fits⟩
  decide +kernel

theorem counted_query_overflows :
    ∃ index, (IndexKind.flat (.bloom 8)).build 42 = .ok index ∧
      let twice : ClauseSet := ⟨[.unary 0 "x", .unary 0 "x"],
        List.forall_mem_cons.mpr ⟨rfl, List.forall_mem_singleton.mpr rfl⟩⟩
      let c : IndexedCache := ⟨.ofMaxHeight (some (wordLimit - 1)), .counting (.plain index) {}, .full⟩
      (PollSource.poll ({} : Watch)).1 = false ∧
        ((c.begin twice).run (.start c.core ({} : Watch))).2.query.overflowed = true :=
  ⟨_, rfl, rfl, by decide +kernel⟩

end IndexedCache

end CoreReuse
