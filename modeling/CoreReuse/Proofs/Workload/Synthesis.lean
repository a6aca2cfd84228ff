import CoreReuse.CommandLine
import CoreReuse.Proofs.Workload.Runs

namespace CoreReuse

variable {V : Vocabulary} {c : Config} {p : Pipeline Cache}

namespace Workload

attribute [ext] Tally

variable {w : Workload} {s m : Made} {limit : Nat}

theorem tells_family (hr : c.tester.Renames) (hw : 0 < w.coreSize)
    (hb : ∀ bound, c.maxCoreSize = some bound → w.coreSize ≤ bound.toNat)
    (hroom : c.index.innermost.OffersAll w.families) (hs : s.Fits w) (hm : m.Fits w) :
    Tells c Made.family w.families s m := by
  refine ⟨?_, fun _ => ⟨?_, hroom⟩⟩
  · rw [hr.admits_iff]
    exact ⟨fun ⟨τ, he⟩ => hs.family_eq_of_embeds hm hw he, hs.embeds hm⟩
  · rw [Config.accepts, Option.all_eq_true]
    intro bound hbound
    rw [hs.part_size]
    exact decide_eq_true (hb bound hbound)

theorem tells_query (ht : c.tester = .simple) (hw : 0 < w.coreSize) (hs : s.Fits w)
    (hm : m.Fits w) (hne : s.query ≠ m.query) : Tells c Made.query limit s m where
  admits_iff := by
    rw [ht]
    exact iff_of_false (fun h => hne (hs.query_eq_of_verbatim hm hw h)) hne
  offered h := absurd h hne

theorem Served.built {trace : List Trace.Event} {next : Nat} (h : c.buildPipeline next = .ok (p, trace))
    (ht : c.cacheTimeout = none) : Served V c p [] := by
  obtain ⟨-, -, htimeout, hcancellation⟩ := Pipeline.settings_of_buildPipeline h
  exact ⟨.built h, htimeout.trans ht, hcancellation⟩

end Workload

namespace CommandLine

open Workload

variable {key : Made → Nat} {limit : Nat} {ms : List Made} {o : SynthOptions} {stop : NodeId}

theorem runWorkload_spec (hm : c.mode = .enabled) (hf : V.Fits c.height) (h : Served V c p [])
    (hmade : make o.queries.toNat 0 (.ofSeed o.families.toNat o.coreSize.toNat o.noise.toNat o.seed) 0 =
      .ok (ms, stop))
    (hV : ∀ m ∈ ms, ∀ q ∈ m.whole.clauses, q ∈ V) (hs : ∀ m ∈ ms, m.part.clauses.Sublist m.whole.clauses)
    (hlt : ∀ m ∈ ms, key m < limit) (ht : ms.Pairwise (Tells c key limit)) (now : Nat) :
    ∃ t : Tally, t.solved = (keys key ms).card ∧ t.hits + t.solved = ms.length ∧
      runWorkload p now o = { text := summary o.queries t, timed := true } := by
  have hw : 0 < (Workload.ofSeed o.families.toNat o.coreSize.toNat o.noise.toNat o.seed).families :=
    Nat.lt_of_lt_of_le Nat.one_pos (Nat.le_max_right _ _)
  obtain ⟨t, hdecided, hsolved, hall⟩ := h.decideAll hm hf hV hs List.nodup_nil hlt ht now {}
  obtain ⟨stop', hrun⟩ := run_eq_decideAll hw hmade now p {}
  refine ⟨t, ?_, ?_, ?_⟩
  · simpa [keys] using hsolved
  · simpa using hall
  · rw [hdecided] at hrun
    simp only [runWorkload, hrun]

theorem synthesized_eq_runWorkload {trace : List Trace.Event} (hb : c.buildPipeline = .ok (p, trace))
    (now : Nat) (fits : Config → SynthOptions → Bool) (hp : predicates o < listLimit)
    (hfits : fits c o = true) : synthesized fits (.ok c) now o = runWorkload p now o := by
  have hlist : ¬ listLimit ≤ predicates o := Nat.not_le.mpr hp
  simp [synthesized, Except.bind, Except.map, hb, hlist, hfits]

theorem synthesized_exactly {trace : List Trace.Event} (hm : c.mode = .enabled)
    (hb : c.buildPipeline = .ok (p, trace)) (ht : c.cacheTimeout = none)
    (hh : ∀ k, c.height = some k → k + 2 < wordLimit) (o : SynthOptions) (now : Nat) :
    let w := Workload.ofSeed o.families.toNat o.coreSize.toNat o.noise.toNat o.seed
    ∃ ms stop, make o.queries.toNat 0 w 0 = .ok (ms, stop) ∧ ms.length = o.queries.toNat ∧
      (∀ m ∈ ms, m.Fits w ∧ m.whole.size = max o.coreSize.toNat 1 + o.noise.toNat ∧
        m.part.clauses.Sublist m.whole.clauses ∧
        ∀ timeout, ((scriptedSolver m.part).verdict m.whole timeout).1 = .unsat) ∧
      (c.tester.Renames →
        (∀ bound, c.maxCoreSize = some bound → max o.coreSize.toNat 1 ≤ bound.toNat) →
        c.index.innermost.OffersAll (max o.families.toNat 1) →
        ∃ t : Tally, t.solved = (ms.map Made.family).toFinset.card ∧ t.hits + t.solved = o.queries.toNat ∧
          runWorkload p now o = { text := summary o.queries t, timed := true }) ∧
      (c.tester = .simple →
        runWorkload p now o = { text := summary o.queries ⟨0, o.queries.toNat⟩, timed := true }) ∧
      ∀ fits : Config → SynthOptions → Bool, predicates o < listLimit → fits c o = true →
        synthesized fits (.ok c) now o = runWorkload p now o := by
  intro w
  have hfamilies : 0 < w.families := Nat.lt_of_lt_of_le Nat.one_pos (Nat.le_max_right _ _)
  have hsize : 0 < w.coreSize := Nat.lt_of_lt_of_le Nat.one_pos (Nat.le_max_right _ _)
  obtain ⟨ms, hmade, hfits, hqueries, hnum⟩ := make_spec o.queries.toNat w hfamilies 0 0
  have hlen : ms.length = o.queries.toNat := by
    simpa using congrArg List.length hqueries
  obtain ⟨V, hV, hf⟩ := exists_vocabulary hnum hfits
  have hs : ∀ m ∈ ms, m.part.clauses.Sublist m.whole.clauses := fun m hm => (hfits m hm).sublist
  have hserved : Served V c p [] := .built hb ht
  refine ⟨ms, _, hmade, hlen, fun m hm => ⟨hfits m hm, (hfits m hm).size_eq, hs m hm, fun timeout => ?_⟩,
    fun hr hbound hroom => ?_, fun hsimple => ?_, synthesized_eq_runWorkload hb now⟩
  · rw [scriptedSolver_verdict (hs m hm).length_le]
  · have htold : ms.Pairwise (Tells c Made.family w.families) :=
      List.pairwise_of_forall_mem_list fun s hs m hm =>
        tells_family hr hsize hbound hroom (hfits s hs) (hfits m hm)
    have hlt : ∀ m ∈ ms, m.family < w.families := fun m hm => (hfits m hm).family_lt
    rw [← hlen]
    exact runWorkload_spec hm (hf _ hh) hserved hmade hV hs hlt htold now
  · have hnodup : (ms.map Made.query).Nodup := hqueries ▸ List.nodup_range'
    have htold : ms.Pairwise (Tells c Made.query o.queries.toNat) :=
      (List.pairwise_map.mp hnodup).imp_of_mem fun hs hm hne =>
        tells_query hsimple hsize (hfits _ hs) (hfits _ hm) hne
    have hlt : ∀ m ∈ ms, m.query < o.queries.toNat := by
      intro m hm
      have hq : m.query ∈ List.range' 0 o.queries.toNat := hqueries ▸ List.mem_map_of_mem hm
      simpa using hq
    obtain ⟨t, hsolved, hall, hrun⟩ := runWorkload_spec hm (hf _ hh) hserved hmade hV hs hlt htold now
    have hcard : (keys Made.query ms).card = o.queries.toNat := by
      rw [keys, List.toFinset_card_of_nodup hnodup, List.length_map, hlen]
    rw [hcard] at hsolved
    have hhits : t.hits = 0 := by omega
    have ht : t = ⟨0, o.queries.toNat⟩ := Tally.ext hhits hsolved
    rw [hrun, ht]

def SynthOptions.few : SynthOptions where
  families := 2
  queries := 3
  coreSize := 1
  noise := 1

theorem synthesized_exactly_few :
    synthesized (fun _ _ => true) (.ok {}) 0 .few =
        { text := "3 queries: 1 cache hits, 2 solver calls", timed := true } ∧
      synthesized (fun _ _ => true) (.ok { tester := .simple }) 0 .few =
        { text := "3 queries: 0 cache hits, 3 solver calls", timed := true } := by
  have hh : ∀ k, ({} : Config).height = some k → k + 2 < wordLimit := by
    rintro _ ⟨⟩
    decide
  have hcount : (make 3 0 (.ofSeed 2 1 1 0) 0).toOption.map (fun r => (r.1.map Made.family).toFinset.card) =
      some 2 := by decide +kernel
  obtain ⟨ms, stop, hmade, -, -, hrenames, -, hrun⟩ :=
    synthesized_exactly (c := {}) rfl rfl rfl hh .few 0
  obtain ⟨-, -, -, -, -, -, hsimple, hrun'⟩ :=
    synthesized_exactly (c := { tester := .simple }) rfl rfl rfl hh .few 0
  obtain ⟨t, hsolved, hall, ht⟩ := hrenames (.inr rfl) nofun trivial
  refine ⟨?_, ?_⟩
  · have hmade : make 3 0 (.ofSeed 2 1 1 0) 0 = .ok (ms, stop) := hmade
    rw [hmade] at hcount
    have hsolved : t.solved = 2 := hsolved.trans (Option.some.inj hcount)
    have hall : t.hits + t.solved = 3 := hall
    have hhits : t.hits = 1 := by omega
    obtain rfl : t = ⟨1, 2⟩ := Tally.ext hhits hsolved
    rw [hrun _ (by decide) rfl, ht]
    decide +kernel
  · rw [hrun' _ (by decide) rfl, hsimple rfl]
    decide +kernel

theorem synthesized_overflows :
    Config.highest.mode = .enabled ∧ Config.highest.tester.Renames ∧ Config.highest.cacheTimeout = none ∧
      Config.highest.maxCoreSize = none ∧ Config.highest.index.innermost = .list ∧
      synthesized (fun _ _ => true) (.ok Config.highest) 0
          { families := 1, queries := 2, coreSize := 1, noise := 0 } = { code := some abortCode } :=
  ⟨rfl, .inr rfl, rfl, rfl, rfl, by decide +kernel⟩

end CommandLine

end CoreReuse
