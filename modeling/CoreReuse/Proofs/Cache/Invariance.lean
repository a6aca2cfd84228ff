import CoreReuse.Proofs.Cache.Contents
import CoreReuse.Proofs.Index.Parallel

namespace CoreReuse

open Hash Search PollSource

variable {π ξ : Type} [PollSource π] [PollSource ξ] {V W : Vocabulary} {m : Option Nat} {t : Tester}
variable {query query' : ClauseSet} {cores cores' : List ClauseSet} {source : π} {source' : ξ}

namespace IndexedCache

theorem testAll_parallel {R : ClauseSet → ClauseSet → Prop} {n : Nat} {w : Work π} {w' : Work ξ}
    (h : List.Forall₂ (fun d d' => R d d' ∧
      (t.Admits d.clauses query.clauses ↔ t.Admits d'.clauses query'.clauses)) cores cores')
    (hc : ∀ core ∈ cores, ∀ c ∈ core.clauses, c ∈ V) (hc' : ∀ core ∈ cores', ∀ c ∈ core.clauses, c ∈ W)
    (hq : ∀ q ∈ query.clauses, q ∈ V) (hq' : ∀ q ∈ query'.clauses, q ∈ W)
    (hw : w.Sound V m query) (hw' : w'.Sound W m query') (hs : Quiet w.source) (hs' : Quiet w'.source) :
    ∃ hit hit', (testAll t query cores n w).answer = .ok hit ∧
      (testAll t query' cores' n w').answer = .ok hit' ∧ Option.Rel R hit hit' ∧
      (testAll t query cores n w).consumed = (testAll t query' cores' n w').consumed := by
  induction h generalizing n w w' with
  | nil => exact ⟨none, none, rfl, rfl, .none, rfl⟩
  | @cons d d' cores cores' hd _ ih =>
    obtain ⟨hR, hiff⟩ := hd
    obtain ⟨hcore, hcores⟩ := List.forall_mem_cons.mp hc
    obtain ⟨hcore', hcores'⟩ := List.forall_mem_cons.mp hc'
    obtain ⟨b, k, hk, hb⟩ := test_yields (π := π) (t := t) (m := m) hcore hq
    obtain ⟨b', k', hk', hb'⟩ := test_yields (π := ξ) (t := t) (m := m) hcore' hq'
    -- Both tests end, and with the same answer.
    have hbb : b = b' := by rw [Bool.eq_iff_iff, hb, hb', hiff]
    have hr := hk.ok_of_quiet hw hs
    have hr' := hk'.ok_of_quiet hw' hs'
    have hsound := (hk w hw).2.1
    have hsound' := (hk' w' hw').2.1
    have hquiet := hk.quiet hw hs
    have hquiet' := hk'.quiet hw' hs'
    simp only [testAll]
    rcases hrun : (test t query d).run w with ⟨x, v⟩
    rcases hrun' : (test t query' d').run w' with ⟨x', v'⟩
    rw [hrun] at hr hsound hquiet
    rw [hrun'] at hr' hsound' hquiet'
    obtain rfl : x = .ok b := hr
    obtain rfl : x' = .ok b := hbb ▸ hr'
    cases b with
    | true => exact ⟨some d, some d', rfl, rfl, .some hR, rfl⟩
    | false => exact ih hcores hcores' hsound hsound' hquiet hquiet'

def offered (c : IndexedCache) (query : ClauseSet) (source : π) : List ClauseSet :=
  match (c.begin query).run (.start c.core source) with
  | (.ok key, _) => c.index.candidates key
  | (.error _, _) => []

variable {c : IndexedCache}

theorem offered_eq (hq : ∀ q ∈ query.clauses, q ∈ V) (h : c.core.Sound V m) (hs : Quiet source) :
    c.offered query source = c.index.candidates
      (Store.queryKeyOf c.index.outermost c.index.inner (query.hashes m)) := by
  have hw := Work.sound_start query h source
  obtain ⟨key, n, hn, rfl⟩ := begin_yields (π := π) (c := c) (m := m) hq
  have hok := hn.ok_of_quiet hw hs
  unfold offered
  rcases hr : (c.begin query).run (.start c.core source) with ⟨x, w⟩
  rw [hr] at hok
  obtain rfl : x = .ok _ := hok
  rfl

theorem Holds.mem_of_mem_offered (h : c.Holds V m cores) (hq : ∀ q ∈ query.clauses, q ∈ V)
    (hs : Quiet source) : ∀ core ∈ c.offered query source, ∀ t ∈ core.clauses, t ∈ V := by
  rw [offered_eq hq h.hasher hs]
  exact fun core hc => h.built core (h.candidates _ core hc)

theorem check_parallel {R : ClauseSet → ClauseSet → Prop} {c' : IndexedCache}
    (ht : c'.tester = c.tester) (h : c.core.Sound V m) (h' : c'.core.Sound W m)
    (hq : ∀ q ∈ query.clauses, q ∈ V) (hq' : ∀ q ∈ query'.clauses, q ∈ W)
    (hc : ∀ core ∈ c.offered query source, ∀ t ∈ core.clauses, t ∈ V)
    (hc' : ∀ core ∈ c'.offered query' source', ∀ t ∈ core.clauses, t ∈ W)
    (hcores : List.Forall₂ (fun d d' => R d d' ∧
      (c.tester.Admits d.clauses query.clauses ↔ c.tester.Admits d'.clauses query'.clauses))
      (c.offered query source) (c'.offered query' source'))
    (hs : Quiet source) (hs' : Quiet source') :
    ∃ b, (c.check query source).answer = .ok b ∧ (c'.check query' source').answer = .ok b := by
  rw [offered_eq hq h hs] at hc hcores
  rw [offered_eq hq' h' hs'] at hc' hcores
  rcases check_cases hq h source with ⟨hn, -⟩ | ⟨w, hw, hquiet, -, hanswer⟩
  · exact absurd hs hn
  rcases check_cases hq' h' source' with ⟨hn, -⟩ | ⟨w', hw', hquiet', -, hanswer'⟩
  · exact absurd hs' hn
  obtain ⟨hit, hit', hhit, hhit', hrel, -⟩ := testAll_parallel (n := 0) hcores hc hc' hq hq' hw hw'
    (hquiet hs) (hquiet' hs')
  refine ⟨hit.isSome, by rw [hanswer, hhit]; rfl, ?_⟩
  rw [hanswer', ht, hhit']
  cases hrel with
  | some _ => rfl
  | none => rfl

end IndexedCache

namespace Config

variable {c : Config} {cache cache' : Cache}

open ClauseSet

theorem filter_accepts_variants (h : List.Forall₂ Variant cores cores') :
    List.Forall₂ (fun d d' => (d'.hashes m).Perm (d.hashes m) ∧ Variant d d' ∧ (d, d') ∈ cores.zip cores')
      (cores.filter c.accepts) (cores'.filter c.accepts) := by
  have hall : List.Forall₂ (fun d d' => (d'.hashes m).Perm (d.hashes m) ∧ Variant d d' ∧
      (d, d') ∈ cores.zip cores') cores cores' := by
    obtain ⟨hlen, hzip⟩ := List.forall₂_iff_zip.mp h
    exact List.forall₂_iff_zip.mpr ⟨hlen, fun hd => ⟨(hzip hd).hashes_perm m, hzip hd, hd⟩⟩
  apply List.rel_filter _ hall
  rintro d d' ⟨-, hd, -⟩
  have hsize : c.accepts d' = c.accepts d := by
    unfold accepts
    rw [hd.size_eq]
  exact iff_of_eq (congrArg (· = true) hsize.symm)

theorem candidates_filled_variants (h : List.Forall₂ Variant cores cores')
    (hquery : Variant query query') :
    List.Forall₂ (fun d d' => Variant d d' ∧ (d, d') ∈ cores.zip cores')
      ((c.filled cores).candidates
        (Store.queryKeyOf c.index.levels.1 c.index.levels.2 (query.hashes c.height)))
      ((c.filled cores').candidates
        (Store.queryKeyOf c.index.levels.1 c.index.levels.2 (query'.hashes c.height))) := by
  rw [Store.queryKeyOf_perm (hquery.hashes_perm c.height)]
  exact (Store.alike_ofCores (filter_accepts_variants h)).candidates _

theorem Reached.check_variant (hm : c.mode = .enabled) (ht : c.tester.Renames)
    (h : Reached V c cache cores) (h' : Reached W c cache' cores')
    (hcores : List.Forall₂ Variant cores cores') (hquery : Variant query query')
    (hq : ∀ q ∈ query.clauses, q ∈ V) (hq' : ∀ q ∈ query'.clauses, q ∈ W)
    (hs : Quiet source) (hs' : Quiet source') :
    (∃ b, (UnsatCache.check cache query source).answer = .ok b ∧
      (UnsatCache.check cache' query' source').answer = .ok b) ∧
    (∃ i i', cache.base = .indexed i ∧ cache'.base = .indexed i' ∧
      List.Forall₂ (fun d d' => (d, d') ∈ cores.zip cores') (i.offered query source)
        (i'.offered query' source')) ∧
    (V.Fits c.height → (UnsatCache.check cache query source).cache.base.overflowed = false) ∧
      (W.Fits c.height → (UnsatCache.check cache' query' source').cache.base.overflowed = false) := by
  obtain ⟨i, rfl, hi, hindex⟩ := h.index_eq hm
  obtain ⟨i', rfl, hi', hindex'⟩ := h'.index_eq hm
  have hparallel : List.Forall₂ (fun d d' => Variant d d' ∧ (d, d') ∈ cores.zip cores')
      (i.offered query source) (i'.offered query' source') := by
    rw [IndexedCache.offered_eq hq hi.holds.hasher hs,
      IndexedCache.offered_eq hq' hi'.holds.hasher hs', hindex, hindex']
    exact candidates_filled_variants hcores hquery
  have hcheck := hi.holds.check hq source
  have hcheck' := hi'.holds.check hq' source'
  rw [check_around, check_around]
  refine ⟨?_, ⟨i, i', rfl, rfl, hparallel.imp fun _ _ => And.right⟩,
    hcheck.1.hasher.calm, hcheck'.1.hasher.calm⟩
  have hadmits : List.Forall₂ (fun d d' => Variant d d' ∧
      (i.tester.Admits d.clauses query.clauses ↔ i.tester.Admits d'.clauses query'.clauses))
      (i.offered query source) (i'.offered query' source') := by
    apply hparallel.imp
    rintro d d' ⟨hd, -⟩
    rw [hi.tester_eq, ht.admits_iff, ht.admits_iff]
    exact ⟨hd, hd.exists_embeds_iff hquery⟩
  exact IndexedCache.check_parallel (hi'.tester_eq.trans hi.tester_eq.symm) hi.holds.hasher
    hi'.holds.hasher hq hq' (hi.holds.mem_of_mem_offered hq hs) (hi'.holds.mem_of_mem_offered hq' hs')
    hadmits hs hs'

end Config

theorem ClauseSet.variant_unary : Variant (.unary 0 "x") (.unary 2 "a") := by
  refine ⟨.merge (.constant "x" .int) (.constant "a" .int) rfl rfl rfl, ?_, ?_⟩
  · have hx : ∀ d ∈ (ClauseSet.unary 0 "x").vars, d = .constant "x" .int := by
      rintro d ⟨c, hc, hd⟩
      obtain rfl := List.mem_singleton.mp hc
      simpa [Term.unary, Term.vars, Term.varsAll] using hd
    intro d hd e he _
    rw [hx d hd, hx e he]
  · exact .of_eq rfl

def Config.sampling : Config where
  tester := .full
  index := .composite (.flat (.bloom 8)) (.flat (.random 1))

theorem Config.Reached.check_variant_unaries :
    ∃ cache cache' : Cache,
      Reached .unaries .sampling cache [.unary 0 "x", .unary 0 "x"] ∧
      Reached .unaries .sampling cache' [.unary 2 "a", .unary 2 "a"] ∧
      (∃ b, (UnsatCache.check cache (.unary 2 "a") ({} : Watch)).answer = .ok b ∧
        (UnsatCache.check cache' (.unary 0 "x") ({} : Watch)).answer = .ok b) ∧
      (UnsatCache.check cache (.unary 2 "a") ({} : Watch)).cache.base.overflowed = false := by
  have hx := Vocabulary.mem_unaries_core
  have ha := Vocabulary.mem_unaries_query
  have h : Reached .unaries .sampling _ (([] ++ [.unary 0 "x"]) ++ [.unary 0 "x"]) :=
    .add (.add (.built rfl) hx) hx
  have h' : Reached .unaries .sampling _ (([] ++ [.unary 2 "a"]) ++ [.unary 2 "a"]) :=
    .add (.add (.built rfl) ha) ha
  have hv := ClauseSet.variant_unary
  obtain ⟨hanswer, -, hcalm, -⟩ := check_variant rfl (.inl rfl) h h' (.cons hv (.cons hv .nil)) hv.symm
    ha hx (quiet_none 0 : Quiet ({} : Watch)) (quiet_none 0 : Quiet ({} : Watch))
  exact ⟨_, _, h, h', hanswer, hcalm Vocabulary.unaries_fits⟩

def ClauseSet.bothUnary (f g x : String) : ClauseSet := .atoms [(2, f, x), (4, g, x)]

theorem Config.order_overflows :
    ClauseSet.Variant (.bothUnary "q" "p" "a") (.bothUnary "p" "q" "a") ∧
      ∃ cache events, { Config.highest with tester := .full }.build = .ok (cache, events) ∧
        let added := (UnsatCache.add cache (.unary 0 "x")).1
        (UnsatCache.check added (.bothUnary "q" "p" "a") ({} : Watch)).cache.base.overflowed = true ∧
        (UnsatCache.check added (.bothUnary "p" "q" "a") ({} : Watch)).answer = .ok true ∧
        (UnsatCache.check added (.bothUnary "p" "q" "a") ({} : Watch)).cache.base.overflowed = false :=
  ⟨⟨.identity, fun _ _ _ _ h => h, .swap _ _ _⟩, _, _, rfl, by decide +kernel, by decide +kernel,
    by decide +kernel⟩

end CoreReuse
