import CoreReuse.Proofs.Workload.Families
import Mathlib.Data.List.InsertIdx

namespace CoreReuse

namespace Term

theorem ty_erase (t : Term) : t.erase.ty = t.ty := by
  induction t with
  | lambda n is b ih => rw [erase, ty, ty, ih]
  | _ => rfl

theorem height_erase (t : Term) : t.erase.height = t.height := by
  induction t with
  | app n f as ih =>
    have h : ∀ ts : List Term, (∀ t ∈ ts, t.erase.height = t.height) → heights (eraseAll ts) = heights ts := by
      intro ts hts
      induction ts with
      | nil => rfl
      | cons t ts ih =>
        obtain ⟨ht, hts⟩ := List.forall_mem_cons.mp hts
        rw [eraseAll, heights, heights, ht, ih hts]
    rw [erase, height, height, h as ih]
  | quantified n q bs b ih => rw [erase, height, height, ih]
  | lambda n is b ih => rw [erase, height, height, ih]
  | literal n ty x => rfl

theorem height_le_of_mem_subterms {s t : Term} (hs : s ∈ t.subterms) : s.height ≤ t.height := by
  induction t with
  | app n f as ih =>
    rcases List.mem_cons.mp hs with rfl | hs
    · exact Nat.le_refl _
    · obtain ⟨a, ha, hs⟩ := mem_subtermsAll.mp hs
      have h1 := ih a ha hs
      have h2 := height_le_heights ha
      rw [height]
      omega
  | quantified n q bs b ih =>
    rcases List.mem_cons.mp hs with rfl | hs
    · exact Nat.le_refl _
    · exact Nat.le_succ_of_le (ih hs)
  | lambda n is b ih =>
    rcases List.mem_cons.mp hs with rfl | hs
    · exact Nat.le_refl _
    · exact Nat.le_succ_of_le (ih hs)
  | literal n ty x => exact Nat.le_of_eq (congrArg height (List.mem_singleton.mp hs))

theorem subtermsAll_eq_flatMap (ts : List Term) : subtermsAll ts = ts.flatMap subterms := by
  induction ts with
  | nil => rfl
  | cons t ts ih => rw [subtermsAll, ih, List.flatMap_cons]

def Numbers (ts : List Term) (n k : Nat) : Prop :=
  ((subtermsAll ts).map node).Perm (List.range' n k)

variable {ts us : List Term} {n k l : Nat}

theorem Numbers.perm (h : Numbers ts n k) (hp : us.Perm ts) : Numbers us n k := by
  rw [Numbers, subtermsAll_eq_flatMap] at h ⊢
  exact ((hp.flatMap_right subterms).map node).trans h

theorem Numbers.append (h : Numbers ts n k) (h' : Numbers us (n + k) l) : Numbers (ts ++ us) n (k + l) := by
  rw [Numbers, subtermsAll_eq_flatMap] at h h' ⊢
  rw [List.flatMap_append, List.map_append, ← List.range'_append_1]
  exact h.append h'

theorem numbers_app (n : NodeId) (f : Decl) {x y : Term} (hx : x.subterms.map node = [n])
    (hy : y.subterms.map node = [n + 1]) : Numbers [.app (n + 2) f [x, y]] n 3 := by
  have h : (subtermsAll [.app (n + 2) f [x, y]]).map node = [n + 2, n, n + 1] := by
    rw [subtermsAll_eq_flatMap]
    simp [subterms, subtermsAll_eq_flatMap, hx, hy, node]
  rw [Numbers, h]
  exact (List.perm_append_singleton (n + 2) [n, n + 1]).symm

theorem Numbers.nodup (h : Numbers ts n k) : ((subtermsAll ts).map node).Nodup :=
  h.nodup_iff.mpr List.nodup_range'

end Term

namespace Workload

open Term

variable {w : Workload} {query first coreSize : Nat}

theorem bind_eq_of_ok {α β : Type} {x : Build α} {f : α → Build β} {n m : NodeId} {a : α}
    (h : x n = .ok (a, m)) : (x >>= f) n = f a m := by
  change (x n >>= fun p => f p.1 p.2) = f a m
  rw [h]
  rfl

def linkFrom (n : NodeId) (query first i : Nat) : Term :=
  .app (n + 2) (predicate (first + i))
    [.app n (variableOf query i) [], .app (n + 1) (variableOf query (i + 1)) []]

theorem chain_succ (query first k i : Nat) (n : NodeId) :
    chain query first (k + 1) i n = (chain query first k (i + 1) (n + 3)).map fun p =>
      (linkFrom n query first i :: p.1, p.2) := by
  change (chain query first k (i + 1) (n + 3) >>= fun p => pure (linkFrom n query first i :: p.1, p.2)) = _
  cases chain query first k (i + 1) (n + 3) <;> rfl

theorem chain_spec (query first k i : Nat) (n : NodeId) :
    ∃ ts, chain query first k i n = .ok (ts, n + 3 * k) ∧
      ts.map erase = (List.range' i k).map (link query first) ∧ Numbers ts n (3 * k) := by
  induction k generalizing i n with
  | zero => exact ⟨[], rfl, rfl, .refl _⟩
  | succ k ih =>
    obtain ⟨ts, hts, he, hn⟩ := ih (i + 1) (n + 3)
    refine ⟨linkFrom n query first i :: ts, ?_, ?_, ?_⟩
    · rw [chain_succ, hts, Nat.mul_succ, Nat.add_right_comm, Nat.add_assoc]
      rfl
    · rw [List.range'_succ, List.map_cons, List.map_cons, he]
      rfl
    · rw [Nat.mul_succ, Nat.add_comm]
      exact (numbers_app n _ rfl rfl).append hn

def noiseFrom (n : NodeId) (query i : Nat) (value : Int) : Term :=
  .app (n + 2) noisePredicate
    [.app n (variableOf query i) [], .literal (n + 1) .int (toString value)]

theorem addNoise_succ (query coreSize k : Nat) (g : Generator) (clauses : Array Term) (n : NodeId) :
    ∃ position ≤ clauses.size, ∃ i value g', addNoise query coreSize (k + 1) g clauses n =
      addNoise query coreSize k g' (clauses.insertIdxIfInBounds position (noiseFrom n query i value))
        (n + 3) := by
  have hp := fun g : Generator => (Draw.range_mem (Nat.succ_pos clauses.size) g).2
  -- Only the bound of a draw matters, so each is generalised before its number is looked at.
  rw [addNoise]
  generalize Draw.range 0 1000 g = d
  obtain ⟨value, g₁⟩ := d
  have hp := hp g₁
  dsimp only
  generalize Draw.range 0 (clauses.size + 1) g₁ = d at hp ⊢
  obtain ⟨position, g₂⟩ := d
  dsimp only at hp ⊢
  generalize Draw.range 0 (coreSize + 1) g₂ = d
  obtain ⟨i, g₃⟩ := d
  exact ⟨position, Nat.le_of_lt_succ hp, i, value, g₃, rfl⟩

structure Noised (query : Nat) (before after : List Term) (k : Nat) : Prop where
  sublist : before.Sublist after
  length_eq : after.length = before.length + k
  noise : ∀ c ∈ after, c ∈ before ∨ ∃ i value, c.erase = noiseClause query i value

theorem addNoise_spec (query coreSize k : Nat) (g : Generator) (clauses : Array Term) {start l : Nat}
    (hn : Numbers clauses.toList start l) :
    ∃ out g', addNoise query coreSize k g clauses (start + l) = .ok ((out, g'), start + (l + 3 * k)) ∧
      Noised query clauses.toList out.toList k ∧ Numbers out.toList start (l + 3 * k) := by
  induction k generalizing g clauses l with
  | zero => exact ⟨clauses, g, rfl, ⟨.refl _, rfl, fun c hc => .inl hc⟩, hn⟩
  | succ k ih =>
    obtain ⟨position, hp, i, value, g', heq⟩ := addNoise_succ query coreSize k g clauses (start + l)
    have hlen : position ≤ clauses.toList.length := hp
    have hins : (clauses.insertIdxIfInBounds position (noiseFrom (start + l) query i value)).toList =
        clauses.toList.insertIdx position (noiseFrom (start + l) query i value) := by
      rw [Array.insertIdxIfInBounds, dif_pos hp, Array.toList_insertIdx]
    have hnum : Numbers (clauses.toList.insertIdx position (noiseFrom (start + l) query i value)) start
        (l + 3) :=
      (hn.append (numbers_app (start + l) noisePredicate rfl rfl)).perm
        ((List.perm_insertIdx _ _ hlen).trans (List.perm_append_singleton _ _).symm)
    rw [← hins] at hnum
    obtain ⟨out, g'', hrun, hout, hnum'⟩ := ih g' _ hnum
    rw [hins] at hout
    have hl : l + 3 + 3 * k = l + 3 * (k + 1) := by omega
    rw [hl] at hrun hnum'
    refine ⟨out, g'', ?_, ⟨?_, ?_, fun c hc => ?_⟩, hnum'⟩
    · rw [heq, Nat.add_assoc, hrun]
    · exact (List.sublist_insertIdx _ _ _).trans hout.sublist
    · rw [hout.length_eq, List.length_insertIdx_of_le_length hlen]
      omega
    · rcases hout.noise c hc with hc | hc
      · rcases (List.mem_insertIdx hlen).mp hc with rfl | hc
        · exact .inr ⟨i, value, rfl⟩
        · exact .inl hc
      · exact .inr hc

theorem link_ty {c : Term} {query first i : Nat} (h : c.erase = link query first i) : c.ty = .bool := by
  rw [← ty_erase, h]
  rfl

theorem noiseClause_ty {c : Term} {query i : Nat} {value : Int} (h : c.erase = noiseClause query i value) :
    c.ty = .bool := by
  rw [← ty_erase, h]
  rfl

def drawn (w : Workload) : Nat := (Draw.range 0 w.families w.random).1

theorem next_spec (w : Workload) (hw : 0 < w.families) (query : Nat) (n : NodeId) :
    ∃ whole part random,
      w.next query n = .ok ((whole, part, { w with random }), n + 3 * (w.coreSize + w.noise)) ∧
      Made.Fits w ⟨query, w.drawn, whole, part⟩ ∧
      Numbers whole.clauses n (3 * (w.coreSize + w.noise)) := by
  have hf := (Draw.range_mem hw w.random).2
  rw [next, drawn]
  generalize Draw.range 0 w.families w.random = d at hf ⊢
  obtain ⟨family, random⟩ := d
  dsimp only at hf ⊢
  obtain ⟨core, hcore, he, hnum⟩ := chain_spec query (family * w.coreSize) w.coreSize 0 n
  obtain ⟨out, random', hout, hno, hnum'⟩ := addNoise_spec query w.coreSize w.noise random core.toArray hnum
  have hlen : core.length = w.coreSize := by simpa using congrArg List.length he
  have hpart : ∀ c ∈ core, ∃ i, c.erase = link query (family * w.coreSize) i := by
    intro c hc
    have hm : c.erase ∈ (List.range' 0 w.coreSize).map (link query (family * w.coreSize)) :=
      he ▸ List.mem_map_of_mem hc
    obtain ⟨i, -, hi⟩ := List.mem_map.mp hm
    exact ⟨i, hi.symm⟩
  have hcoreTy : ∀ c ∈ core, c.ty = .bool := by
    intro c hc
    obtain ⟨i, hi⟩ := hpart c hc
    exact link_ty hi
  have hwholeTy : ∀ c ∈ out.toList, c.ty = .bool := by
    intro c hc
    rcases hno.noise c hc with hc | ⟨i, value, hv⟩
    · exact hcoreTy c hc
    · exact noiseClause_ty hv
  refine ⟨⟨out.toList, hwholeTy⟩, ⟨core, hcoreTy⟩, random', ?_, ?_, ?_⟩
  · rw [bind_eq_of_ok hcore, bind_eq_of_ok hout, ClauseSet.ofList?_of_boolean hwholeTy,
      ClauseSet.ofList?_of_boolean hcoreTy, Nat.mul_add]
    rfl
  · refine ⟨hf, ?_, hno.sublist, ?_, hno.noise⟩
    · rw [he, List.range_eq_range']
    · rw [ClauseSet.size, hno.length_eq, hlen]
  · rw [Nat.mul_add]
    exact hnum'

def make : Nat → Nat → Workload → Build (List Made)
  | 0, _, _ => return []
  | k + 1, query, w => do
    let (whole, part, rest) ← w.next query
    return ⟨query, w.drawn, whole, part⟩ :: (← make k (query + 1) rest)

theorem make_succ {whole part : ClauseSet} {rest : Workload} {n mid : NodeId}
    (h : w.next query n = .ok ((whole, part, rest), mid)) (k : Nat) :
    make (k + 1) query w n = (make k (query + 1) rest mid).map fun r =>
      (⟨query, w.drawn, whole, part⟩ :: r.1, r.2) := by
  rw [make, bind_eq_of_ok h]
  change (make k (query + 1) rest mid >>= fun r => pure (⟨query, w.drawn, whole, part⟩ :: r.1, r.2)) = _
  cases make k (query + 1) rest mid <;> rfl

theorem make_spec (k : Nat) (w : Workload) (hw : 0 < w.families) (query : Nat) (n : NodeId) :
    ∃ ms, make k query w n = .ok (ms, n + k * (3 * (w.coreSize + w.noise))) ∧
      (∀ m ∈ ms, m.Fits w) ∧ ms.map Made.query = List.range' query k ∧
      Numbers (ms.flatMap fun m => m.whole.clauses) n (k * (3 * (w.coreSize + w.noise))) := by
  induction k generalizing w query n with
  | zero => exact ⟨[], by rw [Nat.zero_mul]; rfl, nofun, rfl, by rw [Nat.zero_mul]; exact .refl _⟩
  | succ k ih =>
    obtain ⟨whole, part, random, hnext, hfits, hnum⟩ := next_spec w hw query n
    obtain ⟨ms, hms, hall, hqueries, hnum'⟩ :=
      ih { w with random } hw (query + 1) (n + 3 * (w.coreSize + w.noise))
    refine ⟨⟨query, w.drawn, whole, part⟩ :: ms, ?_, List.forall_mem_cons.mpr ⟨hfits, fun m hm => ?_⟩, ?_, ?_⟩
    · rw [make_succ hnext, hms, Nat.succ_mul k, Nat.add_right_comm, Nat.add_assoc]
      rfl
    · exact (hall m hm).of_random
    · rw [List.map_cons, hqueries, List.range'_succ]
    · rw [List.flatMap_cons, Nat.succ_mul k, Nat.add_comm]
      exact hnum.append hnum'

theorem Made.Fits.height_le {m : Made} (h : m.Fits w) {c : Term} (hc : c ∈ m.whole.clauses) :
    c.height ≤ 2 := by
  rw [← height_erase]
  rcases h.noise c hc with hp | ⟨i, value, hn⟩
  · obtain ⟨i, -, hl⟩ := h.exists_link hp
    rw [hl]
    exact Nat.le_refl 2
  · rw [hn]
    exact Nat.le_refl 2

theorem exists_vocabulary {ms : List Made} {n k : Nat}
    (hn : Numbers (ms.flatMap fun m => m.whole.clauses) n k) (hfits : ∀ m ∈ ms, m.Fits w) :
    ∃ V : Vocabulary, (∀ m ∈ ms, ∀ c ∈ m.whole.clauses, c ∈ V) ∧
      ∀ bound, (∀ k, bound = some k → k + 2 < wordLimit) → V.Fits bound := by
  refine ⟨.ofTerms _ hn.nodup, fun m hm c hc => ?_, fun bound hb k hk => ⟨hb k hk, fun t ht => ?_⟩⟩
  · exact Vocabulary.mem_ofTerms (List.mem_flatMap.mpr ⟨m, hm, hc⟩)
  · obtain ⟨c, hc, ht⟩ := mem_subtermsAll.mp ht
    obtain ⟨m, hm, hc⟩ := List.mem_flatMap.mp hc
    have h1 := height_le_of_mem_subterms ht
    have h2 := (hfits m hm).height_le hc
    have h3 : 3 < wordLimit := by decide
    omega

end Workload

end CoreReuse
