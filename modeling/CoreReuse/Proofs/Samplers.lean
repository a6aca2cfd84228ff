import CoreReuse.Index.Level
import CoreReuse.Proofs.Sampling
import Mathlib.Data.Set.Function

/-!
Samples that are taken one value at a time. The sequences of draws that are in range and the sequences
of different positions correspond to each other one to one, so draws that are all equally likely make
samples that are. A sample gives the values at the positions it picks, all of them and in this order,
and a smaller one gives the first of them.
-/

namespace CoreReuse

namespace Shuffle

variable {size n : Nat} {s : Shuffle} {cs cs' ps : List Nat}

theorem mem_remaining {p : Nat} :
    p ∈ s.remaining size ↔ ∃ c, (s.next ≤ c ∧ c < size) ∧ s.occupant c = p := by
  rw [remaining, List.mem_map]
  refine exists_congr fun c => and_congr_left fun _ => ?_
  rw [List.mem_range'_1]
  omega

theorem nodup_remaining_pick {c : Nat} (hs : (s.remaining size).Nodup) (hc : s.next ≤ c ∧ c < size) :
    (s.pick c).1 ∉ (s.pick c).2.remaining size ∧ ((s.pick c).2.remaining size).Nodup :=
  List.nodup_cons.mp ((remaining_perm_pick hc.1 hc.2).nodup_iff.mp hs)

theorem eq_of_occupant_eq {c c' : Nat} (hs : (s.remaining size).Nodup) (hc : s.next ≤ c ∧ c < size)
    (hc' : s.next ≤ c' ∧ c' < size) (h : s.occupant c = s.occupant c') : c = c' := by
  apply List.inj_on_of_nodup_map hs _ _ h
  · exact List.mem_range'_1.mpr ⟨hc.1, by omega⟩
  · exact List.mem_range'_1.mpr ⟨hc'.1, by omega⟩

theorem eq_of_picks_eq (hs : (s.remaining size).Nodup) (h : InRange size s.next cs)
    (h' : InRange size s.next cs') (heq : picks cs s = picks cs' s) : cs = cs' := by
  induction cs generalizing s cs' with
  | nil => exact (List.length_eq_zero_iff.mp (by simpa using (congrArg List.length heq).symm)).symm
  | cons c cs ih =>
    cases cs' with
    | nil => cases heq
    | cons c' cs' =>
      obtain ⟨hc, hcs⟩ := inRange_cons.mp h
      obtain ⟨hc', hcs'⟩ := inRange_cons.mp h'
      obtain ⟨hfirst, hrest⟩ := List.cons.inj heq
      obtain rfl := eq_of_occupant_eq hs hc hc' hfirst
      rw [ih (nodup_remaining_pick hs hc).2 hcs hcs' hrest]

theorem exists_picks_eq (hs : (s.remaining size).Nodup) (hn : ps.Nodup) (h : ps ⊆ s.remaining size) :
    ∃ cs, InRange size s.next cs ∧ picks cs s = ps := by
  induction ps generalizing s with
  | nil => exact ⟨[], inRange_nil, rfl⟩
  | cons p ps ih =>
    obtain ⟨hp, hn'⟩ := List.nodup_cons.mp hn
    obtain ⟨hmem, hps⟩ := List.cons_subset.mp h
    obtain ⟨c, hc, rfl⟩ := mem_remaining.mp hmem
    have hperm := remaining_perm_pick hc.1 hc.2
    have hrest : ps ⊆ (s.pick c).2.remaining size := by
      intro q hq
      have hne : q ≠ s.occupant c := fun he => hp (he ▸ hq)
      exact (List.mem_cons.mp (hperm.mem_iff.mp (hps hq))).resolve_left hne
    obtain ⟨cs, hcs, heq⟩ := ih (nodup_remaining_pick hs hc).2 hn' hrest
    exact ⟨c :: cs, inRange_cons.mpr ⟨hc, hcs⟩, congrArg (s.occupant c :: ·) heq⟩

def drawSequences (size n : Nat) : Set (List Nat) := {cs | cs.length = n ∧ InRange size 0 cs}

def arrangements (size n : Nat) : Set (List Nat) :=
  {ps | ps.length = n ∧ ps.Nodup ∧ ∀ p ∈ ps, p < size}

theorem nodup_remaining_start : (remaining {} size).Nodup := by
  rw [remaining_start]
  exact List.nodup_range

theorem picks_mem_arrangements (h : cs ∈ drawSequences size n) : picks cs {} ∈ arrangements size n := by
  have hp : (picks cs {}).Subperm (List.range size) := remaining_start size ▸ picks_subperm_remaining h.2
  refine ⟨(length_picks cs {}).trans h.1, ?_, fun p hmem => List.mem_range.mp (hp.subset hmem)⟩
  obtain ⟨ps, hperm, hsub⟩ := hp
  exact hperm.nodup_iff.mp (List.nodup_range.sublist hsub)

theorem bijOn_picks (size n : Nat) :
    Set.BijOn (picks · {}) (drawSequences size n) (arrangements size n) := by
  refine ⟨fun cs => picks_mem_arrangements, ?_, ?_⟩
  · intro cs h cs' h' heq
    exact eq_of_picks_eq nodup_remaining_start h.2 h'.2 heq
  · rintro ps ⟨hlength, hn, hlt⟩
    have hsub : ps ⊆ remaining {} size := by
      rw [remaining_start]
      exact fun p hp => List.mem_range.mpr (hlt p hp)
    obtain ⟨cs, hcs, rfl⟩ := exists_picks_eq nodup_remaining_start hn hsub
    exact ⟨cs, ⟨(length_picks cs {}).symm.trans hlength, hcs⟩, rfl⟩

theorem picks_take (cs : List Nat) (s : Shuffle) (n : Nat) : picks (cs.take n) s = (picks cs s).take n := by
  induction cs generalizing s n with
  | nil => simp [picks]
  | cons c cs ih =>
    cases n with
    | zero => rfl
    | succ n => exact congrArg (s.occupant c :: ·) (ih _ _)

end Shuffle

namespace DrawSource

variable {γ : Type}

theorem draws_take (d : DrawSource γ) (size n front j : Nat) (g : γ) :
    (d.draws size n front g).take j = d.draws size (min j n) front g := by
  induction n generalizing front g j with
  | zero => simp [draws]
  | succ n ih =>
    cases j with
    | zero => simp [draws]
    | succ j =>
      rw [Nat.succ_min_succ]
      exact congrArg (_ :: ·) (ih _ _ _)

theorem draws_scripted {size front : Nat} {cs : List Nat} (h : Shuffle.InRange size front cs) :
    scripted.draws size cs.length front cs = cs := by
  induction cs generalizing front with
  | nil => rfl
  | cons c cs ih =>
    obtain ⟨hc, hcs⟩ := Shuffle.inRange_cons.mp h
    have hfirst : scripted.draw front size (c :: cs) = (c, cs) := congrArg (·, cs) (if_pos hc)
    rw [List.length_cons, draws, hfirst]
    exact congrArg (c :: ·) (ih hcs)

end DrawSource

namespace Sampler

variable {α γ : Type} {d : DrawSource γ} {s : Sampler α γ}

def ahead (d : DrawSource γ) (s : Sampler α γ) : List Nat :=
  Shuffle.picks (d.draws s.values.length (s.limit - s.shuffle.next) s.shuffle.next s.source) s.shuffle

structure Sound (s : Sampler α γ) : Prop where
  next_le : s.shuffle.next ≤ s.limit
  limit_le : s.limit ≤ s.values.length
  remaining_lt : ∀ p ∈ s.shuffle.remaining s.values.length, p < s.values.length

theorem sound_openAt (limit : Nat) (values : List α) (g : γ) : (openAt limit values g).Sound where
  next_le := Nat.zero_le _
  limit_le := Nat.min_le_right _ _
  remaining_lt p hp := by
    rw [show (openAt limit values g).shuffle = {} from rfl, Shuffle.remaining_start] at hp
    exact List.mem_range.mp hp

theorem ahead_eq_cons (h : s.shuffle.next < s.limit) :
    s.ahead d = (s.pick d).1 :: (s.pick d).2.ahead d := by
  obtain ⟨k, hk⟩ : ∃ k, s.limit - s.shuffle.next = k + 1 := ⟨s.limit - s.shuffle.next - 1, by omega⟩
  have hrest : s.limit - (s.shuffle.next + 1) = k := by omega
  rw [ahead, hk]
  simp only [ahead, pick, Shuffle.pick, hrest]
  rfl

theorem Sound.pick (h : s.Sound) (hnext : s.shuffle.next < s.limit) :
    (s.pick d).1 < s.values.length ∧ (s.pick d).2.Sound := by
  have hc := d.mem (Nat.lt_of_lt_of_le hnext h.limit_le) s.source
  have hperm := Shuffle.remaining_perm_pick hc.1 hc.2
  refine ⟨h.remaining_lt _ (hperm.mem_iff.mpr List.mem_cons_self), hnext, h.limit_le, fun p hp => ?_⟩
  exact h.remaining_lt p (hperm.mem_iff.mpr (List.mem_cons_of_mem _ hp))

theorem next_of_le (h : s.limit ≤ s.shuffle.next) : s.next d = .ok (none, s) := if_pos h

theorem Sound.next_of_lt (h : s.Sound) (hnext : s.shuffle.next < s.limit) :
    ∃ value, s.values[(s.pick d).1]? = some value ∧ s.next d = .ok (some value, (s.pick d).2) := by
  have hvalue := List.getElem?_eq_getElem (h.pick (d := d) hnext).1
  have hlimit := h.limit_le
  refine ⟨_, hvalue, ?_⟩
  rw [next, if_neg (by omega), if_neg (by omega), hvalue]
  rfl

theorem Sound.sizeHint_eq (h : s.Sound) (d : DrawSource γ) : s.sizeHint = .ok (s.ahead d).length := by
  rw [ahead, Shuffle.length_picks, DrawSource.length_draws]
  exact if_neg (Nat.not_lt.mpr h.next_le)

theorem Sound.exists_given (h : s.Sound) : ∃ given : List α,
    given.map some = (s.ahead d).map (s.values[·]?) ∧ ∀ n, s.take d n = .ok (given.take n) := by
  induction hk : s.limit - s.shuffle.next generalizing s with
  | zero =>
    refine ⟨[], by rw [ahead, hk]; rfl, fun n => ?_⟩
    cases n with
    | zero => rfl
    | succ n =>
      rw [take, next_of_le (by omega)]
      rfl
  | succ k ih =>
    have hnext : s.shuffle.next < s.limit := by omega
    obtain ⟨value, hvalue, heq⟩ := h.next_of_lt (d := d) hnext
    have hrest : s.limit - (s.shuffle.next + 1) = k := by omega
    obtain ⟨given, hgiven, htake⟩ := ih (h.pick (d := d) hnext).2 hrest
    refine ⟨value :: given, ?_, fun n => ?_⟩
    · rw [ahead_eq_cons hnext, List.map_cons, List.map_cons, hvalue, hgiven]
      rfl
    · cases n with
      | zero => rfl
      | succ n =>
        rw [take, heq]
        simp only [bind, Except.bind, htake]
        rfl

theorem ahead_openAt (limit : Nat) (values : List α) (g : γ) : (openAt limit values g).ahead d =
    Shuffle.picks (d.draws values.length (min limit values.length) 0 g) {} := rfl

theorem ahead_openAt_of_le {limit limit' : Nat} (h : limit' ≤ limit) (values : List α) (g : γ) :
    (openAt limit' values g).ahead d =
      ((openAt limit values g).ahead d).take (min limit' values.length) := by
  have hmin : min (min limit' values.length) (min limit values.length) = min limit' values.length := by
    omega
  rw [ahead_openAt, ahead_openAt, ← Shuffle.picks_take, DrawSource.draws_take, hmin]

theorem filterMap_eq_of_map_eq {ps : List Nat} {f : Nat → Option α} {vs : List α}
    (h : vs.map some = ps.map f) : ps.filterMap f = vs := by
  have hid : ps.filterMap f = (ps.map f).filterMap id := by
    rw [List.filterMap_map]
    rfl
  rw [hid, ← h, List.filterMap_map]
  exact List.filterMap_some

theorem map_some_offered (limit seed : UInt64) (key : Key) (entries : List (Key × α)) :
    ((FlatKind.random limit).offered seed key entries).map some =
      ((openAt limit.toNat (entries.map (·.2)) (Generator.ofSeed (FlatKind.sampleSeed seed key))).ahead
        .ofWords).map ((entries.map (·.2))[·]?) := by
  obtain ⟨given, hgiven, -⟩ := (sound_openAt limit.toNat (entries.map (·.2))
    (Generator.ofSeed (FlatKind.sampleSeed seed key))).exists_given (d := .ofWords)
  refine Eq.trans (congrArg (List.map some) ?_) hgiven
  rw [ahead_openAt, DrawSource.draws_ofWords, List.length_map] at hgiven
  rw [← filterMap_eq_of_map_eq hgiven, FlatKind.offered, FlatKind.selectAmong, FlatKind.select,
    Sample.positions, List.length_map]
  simp only [List.getElem?_toArray]
  rfl

theorem take_offered (limit seed : UInt64) (key : Key) (entries : List (Key × α)) (n : Nat) :
    (openAt limit.toNat (entries.map (·.2)) (Generator.ofSeed (FlatKind.sampleSeed seed key))).take
        .ofWords n = .ok (((FlatKind.random limit).offered seed key entries).take n) := by
  obtain ⟨given, hgiven, htake⟩ := (sound_openAt limit.toNat (entries.map (·.2))
    (Generator.ofSeed (FlatKind.sampleSeed seed key))).exists_given (d := .ofWords)
  have heq := hgiven.trans (map_some_offered limit seed key entries).symm
  rw [htake, List.map_injective_iff.mpr (Option.some_injective α) heq]

/-- A sample of some values, whatever draws it. It gives as many of them as it may, at different
positions, and its draws and these positions determine each other. Whoever stops early has the first
values, and so has a smaller sample. What is drawn may be anything in range. -/
theorem take_arranged (d : DrawSource γ) (g : γ) (limit : Nat) (values : List α) :
    let size := values.length
    let count := min limit size
    let cs := d.draws size count 0 g
    cs ∈ Shuffle.drawSequences size count ∧
      (∃ given : List α, given.map some = (Shuffle.picks cs {}).map (values[·]?) ∧
        given.length = count ∧
        Shuffle.picks cs {} ∈ Shuffle.arrangements size count ∧
        (∀ n, (openAt limit values g).take d n = .ok (given.take n)) ∧
        ∀ limit' ≤ limit, ∀ n,
          (openAt limit' values g).take d n = .ok ((given.take (min limit' size)).take n)) ∧
      Set.BijOn (Shuffle.picks · {}) (Shuffle.drawSequences size count) (Shuffle.arrangements size count) ∧
      Set.EqOn (DrawSource.scripted.draws size count 0) id (Shuffle.drawSequences size count) ∧
      ∀ (limit seed : UInt64) (key : Key) (entries : List (Key × α)) (n : Nat),
        (openAt limit.toNat (entries.map (·.2)) (Generator.ofSeed (FlatKind.sampleSeed seed key))).take
          .ofWords n = .ok (((FlatKind.random limit).offered seed key entries).take n) := by
  intro size count cs
  have hle : 0 + count ≤ size := by omega
  have hcs : cs ∈ Shuffle.drawSequences size count := ⟨d.length_draws _ _ _ _, d.inRange_draws hle g⟩
  obtain ⟨given, hgiven, htake⟩ := (sound_openAt limit values g).exists_given (d := d)
  have hlength : given.length = count := by
    simpa [ahead_openAt] using congrArg List.length hgiven
  refine ⟨hcs, ⟨given, hgiven, hlength, Shuffle.picks_mem_arrangements hcs, htake, ?_⟩,
    Shuffle.bijOn_picks size count, ?_, take_offered⟩
  · intro limit' hlimit n
    obtain ⟨given', hgiven', htake'⟩ := (sound_openAt limit' values g).exists_given (d := d)
    have heq : given'.map some = (given.take (min limit' size)).map some := by
      rw [hgiven', ahead_openAt_of_le hlimit, List.map_take, List.map_take]
      exact congrArg (List.take _) hgiven.symm
    rw [htake', List.map_injective_iff.mpr (Option.some_injective α) heq]
  · rintro cs' ⟨hlength', hrange⟩
    rw [← hlength']
    exact DrawSource.draws_scripted hrange

theorem take_arranged_displaced :
    [2, 2, 3] ∈ Shuffle.drawSequences 4 3 ∧
      (openAt 3 ["p", "q", "r", "s"] [2, 2, 3]).take .scripted 5 = .ok ["r", "p", "s"] ∧
      (openAt 2 ["p", "q", "r", "s"] [2, 2, 3]).take .scripted 5 = .ok ["r", "p"] := by
  obtain ⟨hcs, ⟨given, hgiven, -, -, htake, hsmaller⟩, -⟩ :=
    take_arranged .scripted [2, 2, 3] 3 ["p", "q", "r", "s"]
  have hpicks : (Shuffle.picks [2, 2, 3] {}).map (["p", "q", "r", "s"][·]?) =
      ["r", "p", "s"].map some := by decide +kernel
  obtain rfl := List.map_injective_iff.mpr (Option.some_injective _) (hgiven.trans hpicks)
  exact ⟨hcs, htake 5, hsmaller 2 (by decide) 5⟩

end Sampler

end CoreReuse
