import CoreReuse.Index.Store
import CoreReuse.Proofs.Index.Levels

namespace CoreReuse

open Hash Search

variable {V : Vocabulary} {m : Option Nat} {seed : UInt64} {k : FlatKind} {rest : List FlatKind}
variable {c core : ClauseSet} {hs : List UInt64} {s : Store rest} {n : Nat}

namespace Store

def keyOf (k : FlatKind) : List FlatKind → List UInt64 → Key
  | [], hs => k.keyOf hs
  | next :: rest, hs => .pair (k.keyOf hs) (keyOf next rest hs)

def queryKeyOf (k : FlatKind) : List FlatKind → List UInt64 → Key
  | [], hs => k.queryKeyOf hs
  | next :: rest, hs => .pair (k.queryKeyOf hs) (queryKeyOf next rest hs)

theorem coreKey_sound (k : FlatKind) (rest : List FlatKind) {h : Hasher} (hh : h.Sound V m)
    (hc : ∀ c ∈ core.clauses, c ∈ V) :
    (coreKey k rest h core).1 = keyOf k rest (core.hashes m) ∧ (coreKey k rest h core).2.Sound V m := by
  induction rest generalizing k h with
  | nil => exact FlatKind.coreKey_sound hh hc
  | cons next rest ih =>
    obtain ⟨h1, hh'⟩ := FlatKind.coreKey_sound (k := k) hh hc
    obtain ⟨h2, hh''⟩ := ih next hh'
    exact ⟨congrArg₂ Key.pair h1 h2, hh''⟩

theorem computes_queryKey {π : Type} [PollSource π] {query : ClauseSet}
    (hq : ∀ q ∈ query.clauses, q ∈ V) :
    Computes V m query (queryKey k rest query : Search π Key) (queryKeyOf k rest (query.hashes m)) 0 := by
  induction rest generalizing k with
  | nil => exact FlatKind.computes_queryKey hq
  | cons next rest ih =>
    apply (FlatKind.computes_queryKey hq).bind (k := 0)
    apply ih.bind (k := 0)
    exact computes_pure _

def contents : (rest : List FlatKind) → Store rest → List ClauseSet
  | [], entries => List.map Prod.snd entries
  | _ :: rest, (_, inners) => inners.flatMap fun e => contents rest e.2

def AtMost (n : Nat) : (rest : List FlatKind) → Store rest → Prop
  | [], entries => List.length entries ≤ n
  | _ :: rest, (_, inners) => ∀ e ∈ inners, AtMost n rest e.2

/-- Cores are filed under their own bits, and inner stores under bits that their cores have. A level
that samples has no more inner stores than it takes. -/
def Filed (m : Option Nat) (k : FlatKind) : (rest : List FlatKind) → Store rest → Prop
  | [], entries =>
    ∀ e : Key × ClauseSet, List.Mem e entries → e.1 = k.filed (k.keyOf (e.2.hashes m))
  | next :: rest, (_, inners) =>
    k.OffersAll inners.length ∧ ∀ e ∈ inners, Filed m next rest e.2 ∧
      ∃ hs, e.1 = k.filed (k.keyOf hs) ∧ ∀ c ∈ contents rest e.2, k.Within hs (c.hashes m)

@[simp] theorem contents_empty : contents rest (empty rest) = [] := by
  cases rest <;> rfl

theorem atMost_empty : AtMost n rest (empty rest) := by
  cases rest with
  | nil => exact Nat.zero_le n
  | cons next rest => exact fun e he => nomatch he

theorem filed_empty : Filed m k rest (empty rest) := by
  cases rest with
  | nil => exact fun e he => nomatch he
  | cons next rest =>
    refine ⟨?_, fun e he => nomatch he⟩
    cases k with
    | list => trivial
    | random candidates => exact Nat.zero_le _
    | bloom nbits => trivial

section Insert

variable {next : FlatKind} {outer inner : Key} {count : Nat} {inners : List (Key × Store rest)}

def inserted (seed : UInt64) (next : FlatKind) (inner : Key) (core : ClauseSet) (offered : List Nat)
    (i : Nat) (e : Key × Store rest) : Key × Store rest :=
  if offered.contains i then (e.1, insert seed next rest inner core e.2) else e

theorem insert_of_nil (h : k.selectAmong seed (k.lookupKey outer) inners = []) :
    insert seed k (next :: rest) (.pair outer inner) core (count, inners) =
      (count + 1, inners ++ [(k.filed outer, insert seed next rest inner core (empty rest))]) := by
  rw [insert, Key.split]
  exact if_pos (by simpa using h)

theorem insert_of_ne_nil (h : k.selectAmong seed (k.lookupKey outer) inners ≠ []) :
    insert seed k (next :: rest) (.pair outer inner) core (count, inners) =
      (count + 1,
        inners.mapIdx (inserted seed next inner core (k.selectAmong seed (k.lookupKey outer) inners))) := by
  rw [insert, Key.split]
  exact if_neg (by simpa using h)

theorem mem_insert_cases {e : Key × Store rest}
    (he : e ∈ (insert seed k (next :: rest) (.pair outer inner) core (count, inners)).2) :
    e ∈ inners ∨
    (∃ i e₀, inners[i]? = some e₀ ∧ i ∈ k.selectAmong seed (k.lookupKey outer) inners ∧
      e = (e₀.1, insert seed next rest inner core e₀.2)) ∨
    k.selectAmong seed (k.lookupKey outer) inners = [] ∧
      e = (k.filed outer, insert seed next rest inner core (empty rest)) := by
  by_cases hne : k.selectAmong seed (k.lookupKey outer) inners = []
  · rw [insert_of_nil hne] at he
    rcases List.mem_append.mp he with he | he
    · exact .inl he
    · exact .inr (.inr ⟨hne, List.mem_singleton.mp he⟩)
  · rw [insert_of_ne_nil hne] at he
    obtain ⟨i, hi, rfl⟩ := List.mem_mapIdx.mp he
    unfold inserted
    split
    · next hoff =>
      exact .inr (.inl ⟨i, _, List.getElem?_eq_getElem hi, List.contains_iff_mem.mp hoff, rfl⟩)
    · exact .inl (List.getElem_mem hi)

theorem offersAll_insert (hv : k.validate = .ok ()) (hroom : k.OffersAll inners.length) :
    k.OffersAll (insert seed k (next :: rest) (.pair (k.keyOf hs) inner) core (count, inners)).2.length := by
  by_cases hne : k.selectAmong seed (k.lookupKey (k.keyOf hs)) inners = []
  · rw [insert_of_nil hne, List.length_append]
    exact FlatKind.offersAll_of_selectAmong_eq_nil hv FlatKind.asks_lookupKey hne
  · rw [insert_of_ne_nil hne, List.length_mapIdx]
    exact hroom

end Insert

section Cons

variable {next : FlatKind} {s : Store (next :: rest)}

theorem mem_contents_cons : c ∈ contents (next :: rest) s ↔ ∃ e ∈ s.2, c ∈ contents rest e.2 :=
  List.mem_flatMap

theorem atMost_cons : AtMost n (next :: rest) s ↔ ∀ e ∈ s.2, AtMost n rest e.2 := Iff.rfl

theorem filed_cons : Filed m k (next :: rest) s ↔
    k.OffersAll s.2.length ∧ ∀ e ∈ s.2, Filed m next rest e.2 ∧
      ∃ hs, e.1 = k.filed (k.keyOf hs) ∧ ∀ c ∈ contents rest e.2, k.Within hs (c.hashes m) := Iff.rfl

end Cons

theorem mem_contents_insert (hf : Filed m k rest s) :
    c ∈ contents rest (insert seed k rest (keyOf k rest (core.hashes m)) core s) ↔
      c = core ∨ c ∈ contents rest s := by
  induction rest generalizing k with
  | nil => simp [insert, FlatKind.file, contents, or_comm]
  | cons next rest ih =>
    obtain ⟨count, inners⟩ := s
    obtain ⟨hroom, hin⟩ := filed_cons.mp hf
    rw [keyOf, mem_contents_cons, mem_contents_cons]
    constructor
    · rintro ⟨e, he, hc⟩
      rcases mem_insert_cases he with he | ⟨i, e₀, hi, -, rfl⟩ | ⟨-, rfl⟩
      · exact .inr ⟨e, he, hc⟩
      · have hm := List.mem_of_getElem? hi
        exact ((ih (hin e₀ hm).1).mp hc).imp_right fun hc => ⟨e₀, hm, hc⟩
      · exact .inl (by simpa using (ih filed_empty).mp hc)
    · -- The core is in every store that it was put into; the others kept what they had.
      by_cases hne : k.selectAmong seed (k.lookupKey (k.keyOf (core.hashes m))) inners = []
      · rw [insert_of_nil hne]
        rintro (rfl | ⟨e, he, hc⟩)
        · exact ⟨_, List.mem_append_right _ List.mem_cons_self, (ih filed_empty).mpr (.inl rfl)⟩
        · exact ⟨e, List.mem_append_left _ he, hc⟩
      · rw [insert_of_ne_nil hne]
        rintro (rfl | ⟨e, he, hc⟩)
        · obtain ⟨i, hi⟩ := List.exists_mem_of_ne_nil _ hne
          have hlt := FlatKind.lt_of_mem_selectAmong hi
          refine ⟨_, List.mem_mapIdx.mpr ⟨i, hlt, rfl⟩, ?_⟩
          rw [inserted, if_pos (List.contains_iff_mem.mpr hi)]
          exact (ih (hin _ (List.getElem_mem hlt)).1).mpr (.inl rfl)
        · obtain ⟨i, hi, rfl⟩ := List.mem_iff_getElem.mp he
          refine ⟨_, List.mem_mapIdx.mpr ⟨i, hi, rfl⟩, ?_⟩
          unfold inserted
          split
          · exact (ih (hin _ he).1).mpr (.inr hc)
          · exact hc

theorem Filed.insert (hv : ∀ l ∈ k :: rest, l.validate = .ok ()) (hf : Filed m k rest s) :
    Filed m k rest (insert seed k rest (keyOf k rest (core.hashes m)) core s) := by
  induction rest generalizing k with
  | nil =>
    intro e he
    rcases List.mem_append.mp he with he | he
    · exact hf e he
    · rw [List.mem_singleton.mp he]
      rfl
  | cons next rest ih =>
    obtain ⟨count, inners⟩ := s
    obtain ⟨hroom, hin⟩ := filed_cons.mp hf
    obtain ⟨hvk, hvr⟩ := List.forall_mem_cons.mp hv
    rw [keyOf]
    refine filed_cons.mpr ⟨offersAll_insert hvk hroom, fun e he => ?_⟩
    rcases mem_insert_cases he with he | ⟨i, e₀, hi, hsel, rfl⟩ | ⟨-, rfl⟩
    · exact hin e he
    · -- The store was offered for the core's own bits, so the core has the bits of the store.
      obtain ⟨hfe, hs, hkey, hw⟩ := hin e₀ (List.mem_of_getElem? hi)
      refine ⟨ih hvr hfe, hs, hkey, fun c hc => ?_⟩
      rcases (mem_contents_insert hfe).mp hc with rfl | hc
      · exact (FlatKind.mem_selectAmong hroom FlatKind.asks_lookupKey hi hkey).mp hsel
      · exact hw c hc
    · refine ⟨ih hvr filed_empty, core.hashes m, rfl, fun c hc => ?_⟩
      rw [mem_contents_insert filed_empty, contents_empty] at hc
      obtain rfl : c = core := by simpa using hc
      exact FlatKind.within_of_subset (List.Subset.refl _)

theorem AtMost.mono {n' : Nat} (h : AtMost n rest s) (hn : n ≤ n') : AtMost n' rest s := by
  induction rest with
  | nil => exact Nat.le_trans h hn
  | cons next rest ih => exact fun e he => ih (h e he)

theorem AtMost.insert (h : AtMost n rest s) :
    AtMost (n + 1) rest (insert seed k rest (keyOf k rest hs) core s) := by
  induction rest generalizing k with
  | nil =>
    simp only [AtMost, Store.insert, FlatKind.file, List.length_append, List.length_singleton] at h ⊢
    omega
  | cons next rest ih =>
    obtain ⟨count, inners⟩ := s
    rw [keyOf]
    refine atMost_cons.mpr fun e he => ?_
    rcases mem_insert_cases he with he | ⟨i, e₀, hi, -, rfl⟩ | ⟨-, rfl⟩
    · exact (h e he).mono (Nat.le_succ n)
    · exact ih (h e₀ (List.mem_of_getElem? hi))
    · exact ih atMost_empty

theorem mem_contents_of_mem_candidates {key : Key} (h : c ∈ candidates seed k rest key s) :
    c ∈ contents rest s := by
  induction rest generalizing k key with
  | nil =>
    obtain ⟨i, -, e, he, rfl⟩ := FlatKind.mem_offered.mp h
    exact List.mem_map_of_mem (List.mem_of_getElem? he)
  | cons next rest ih =>
    obtain ⟨store, hs, hc⟩ := List.mem_flatMap.mp h
    obtain ⟨i, -, e, he, rfl⟩ := FlatKind.mem_offered.mp hs
    exact mem_contents_cons.mpr ⟨e, List.mem_of_getElem? he, ih hc⟩

end Store

def FlatKind.innermost (k : FlatKind) : List FlatKind → FlatKind
  | [] => k
  | next :: rest => innermost next rest

namespace Store

theorem mem_candidates (hf : Filed m k rest s) (hn : AtMost n rest s)
    (hroom : (k.innermost rest).OffersAll n) (hsub : c.hashes m ⊆ hs) (hc : c ∈ contents rest s) :
    c ∈ candidates seed k rest (queryKeyOf k rest hs) s := by
  induction rest generalizing k with
  | nil =>
    obtain ⟨e, he, rfl⟩ := List.mem_map.mp hc
    obtain ⟨i, hi⟩ := List.mem_iff_getElem?.mp he
    have hlevel : k.OffersAll (List.length s) := FlatKind.OffersAll.mono hroom hn
    refine FlatKind.mem_offered.mpr ⟨i, ?_, e, hi, rfl⟩
    rw [queryKeyOf, FlatKind.mem_selectAmong hlevel FlatKind.asks_queryKeyOf hi (hf e he)]
    exact FlatKind.within_of_subset hsub
  | cons next rest ih =>
    obtain ⟨count, inners⟩ := s
    obtain ⟨hlevel, hin⟩ := hf
    obtain ⟨e, he, hc⟩ := mem_contents_cons.mp hc
    obtain ⟨hfe, hs₀, hkey, hw⟩ := hin e he
    obtain ⟨i, hi⟩ := List.mem_iff_getElem?.mp he
    refine List.mem_flatMap.mpr ⟨e.2, FlatKind.mem_offered.mpr ⟨i, ?_, e, hi, rfl⟩,
      ih hfe (hn e he) hroom hc⟩
    rw [queryKeyOf, Key.split, FlatKind.mem_selectAmong hlevel FlatKind.asks_queryKeyOf hi hkey]
    exact (hw c hc).trans (FlatKind.within_of_subset hsub)

end Store

end CoreReuse
