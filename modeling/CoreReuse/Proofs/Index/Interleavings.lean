import CoreReuse.Proofs.Index.Snapshots
import CoreReuse.Proofs.Matching.Agreement

namespace CoreReuse

variable {m : Option Nat} {seed : UInt64} {k : FlatKind} {rest : List FlatKind}
variable {core : ClauseSet} {hs : List UInt64} {key : Key}

inductive Move where
  | insert (key : Key) (core : ClauseSet)
  | pull

namespace Move

variable {γ : Type}

def isPull : Move → Bool
  | insert _ _ => false
  | pull => true

def run (seed : UInt64) (k : FlatKind) (rest : List FlatKind)
    (pull : Store rest → γ → Option ClauseSet × γ) :
    List Move → Store rest → γ → List (Option ClauseSet) × γ
  | [], _, c => ([], c)
  | .insert key core :: moves, s, c =>
    run seed k rest pull moves (Store.insert seed k rest key core s) c
  | .pull :: moves, s, c =>
    let (value, c) := pull s c
    let (values, c) := run seed k rest pull moves s c
    (value :: values, c)

/-- No insertion reaches an inner store that the cursor has still to open. -/
def Undisturbed (seed : UInt64) (k : FlatKind) (rest : List FlatKind) :
    List Move → Store rest → Cursor rest → Prop
  | [], _, _ => True
  | .insert key core :: moves, s, c =>
    Cursor.Spared seed k rest key s c ∧
      Undisturbed seed k rest moves (Store.insert seed k rest key core s) c
  | .pull :: moves, s, c => Undisturbed seed k rest moves s (Cursor.pull seed rest s c).2

variable {moves : List Move} {s : Store rest} {c : Cursor rest}

def firsts (values : List ClauseSet) (n : Nat) : List (Option ClauseSet) :=
  (List.range n).map fun i => values[i]?

theorem firsts_succ (values : List ClauseSet) (n : Nat) :
    firsts values (n + 1) = values.head? :: firsts values.tail n := by
  simp only [firsts, List.range_succ_eq_map, List.map_cons, List.map_map, List.head?_eq_getElem?,
    List.cons.injEq, true_and]
  apply List.map_congr_left
  intro i _
  exact List.getElem?_tail.symm

theorem run_eq_firsts (hs : Cursor.Sits rest s c) (h : Undisturbed seed k rest moves s c) :
    (run seed k rest (Cursor.pull seed rest) moves s c).1 =
      firsts (Cursor.remaining seed rest s c) (moves.countP isPull) := by
  induction moves generalizing s c with
  | nil => rfl
  | cons move moves ih =>
    cases move with
    | insert key core =>
      have hi := ih (Cursor.sits_insert hs) h.2
      rw [Cursor.remaining_insert hs h.1] at hi
      exact hi
    | pull =>
      obtain ⟨h1, h2⟩ : (Cursor.pull seed rest s c).1 = _ ∧ _ := Cursor.pull_takes rest s c
      have hp := ih hs.pull h
      rw [h2] at hp
      rw [List.countP_cons_of_pos rfl, firsts_succ, ← h1, ← hp]
      rfl

theorem run_counted (c : Counted rest) :
    (run seed k rest (Counted.pull seed rest) moves s c).1 =
        (run seed k rest (Cursor.pull seed rest) moves s c.cursor).1 ∧
      (run seed k rest (Counted.pull seed rest) moves s c).2.consumed = c.consumed +
        (run seed k rest (Cursor.pull seed rest) moves s c.cursor).1.countP Option.isSome := by
  induction moves generalizing s c with
  | nil => exact ⟨rfl, rfl⟩
  | cons move moves ih =>
    cases move with
    | insert key core => exact ih c
    | pull =>
      simp only [run, Counted.pull]
      rcases Cursor.pull seed rest s c.cursor with ⟨_ | core, cursor⟩
      · obtain ⟨h1, h2⟩ := ih (s := s) { c with cursor }
        exact ⟨congrArg _ h1, by simpa using h2⟩
      · obtain ⟨h1, h2⟩ := ih (s := s) ⟨cursor, c.consumed + 1⟩
        refine ⟨congrArg _ h1, h2.trans ?_⟩
        rw [List.countP_cons_of_pos rfl, Nat.add_right_comm]
        rfl

theorem undisturbed_of_forall_isPull (h : ∀ move ∈ moves, move.isPull = true) :
    Undisturbed seed k rest moves s c := by
  induction moves generalizing c with
  | nil => trivial
  | cons move moves ih =>
    obtain ⟨hmove, hmoves⟩ := List.forall_mem_cons.mp h
    cases move with
    | insert key core => cases hmove
    | pull => exact ih hmoves

theorem undisturbed_flat {s : Store []} {c : Cursor []} : Undisturbed seed k [] moves s c := by
  induction moves generalizing s c with
  | nil => trivial
  | cons move moves ih =>
    cases move with
    | insert key core => exact ⟨trivial, ih⟩
    | pull => exact ih

theorem exists_pulls_mem (hs : Cursor.Sits rest s c) (h : core ∈ Cursor.remaining seed rest s c) :
    ∃ n, some core ∈ (run seed k rest (Cursor.pull seed rest) (List.replicate n .pull) s c).1 := by
  obtain ⟨i, hi, rfl⟩ := List.mem_iff_getElem.mp h
  have hpulls : ∀ move ∈ List.replicate (i + 1) pull, move.isPull = true :=
    fun move hmove => List.eq_of_mem_replicate hmove ▸ rfl
  refine ⟨i + 1, ?_⟩
  rw [run_eq_firsts hs (undisturbed_of_forall_isPull hpulls), List.countP_eq_length.mpr hpulls,
    List.length_replicate]
  exact List.mem_map.mpr ⟨i, List.mem_range.mpr (Nat.lt_succ_self i), List.getElem?_eq_getElem hi⟩

end Move

namespace Store

variable {n : Nat}

theorem mem_candidates_put {s : Store rest} (hv : ∀ l ∈ k :: rest, l.validate = .ok ())
    (hf : Filed m k rest s) (hn : AtMost n rest s) (hroom : (k.innermost rest).OffersAll (n + 1))
    (hsub : core.hashes m ⊆ hs) :
    core ∈ candidates seed k rest (queryKeyOf k rest hs) (put seed k rest m s core) :=
  mem_candidates (hf.insert hv) hn.insert hroom hsub ((mem_contents_insert hf).mpr (.inl rfl))

variable {next : FlatKind} {s : Store (next :: rest)}

theorem mem_remaining_insert (hv : ∀ l ∈ k :: next :: rest, l.validate = .ok ())
    (hf : Filed m k (next :: rest) s) (hn : AtMost n (next :: rest) s)
    (hroom : (next.innermost rest).OffersAll (n + 1)) (hsub : core.hashes m ⊆ hs)
    (hne : k.selectAmong seed (k.lookupKey (k.keyOf (core.hashes m))) s.2 ≠ []) :
    core ∈ Cursor.remaining seed (next :: rest) (put seed k (next :: rest) m s core)
      (Cursor.openAt seed k (next :: rest) (queryKeyOf k (next :: rest) hs) s) := by
  obtain ⟨count, inners⟩ := s
  obtain ⟨hlevel, hin⟩ := filed_cons.mp hf
  obtain ⟨i, hi⟩ := List.exists_mem_of_ne_nil _ hne
  have hlt := FlatKind.lt_of_mem_selectAmong hi
  have hget := List.getElem?_eq_getElem hlt
  obtain ⟨hfe, hs₀, hkey, -⟩ := hin _ (List.getElem_mem hlt)
  have hpending : i ∈ k.selectAmong seed (k.queryKeyOf hs) inners := by
    rw [FlatKind.mem_selectAmong hlevel FlatKind.asks_queryKeyOf hget hkey]
    have hw := (FlatKind.mem_selectAmong hlevel FlatKind.asks_lookupKey hget hkey).mp hi
    exact hw.trans (FlatKind.within_of_subset hsub)
  have hnew : ((put seed k (next :: rest) m (count, inners) core).2.map (·.2))[i]? =
      some (put seed next rest m inners[i].2 core) := by
    rw [put, keyOf, getElem?_insert (by rw [List.getElem?_map, hget]; rfl), Key.split, if_pos hi]
    rfl
  have hmem : core ∈ candidates seed next rest (queryKeyOf next rest hs)
      (put seed next rest m inners[i].2 core) :=
    mem_candidates_put (List.forall_mem_cons.mp hv).2 hfe (hn _ (List.getElem_mem hlt)) hroom hsub
  rw [← Cursor.remaining_openAt] at hmem
  rw [Cursor.remaining_cons]
  refine List.mem_append_right _ (List.mem_flatMap.mpr ⟨i, hpending, ?_⟩)
  rw [hnew, Option.elim_some]
  exact hmem

theorem selectAmong_ne_nil_of_innerCount_put
    (h : innerCount (next :: rest) (put seed k (next :: rest) m s core) = innerCount (next :: rest) s) :
    k.selectAmong seed (k.lookupKey (k.keyOf (core.hashes m))) s.2 ≠ [] := by
  intro hnil
  obtain ⟨count, inners⟩ := s
  rw [put, keyOf, insert_of_nil hnil, innerCount, innerCount, List.length_append] at h
  exact Nat.succ_ne_self _ h

end Store

namespace Index

def read (i : Index) (key : Key) (moves : List Move) : List (Option ClauseSet) :=
  (Move.run i.seed i.outermost i.inner (Cursor.pull i.seed i.inner) moves i.store (i.cursor key)).1

def readCounted (i : Index) (key : Key) (moves : List Move) :
    List (Option ClauseSet) × Counted i.inner :=
  Move.run i.seed i.outermost i.inner (Counted.pull i.seed i.inner) moves i.store (i.counted key)

def Undisturbed (i : Index) (key : Key) (moves : List Move) : Prop :=
  Move.Undisturbed i.seed i.outermost i.inner moves i.store (i.cursor key)

theorem read_eq_firsts_of_undisturbed {i : Index} {moves : List Move} (h : i.Undisturbed key moves) :
    i.read key moves = Move.firsts (i.candidates key) (moves.countP Move.isPull) := by
  have hrun := Move.run_eq_firsts (Cursor.sits_openAt key i.store) h
  rw [Cursor.remaining_openAt] at hrun
  exact hrun

theorem late_mem_read {next : FlatKind} {cores : List ClauseSet}
    (hv : ∀ l ∈ k :: next :: rest, l.validate = .ok ())
    (hroom : (next.innermost rest).OffersAll (cores.length + 1)) (hsub : core.hashes m ⊆ hs)
    (hcount : (ofCores seed k (next :: rest) m (cores ++ [core])).innerCount =
      (ofCores seed k (next :: rest) m cores).innerCount) :
    ∃ n, some core ∈ (ofCores seed k (next :: rest) m cores).read
      (Store.queryKeyOf k (next :: rest) hs)
      (.insert (Store.keyOf k (next :: rest) (core.hashes m)) core :: List.replicate n .pull) := by
  rw [innerCount, ofCores, Store.ofCores_concat] at hcount
  apply Move.exists_pulls_mem (Cursor.sits_insert (Cursor.sits_openAt _ _))
  exact Store.mem_remaining_insert hv (Store.filed_ofCores hv cores) (Store.atMost_ofCores cores) hroom
    hsub (Store.selectAmong_ne_nil_of_innerCount_put hcount)

end Index

/-- As long as a cursor is left undisturbed, it gives what the index offered when it was opened, and a
counted one gives the same and counts it. Pulls alone do not disturb a cursor, and on a flat index
nothing does. Otherwise a core that goes into an inner store which was there before, and has all its
hashes in the cursor's query, is given although it came late. -/
theorem Index.read_eq_firsts (i : Index) (key : Key) (moves : List Move) :
    (i.Undisturbed key moves →
      let given := Move.firsts (i.candidates key) (moves.countP Move.isPull)
      i.read key moves = given ∧ (i.readCounted key moves).1 = given ∧
        (i.readCounted key moves).2.consumed = given.countP Option.isSome) ∧
      ((∀ move ∈ moves, move.isPull = true) ∨ i.inner = [] → i.Undisturbed key moves) ∧
      ∀ m cores core hs, i = ofCores i.seed i.outermost i.inner m cores → i.inner ≠ [] →
        (∀ l ∈ i.outermost :: i.inner, l.validate = .ok ()) →
        (i.outermost.innermost i.inner).OffersAll (cores.length + 1) →
        key = Store.queryKeyOf i.outermost i.inner hs → core.hashes m ⊆ hs → core ∉ cores →
        (ofCores i.seed i.outermost i.inner m (cores ++ [core])).innerCount = i.innerCount →
        core ∉ i.candidates key ∧
          ∃ n, some core ∈ i.read key
            (.insert (Store.keyOf i.outermost i.inner (core.hashes m)) core ::
              List.replicate n .pull) := by
  refine ⟨fun h => ?_, ?_, ?_⟩
  · have hread := read_eq_firsts_of_undisturbed h
    obtain ⟨hvalues, hconsumed⟩ : (i.readCounted key moves).1 = i.read key moves ∧
        (i.readCounted key moves).2.consumed = 0 + (i.read key moves).countP Option.isSome :=
      Move.run_counted (i.counted key)
    rw [hvalues, hconsumed, hread, Nat.zero_add]
    exact ⟨rfl, rfl, rfl⟩
  · rintro (h | h)
    · exact Move.undisturbed_of_forall_isPull h
    · obtain ⟨seed, k, inner, store⟩ := i
      obtain rfl : inner = [] := h
      exact Move.undisturbed_flat
  · obtain ⟨seed, k, inner, store⟩ := i
    rintro m cores core hs hi hne hv hroom rfl hsub hcore hcount
    obtain ⟨next, rest, rfl⟩ := List.exists_cons_of_ne_nil hne
    rw [hi] at hcount ⊢
    refine ⟨fun hmem => hcore ?_, late_mem_read hv hroom hsub hcount⟩
    exact (Store.mem_contents_ofCores hv).mp (Store.mem_contents_of_mem_candidates hmem)

theorem Index.read_unaries :
    let i := ofCores 0 .list [.list] none [.unary 0 "x"]
    let key := Key.pair .flat .flat
    i.read key [.pull, .insert key (.unary 2 "a"), .pull] = [some (.unary 0 "x"), none] ∧
      ∃ n, some (.unary 2 "a") ∈ i.read key (.insert key (.unary 2 "a") :: List.replicate n .pull) := by
  have hne : ClauseSet.unary 2 "a" ∉ [ClauseSet.unary 0 "x"] := by
    rw [List.mem_singleton]
    intro h
    cases congrArg ClauseSet.clauses h
  obtain ⟨hread, -, hlate⟩ := read_eq_firsts (ofCores 0 .list [.list] none [.unary 0 "x"])
    (.pair .flat .flat) [.pull, .insert (.pair .flat .flat) (.unary 2 "a"), .pull]
  obtain ⟨-, hn⟩ := hlate none [.unary 0 "x"] (.unary 2 "a") ((ClauseSet.unary 2 "a").hashes none) rfl
    (List.cons_ne_nil _ _) (by decide) trivial rfl (List.Subset.refl _) hne rfl
  exact ⟨(hread ⟨⟨nofun, fun _ _ _ _ _ _ => trivial⟩, trivial⟩).1, hn⟩

theorem Index.read_late :
    (ofCores 0 .list [.list] none [.unary 0 "x"]).candidates (.pair .flat .flat) = [.unary 0 "x"] ∧
      (ofCores 0 .list [.list] none [.unary 0 "x"]).read (.pair .flat .flat)
        [.insert (.pair .flat .flat) (.unary 2 "a"), .pull, .pull] =
          [some (.unary 0 "x"), some (.unary 2 "a")] :=
  ⟨rfl, rfl⟩

end CoreReuse
