import CoreReuse.Proofs.Cache.Rounds
import CoreReuse.Proofs.Index.Snapshots

/-!
Feeds of candidates. A round takes candidates from a feed one by one, and drops the feed when it ends,
however it ends. A feed that counts gives what the feed in it gives, and when it is dropped it has counted
what the round took.
-/

namespace CoreReuse

open Hash Search PollSource

structure Feed (γ : Type) where
  pull : γ → Option ClauseSet × γ
  left : γ → List ClauseSet
  takes : ∀ c, (pull c).1 = (left c).head? ∧ left (pull c).2 = (left c).tail

structure Dropped (γ π : Type) where
  answer : Except Interrupted (Option ClauseSet)
  feed : γ
  pulled : List ClauseSet
  work : Work π

namespace Feed

variable {γ π : Type} [PollSource π] {f : Feed γ} {c c' : γ} {core query : ClauseSet} {t : Tester}
variable {w : Work π} {V : Vocabulary} {m : Option Nat}

theorem cases (f : Feed γ) (c : γ) :
    (∃ c', f.pull c = (none, c') ∧ f.left c = []) ∨
      ∃ core c', f.pull c = (some core, c') ∧ f.left c = core :: f.left c' :=
  Visit.Takes.cases (fun (_ : Unit) c => f.takes c) () c

theorem left_of_pull (h : f.pull c = (some core, c')) : f.left c = core :: f.left c' := by
  rcases f.cases c with ⟨_, hp, -⟩ | ⟨_, _, hp, hl⟩
  · cases hp.symm.trans h
  · cases hp.symm.trans h
    exact hl

theorem length_left_lt (h : f.pull c = (some core, c')) : (f.left c').length < (f.left c).length := by
  rw [left_of_pull h]
  exact Nat.lt_succ_self _

theorem left_of_pull_none (h : f.pull c = (none, c')) : f.left c = [] := by
  rcases f.cases c with ⟨_, _, hl⟩ | ⟨_, _, hp, -⟩
  · exact hl
  · cases hp.symm.trans h

theorem induct (f : Feed γ) {P : γ → Prop} (ended : ∀ c c', f.pull c = (none, c') → P c)
    (taken : ∀ c core c', f.pull c = (some core, c') → P c' → P c) (c : γ) : P c := by
  -- The induction is on what is left, of which a pull takes the first.
  induction hl : f.left c generalizing c with
  | nil =>
    rcases f.cases c with ⟨c', hp, -⟩ | ⟨core, c', -, h⟩
    · exact ended c c' hp
    · cases hl.symm.trans h
  | cons core cores ih =>
    rcases f.cases c with ⟨c', -, h⟩ | ⟨core', c', hp, h⟩
    · cases hl.symm.trans h
    · exact taken c core' c' hp (ih c' (List.cons.inj (h.symm.trans hl)).2)

def testEach (f : Feed γ) (t : Tester) (query : ClauseSet) (c : γ) (w : Work π) : Dropped γ π :=
  match _ : f.pull c with
  | (none, c) => ⟨.ok none, c, [], w⟩
  | (some core, c') =>
    match (IndexedCache.test t query core).run w with
    | (.ok true, w) => ⟨.ok (some core), c', [core], w⟩
    | (.ok false, w) =>
      let d := f.testEach t query c' w
      { d with pulled := core :: d.pulled }
    | (.error e, w) => ⟨.error e, c', [core], w⟩
termination_by (f.left c).length
decreasing_by exact length_left_lt ‹_›

theorem testEach_none (h : f.pull c = (none, c')) : f.testEach t query c w = ⟨.ok none, c', [], w⟩ := by
  rw [testEach]
  split
  · next h' => cases h.symm.trans h'; rfl
  · next h' => cases h.symm.trans h'

theorem testEach_some (h : f.pull c = (some core, c')) :
    f.testEach t query c w =
      match (IndexedCache.test t query core).run w with
      | (.ok true, w) => ⟨.ok (some core), c', [core], w⟩
      | (.ok false, w) =>
        { f.testEach t query c' w with pulled := core :: (f.testEach t query c' w).pulled }
      | (.error e, w) => ⟨.error e, c', [core], w⟩ := by
  rw [testEach]
  split
  · next h' => cases h.symm.trans h'
  · next h' => cases h.symm.trans h'; rfl

theorem testAll_left (c : γ) (n : Nat) (w : Work π) :
    IndexedCache.testAll t query (f.left c) n w =
      ⟨(f.testEach t query c w).answer, n + (f.testEach t query c w).pulled.length,
        (f.testEach t query c w).work⟩ := by
  induction c using f.induct generalizing n w with
  | ended c c' hp =>
    rw [left_of_pull_none hp, testEach_none hp]
    rfl
  | taken c core c' hp ih =>
    rw [left_of_pull hp, testEach_some hp, IndexedCache.testAll]
    rcases (IndexedCache.test t query core).run w with ⟨_ | _ | _, v⟩
    · rfl
    · simp only [ih, List.length_cons, Nat.add_assoc, Nat.add_comm 1]
    · rfl

theorem pulled_append_left (f : Feed γ) (t : Tester) (query : ClauseSet) (c : γ) (w : Work π) :
    (f.testEach t query c w).pulled ++ f.left (f.testEach t query c w).feed = f.left c := by
  induction c using f.induct generalizing w with
  | ended c c' hp =>
    have hend := (f.takes c).2
    rw [hp, left_of_pull_none hp] at hend
    rw [testEach_none hp, left_of_pull_none hp]
    exact hend
  | taken c core c' hp ih =>
    rw [left_of_pull hp, testEach_some hp]
    rcases (IndexedCache.test t query core).run w with ⟨_ | _ | _, v⟩
    · rfl
    · exact congrArg (core :: ·) (ih v)
    · rfl

theorem testEach_first {p : ClauseSet → Bool} (hq : ∀ q ∈ query.clauses, q ∈ V) (c : γ)
    (hc : ∀ core ∈ f.left c, ∀ s ∈ core.clauses, s ∈ V)
    (hp : ∀ core ∈ f.left c, p core = true ↔ t.Admits core.clauses query.clauses)
    (hw : w.Sound V m query) :
    (∀ core, (f.testEach t query c w).answer = .ok (some core) →
      (f.testEach t query c w).pulled.length = (f.left c).findIdx p + 1 ∧
        (f.testEach t query c w).pulled.length ≤ (f.left c).length) ∧
    ((f.testEach t query c w).answer = .ok none →
      (f.testEach t query c w).pulled.length = (f.left c).length ∧ ∀ core ∈ f.left c, ¬ p core = true) := by
  induction c using f.induct generalizing w with
  | ended c c' hpull =>
    rw [testEach_none hpull, left_of_pull_none hpull]
    exact ⟨nofun, fun _ => ⟨rfl, nofun⟩⟩
  | taken c core c' hpull ih =>
    rw [left_of_pull hpull] at hc hp
    obtain ⟨hcore, hcores⟩ := List.forall_mem_cons.mp hc
    obtain ⟨hpcore, hpcores⟩ := List.forall_mem_cons.mp hp
    obtain ⟨b, k, hk, hb⟩ := IndexedCache.test_yields (π := π) (t := t) (m := m) hcore hq
    have hbp : b = p core := Bool.eq_iff_iff.mpr (hb.trans hpcore.symm)
    have hs := (hk w hw).2.1
    have heq : ∀ a v, (IndexedCache.test t query core).run w = (.ok a, v) → a = b :=
      fun a v h => (hk.eq_of_ok hw h).1
    rw [left_of_pull hpull, testEach_some hpull, List.findIdx_cons, ← hbp]
    rcases hr : (IndexedCache.test t query core).run w with ⟨e | a, v⟩ <;> rw [hr] at hs
    · exact ⟨nofun, nofun⟩
    · obtain rfl := heq a v hr
      cases a with
      | true => exact ⟨fun _ _ => ⟨rfl, Nat.succ_le_succ (Nat.zero_le _)⟩, nofun⟩
      | false =>
        obtain ⟨hhit, hmiss⟩ := ih hcores hpcores hs
        refine ⟨fun d ha => ?_, fun ha => ?_⟩
        · obtain ⟨h1, h2⟩ := hhit d ha
          exact ⟨congrArg (· + 1) h1, Nat.succ_le_succ h2⟩
        · obtain ⟨h1, h2⟩ := hmiss ha
          exact ⟨congrArg (· + 1) h1, List.forall_mem_cons.mpr ⟨by simp [← hbp], h2⟩⟩

end Feed

theorem Counted.pull_eq (seed : UInt64) (rest : List FlatKind) (store : Store rest) (c : Counted rest) :
    Counted.pull seed rest store c = ((Cursor.pull seed rest store c.cursor).1,
      ⟨(Cursor.pull seed rest store c.cursor).2,
        c.consumed + (Cursor.pull seed rest store c.cursor).1.elim 0 fun _ => 1⟩) := by
  unfold Counted.pull
  rcases Cursor.pull seed rest store c.cursor with ⟨_ | core, cursor⟩
  · rfl
  · rfl

namespace Index

variable {π : Type} [PollSource π]

def feed (i : Index) : Feed (Cursor i.inner) where
  pull := Cursor.pull i.seed i.inner i.store
  left := Cursor.remaining i.seed i.inner i.store
  takes := Cursor.pull_takes i.inner i.store

def countedFeed (i : Index) : Feed (Counted i.inner) where
  pull := Counted.pull i.seed i.inner i.store
  left c := i.feed.left c.cursor
  takes c := by
    rw [Counted.pull_eq]
    exact i.feed.takes c.cursor

theorem feed_left_cursor (i : Index) (key : Key) : i.feed.left (i.cursor key) = i.candidates key :=
  Cursor.remaining_openAt key i.store

theorem countedFeed_pull (i : Index) {c c' : Cursor i.inner} {core? : Option ClauseSet}
    (h : i.feed.pull c = (core?, c')) (n : Nat) :
    i.countedFeed.pull ⟨c, n⟩ = (core?, ⟨c', n + core?.elim 0 fun _ => 1⟩) := by
  change Cursor.pull i.seed i.inner i.store c = _ at h
  exact (Counted.pull_eq _ _ _ _).trans (by rw [h])

theorem testEach_countedFeed (i : Index) (t : Tester) (query : ClauseSet) (c : Cursor i.inner) (n : Nat)
    (w : Work π) :
    i.countedFeed.testEach t query ⟨c, n⟩ w =
      let d := i.feed.testEach t query c w
      ⟨d.answer, ⟨d.feed, n + d.pulled.length⟩, d.pulled, d.work⟩ := by
  induction c using i.feed.induct generalizing n w with
  | ended c c' hp =>
    rw [Feed.testEach_none (i.countedFeed_pull hp n), Feed.testEach_none hp]
    rfl
  | taken c core c' hp ih =>
    rw [Feed.testEach_some (i.countedFeed_pull hp n), Feed.testEach_some hp]
    rcases (IndexedCache.test t query core).run w with ⟨_ | _ | _, v⟩
    · rfl
    · simp only [ih, Option.elim_some, List.length_cons, Nat.add_assoc, Nat.add_comm 1]
    · rfl

end Index

end CoreReuse
