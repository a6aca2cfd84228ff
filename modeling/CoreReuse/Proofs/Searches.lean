import CoreReuse.Matching.Work
import CoreReuse.Proofs.Unguarded

namespace CoreReuse

namespace PollSource

variable {π : Type} [PollSource π]

def pollFor : Nat → π → Bool × π
  | 0, p => (false, p)
  | n + 1, p =>
    match poll p with
    | (true, p) => (true, p)
    | (false, p) => pollFor n p

def Quiet (p : π) : Prop := ∀ n, (pollFor n p).1 = false

theorem pollFor_add (n k : Nat) (p : π) :
    pollFor (n + k) p =
      match pollFor n p with
      | (true, p) => (true, p)
      | (false, p) => pollFor k p := by
  induction n generalizing p with
  | zero => simp [pollFor]
  | succ n ih =>
    rw [Nat.succ_add]
    simp only [pollFor]
    rcases poll p with ⟨_ | _, p⟩
    · exact ih p
    · rfl

theorem Quiet.pollFor {p : π} (h : Quiet p) (n : Nat) : Quiet (pollFor n p).2 := by
  intro k
  have hn := h n
  have hk := h (n + k)
  rw [pollFor_add] at hk
  rcases hp : PollSource.pollFor n p with ⟨_ | _, p'⟩
  · rw [hp] at hk
    exact hk
  · rw [hp] at hn
    cases hn

theorem quiet_none (now : Nat) : Quiet (⟨.none, now⟩ : Watch) := by
  intro n
  induction n with
  | zero => rfl
  | succ n ih => exact ih

end PollSource

open Hash PollSource

def Buckets.ofQuery (m : Option Nat) (query : ClauseSet) : Buckets :=
  .ofHashes (query.clauses.map (structural m))

namespace Work

variable {π : Type} {V : Vocabulary} {m : Option Nat} {query : ClauseSet}

structure Sound (V : Vocabulary) (m : Option Nat) (query : ClauseSet) (w : Work π) : Prop where
  hashes : ∀ hs, w.hashes = some hs → hs = query.clauses.map (structural m)
  buckets : ∀ bs, w.buckets = some bs → bs = .ofQuery m query
  core : w.core.Sound V m
  query : w.query.Sound V m

theorem sound_start (query : ClauseSet) {h : Hasher} (hs : h.Sound V m) (source : π) :
    (start h source).Sound V m query where
  core := hs
  query := by
    rw [start, hs.maxHeight_eq]
    exact Hasher.sound_ofMaxHeight V m
  hashes := nofun
  buckets := nofun

theorem Sound.coreAfter {w : Work π} (hw : w.Sound V m query) : w.coreAfter.Sound V m where
  maxHeight_eq := hw.core.maxHeight_eq
  memo := hw.core.memo
  calm hf := by
    rw [Work.coreAfter, hw.core.calm hf, hw.query.calm hf]
    rfl

theorem Sound.calm {w : Work π} (hw : w.Sound V m query) (hf : V.Fits m) :
    w.coreAfter.overflowed = false :=
  hw.coreAfter.calm hf

end Work

namespace Search

variable {π α β : Type} [PollSource π] {V : Vocabulary} {m : Option Nat} {query : ClauseSet}

def Computes (V : Vocabulary) (m : Option Nat) (query : ClauseSet) (s : Search π α) (a : α)
    (n : Nat) : Prop :=
  ∀ w : Work π, w.Sound V m query →
    (s.run w).1 = (bif (pollFor n w.source).1 then .error .interrupted else .ok a) ∧
      (s.run w).2.Sound V m query ∧ (s.run w).2.source = (pollFor n w.source).2

section Run

omit [PollSource π]

theorem run_bind (s : Search π α) (f : α → Search π β) (w : Work π) :
    (s >>= f).run w =
      match s.run w with
      | (.ok a, w) => (f a).run w
      | (.error e, w) => (.error e, w) := by
  simp only [run, ExceptT.run_bind, StateT.run_bind]
  rcases StateT.run (ExceptT.run s) w with ⟨_ | _, w⟩ <;> rfl

@[simp] theorem run_pure (a : α) (w : Work π) : (pure a : Search π α).run w = (.ok a, w) := rfl

@[simp] theorem run_get (w : Work π) : (get : Search π (Work π)).run w = (.ok w, w) := rfl

@[simp] theorem run_set (v w : Work π) : (set v : Search π PUnit).run w = (.ok ⟨⟩, v) := rfl

@[simp] theorem run_modify (f : Work π → Work π) (w : Work π) :
    (modify f : Search π PUnit).run w = (.ok ⟨⟩, f w) := rfl

@[simp] theorem run_throw (e : Interrupted) (w : Work π) :
    (throw e : Search π α).run w = (.error e, w) := rfl

theorem run_queryHashes_of_some {w : Work π} {hs : List UInt64} (h : w.hashes = some hs) :
    (queryHashes query : Search π (List UInt64)).run w = (.ok hs, w) := by
  simp only [queryHashes, run_bind, run_get, run_pure, h]

theorem run_queryHashes_of_none {w : Work π} (h : w.hashes = none) :
    (queryHashes query : Search π (List UInt64)).run w =
      (.ok (w.query.hashAll query.clauses).1, { w with
        query := (w.query.hashAll query.clauses).2
        hashes := some (w.query.hashAll query.clauses).1 }) := by
  simp only [queryHashes, run_bind, run_get, run_set, run_pure, h]

end Run

theorem computes_pure (a : α) : Computes V m query (pure a : Search π α) a 0 :=
  fun _ hw => ⟨rfl, hw, rfl⟩

theorem Computes.quiet {s : Search π α} {a : α} {n : Nat} (hs : Computes V m query s a n)
    {w : Work π} (hw : w.Sound V m query) (hq : Quiet w.source) : Quiet (s.run w).2.source := by
  rw [(hs w hw).2.2]
  exact hq.pollFor n

theorem Computes.bind {s : Search π α} {f : α → Search π β} {a : α} {b : β} {n k : Nat}
    (hs : Computes V m query s a n) (hf : Computes V m query (f a) b k) :
    Computes V m query (s >>= f) b (n + k) := by
  intro w hw
  obtain ⟨h1, h2, h3⟩ := hs w hw
  rw [run_bind, pollFor_add]
  rcases hr : s.run w with ⟨x, w'⟩
  rcases hp : pollFor n w.source with ⟨_ | _, p⟩ <;> rw [hr, hp] at h1 h3 <;> rw [hr] at h2
  · obtain rfl : x = .ok a := h1
    obtain rfl : w'.source = p := h3
    exact hf w' h2
  · obtain rfl : x = .error .interrupted := h1
    exact ⟨rfl, h2, h3⟩

theorem computes_poll : Computes V m query (poll : Search π Unit) () 1 := by
  intro w hw
  rcases hp : PollSource.poll w.source with ⟨_ | _, p⟩
  · have hr : (poll : Search π Unit).run w = (.ok (), { w with source := p }) := by
      simp [poll, run_bind, hp]
    rw [hr, pollFor, hp]
    exact ⟨rfl, ⟨hw.hashes, hw.buckets, hw.core, hw.query⟩, rfl⟩
  · have hr : (poll : Search π Unit).run w = (.error .interrupted, { w with source := p }) := by
      simp [poll, run_bind, hp]
    rw [hr, pollFor, hp]
    exact ⟨rfl, ⟨hw.hashes, hw.buckets, hw.core, hw.query⟩, rfl⟩

theorem computes_emit (e : Trace.Event) : Computes V m query (emit e : Search π Unit) () 0 :=
  fun _ hw => ⟨rfl, ⟨hw.hashes, hw.buckets, hw.core, hw.query⟩, rfl⟩

theorem computes_hashCore {t : Term} (ht : t ∈ V) :
    Computes V m query (hashCore t : Search π UInt64) (structural m t) 0 := by
  intro w hw
  obtain ⟨hx, hs⟩ := Hasher.hash_sound hw.core ht
  exact ⟨congrArg Except.ok hx, ⟨hw.hashes, hw.buckets, hs, hw.query⟩, rfl⟩

theorem computes_queryHashes (hq : ∀ t ∈ query.clauses, t ∈ V) :
    Computes V m query (queryHashes query : Search π (List UInt64))
      (query.clauses.map (structural m)) 0 := by
  intro w hw
  cases hh : w.hashes with
  | some hs =>
    rw [run_queryHashes_of_some hh, hw.hashes hs hh]
    exact ⟨rfl, hw, rfl⟩
  | none =>
    obtain ⟨hx, hs⟩ := Hasher.hashAll_sound query.clauses w.query hw.query hq
    rw [run_queryHashes_of_none hh, hx]
    exact ⟨rfl, ⟨fun _ h => (Option.some.inj h).symm, hw.buckets, hw.core, hs⟩, rfl⟩

theorem computes_queryBuckets (hq : ∀ t ∈ query.clauses, t ∈ V) :
    Computes V m query (queryBuckets query : Search π Buckets)
      (.ofQuery m query) 0 := by
  apply (computes_queryHashes hq).bind (k := 0)
  intro w hw
  cases hb : w.buckets with
  | some bs =>
    simp only [run_bind, run_get, hb]
    exact ⟨congrArg Except.ok (hw.buckets bs hb), hw, rfl⟩
  | none =>
    simp only [run_bind, run_get, run_modify, hb]
    exact ⟨rfl, ⟨hw.hashes, fun _ h => (Option.some.inj h).symm, hw.core, hw.query⟩, rfl⟩

theorem computes_unify {r : Renaming} {l t : Term} (hl : l ∈ V) (ht : t ∈ V) :
    Computes V m query (unify r l t : Search π (Option Renaming)) (Unifier.extend? r l t) 0 := by
  intro w hw
  have hu : Unifier.Ready V m true
      { bindings := r, guarded := true, left := w.core, right := w.query } :=
    ⟨rfl, fun _ => hw.core, fun _ => hw.query⟩
  have hx := Unifier.unify_eq_extend? hu (fun _ => hl) (fun _ => ht)
  have hs := (Unifier.unify_extends (s := {}) l t hu (fun _ => hl) (fun _ => ht)).ready
  exact ⟨congrArg Except.ok hx, ⟨hw.hashes, hw.buckets, hs.left rfl, hs.right rfl⟩, rfl⟩

theorem Computes.eq_of_ok {s : Search π α} {a b : α} {n : Nat} (hs : Computes V m query s a n)
    {w w' : Work π} (hw : w.Sound V m query) (hr : s.run w = (.ok b, w')) :
    b = a ∧ w'.Sound V m query := by
  obtain ⟨h1, h2, -⟩ := hs w hw
  rw [hr] at h1 h2
  refine ⟨?_, h2⟩
  cases hp : (pollFor n w.source).1 with
  | true =>
    rw [hp] at h1
    cases h1
  | false =>
    rw [hp] at h1
    exact Except.ok.inj h1

theorem Computes.ok_of_quiet {s : Search π α} {a : α} {n : Nat} (hs : Computes V m query s a n)
    {w : Work π} (hw : w.Sound V m query) (hq : Quiet w.source) : (s.run w).1 = .ok a := by
  rw [(hs w hw).1, hq n]
  rfl

def Yields (V : Vocabulary) (m : Option Nat) (query : ClauseSet) (s : Search π α) (Q : α → Prop) :
    Prop :=
  ∃ a n, Computes V m query s a n ∧ Q a

theorem Computes.yields {s : Search π α} {a : α} {n : Nat} (hs : Computes V m query s a n) :
    Yields V m query s (· = a) :=
  ⟨a, n, hs, rfl⟩

theorem yields_pure {a : α} {Q : α → Prop} (h : Q a) : Yields V m query (pure a : Search π α) Q :=
  ⟨a, 0, computes_pure a, h⟩

theorem Yields.bind {s : Search π α} {f : α → Search π β} {P : α → Prop} {Q : β → Prop}
    (hs : Yields V m query s P) (hf : ∀ a, P a → Yields V m query (f a) Q) :
    Yields V m query (s >>= f) Q := by
  obtain ⟨a, n, hs, ha⟩ := hs
  obtain ⟨b, k, hf, hb⟩ := hf a ha
  exact ⟨b, n + k, hs.bind hf, hb⟩

theorem Yields.mono {s : Search π α} {P Q : α → Prop} (hs : Yields V m query s P)
    (h : ∀ a, P a → Q a) : Yields V m query s Q := by
  obtain ⟨a, n, hs, ha⟩ := hs
  exact ⟨a, n, hs, h a ha⟩

end Search

end CoreReuse
