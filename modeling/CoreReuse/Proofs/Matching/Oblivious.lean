import CoreReuse.Proofs.Matching.Composed
import CoreReuse.Proofs.Searches

namespace CoreReuse

open PollSource

variable {π α β : Type} {V : Vocabulary} {m : Option Nat} {query : ClauseSet}

structure Work.Alike (V : Vocabulary) (m : Option Nat) (query : ClauseSet) (v w : Work π) : Prop where
  left : v.Sound V m query
  right : w.Sound V m query
  source_eq : v.source = w.source
  events_eq : v.events = w.events

theorem Work.alike_start (query : ClauseSet) {h h' : Hasher} (hs : h.Sound V m) (hs' : h'.Sound V m) (source : π) :
    Alike V m query (start h source) (start h' source) :=
  ⟨sound_start query hs source, sound_start query hs' source, rfl, rfl⟩

namespace Search

def Oblivious (V : Vocabulary) (m : Option Nat) (query : ClauseSet) (s : Search π α) : Prop :=
  ∀ v w : Work π, v.Alike V m query w →
    (s.run v).1 = (s.run w).1 ∧ (s.run v).2.Alike V m query (s.run w).2

theorem Oblivious.bind {s : Search π α} {f : α → Search π β} (hs : Oblivious V m query s)
    (hf : ∀ a, Oblivious V m query (f a)) : Oblivious V m query (s >>= f) := by
  intro v w h
  obtain ⟨hr, hw⟩ := hs v w h
  rw [run_bind, run_bind]
  rcases hv : s.run v with ⟨x, v'⟩
  rcases hw' : s.run w with ⟨y, w'⟩
  rw [hv, hw'] at hr hw
  obtain rfl : x = y := hr
  cases x with
  | error e => exact ⟨rfl, hw⟩
  | ok a => exact hf a v' w' hw

variable [PollSource π]

theorem Computes.oblivious {s : Search π α} {a : α} {n : Nat} (hs : Computes V m query s a n)
    (he : ∀ w : Work π, (s.run w).2.events = w.events) : Oblivious V m query s := by
  intro v w h
  obtain ⟨h1, h2, h3⟩ := hs v h.left
  obtain ⟨h1', h2', h3'⟩ := hs w h.right
  refine ⟨?_, h2, h2', ?_, ?_⟩
  · rw [h1, h1', h.source_eq]
  · rw [h3, h3', h.source_eq]
  · rw [he, he, h.events_eq]

theorem events_poll (w : Work π) : ((poll : Search π Unit).run w).2.events = w.events := by
  simp only [poll, run_bind, run_get, run_set]
  split
  · rfl
  · rfl

omit [PollSource π] in
theorem events_queryHashes (w : Work π) :
    ((queryHashes query : Search π (List UInt64)).run w).2.events = w.events := by
  cases hh : w.hashes with
  | some hs => rw [run_queryHashes_of_some hh]
  | none => rw [run_queryHashes_of_none hh]

omit [PollSource π] in
theorem events_queryBuckets (w : Work π) :
    ((queryBuckets query : Search π Buckets).run w).2.events = w.events := by
  have he : ((queryHashes query : Search π (List UInt64)).run w).2.events = w.events := events_queryHashes w
  rw [queryBuckets, run_bind]
  rcases hr : (queryHashes query : Search π (List UInt64)).run w with ⟨e | hs, v⟩ <;> rw [hr] at he
  · exact he
  · cases hb : v.buckets with
    | some bs => simpa only [run_bind, run_get, run_pure, hb] using he
    | none => simpa only [run_bind, run_get, run_modify, run_pure, hb] using he

theorem composes_oblivious (hq : ∀ q ∈ query.clauses, q ∈ V) :
    Composes (· ∈ V) query fun _ (s : Search π _) => Oblivious V m query s where
  pure a := fun _ _ h => ⟨rfl, h⟩
  bind hs hf := hs.bind hf
  poll := computes_poll.oblivious events_poll
  emit e := fun v w h => by
    obtain ⟨_, h1, _⟩ := computes_emit (π := π) e v h.left
    obtain ⟨_, h2, _⟩ := computes_emit (π := π) e w h.right
    exact ⟨rfl, h1, h2, h.source_eq, congrArg (· ++ [e]) h.events_eq⟩
  hashCore ht := (computes_hashCore ht).oblivious fun _ => rfl
  queryHashes := (computes_queryHashes hq).oblivious events_queryHashes
  queryBuckets := (computes_queryBuckets hq).oblivious events_queryBuckets
  unify hl ht := (computes_unify hl ht).oblivious fun _ => rfl

end Search

end CoreReuse
