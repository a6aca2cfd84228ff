import CoreReuse.Proofs.Traversal

namespace CoreReuse

open Hash

structure Overflow where
  left : Nat
  right : Nat
deriving DecidableEq, Repr

def checkedSum (a b : Nat) : Except Overflow Nat :=
  if a + b < wordLimit then .ok (a + b) else .error ⟨a, b⟩

theorem checkedSum_of_lt {a b : Nat} (h : a + b < wordLimit) : checkedSum a b = .ok (a + b) := if_pos h

theorem checkedSum_of_le {a b : Nat} (h : wordLimit ≤ a + b) : checkedSum a b = .error ⟨a, b⟩ :=
  if_neg (Nat.not_lt.mpr h)

theorem checkedSum_eq_ok {a b n : Nat} (h : checkedSum a b = .ok n) : n = a + b ∧ a + b < wordLimit := by
  unfold checkedSum at h
  split at h
  · next hlt => exact ⟨(Except.ok.inj h).symm, hlt⟩
  · cases h

theorem Except.bind_eq_ok {ε α β : Type} {x : Except ε α} {f : α → Except ε β} {b : β}
    (h : (x >>= f) = .ok b) : ∃ a, x = .ok a ∧ f a = .ok b := by
  cases x with
  | error e => cases h
  | ok a => exact ⟨a, rfl, h⟩

def Subtree.checkedAbsorb (parent child : Subtree) : Except Overflow Subtree := do
  let above ← checkedSum child.height 1
  return ⟨combine [parent.hash, child.hash], max parent.height above, parent.full && child.full⟩

def Hasher.checkedLookup? (h : Hasher) (depth : Nat) (n : NodeId) : Except Overflow (Option Fingerprint) :=
  match h.memo[n]?, h.maxHeight with
  | none, _ => return none
  | some f, none => return some f
  | some f, some m => do
    let reach ← checkedSum f.height depth
    let limit ← checkedSum m 2
    return if limit < reach then none else some f

def Frame.checkedReceive (f : Frame) : Option Subtree → Except Overflow Frame
  | none => return f
  | some child => return { f with gathered := ← f.gathered.checkedAbsorb child }

namespace Traversal

def checkedEnter (frame : Frame) (below : List Frame) (child : Term) (h : Hasher) :
    Except Overflow Traversal := do
  let depth ← checkedSum (below.length + 1) 1
  match ← h.checkedLookup? depth child.node with
  | some f => return ⟨frame :: below, some (.ofFingerprint f), h⟩
  | none =>
    if expands h.maxHeight depth then return ⟨.ofTerm child :: frame :: below, none, h⟩
    else return ⟨frame :: below, some (.cutOff child), h⟩

def checkedStep (s : Traversal) : Except Overflow Traversal :=
  match s.stack with
  | [] => return s
  | top :: below => do
    let frame ← top.checkedReceive s.returned
    match frame.rest with
    | [] =>
      let (done, h) := Hasher.finish frame.node (frame.gathered, s.hasher)
      return ⟨below, some done, h⟩
    | child :: rest => checkedEnter { frame with rest } below child s.hasher

def checkedRun : Nat → Traversal → Except Overflow Traversal
  | 0, s => return s
  | n + 1, s => do checkedRun n (← s.checkedStep)

end Traversal

namespace Hasher

def checkedHash (h : Hasher) (t : Term) : Except Overflow (UInt64 × Hasher) := do
  match ← h.checkedLookup? 1 t.node with
  | some f => return (f.hash, h)
  | none =>
    let s ← (Traversal.start t h).checkedRun (2 * t.size)
    return (s.returned.elim 0 Subtree.hash, s.hasher)

def checkedHashAll (h : Hasher) : List Term → Except Overflow (List UInt64 × Hasher)
  | [] => return ([], h)
  | t :: ts => do
    let (x, h) ← h.checkedHash t
    let (xs, h) ← h.checkedHashAll ts
    return (x :: xs, h)

end Hasher

variable {h : Hasher} {s u : Traversal} {t : Term} {n : Nat}

theorem Hasher.lookup?_of_checkedLookup? {depth : Nat} {k : NodeId} {found : Option Fingerprint}
    (hc : h.checkedLookup? depth k = .ok found) : h.lookup? depth k = (found, h) := by
  unfold checkedLookup? at hc
  split at hc
  · next hf =>
    cases hc
    exact lookup?_of_none hf
  · next hf hm =>
    cases hc
    exact lookup?_unbounded hf hm
  · next f m hf hm =>
    obtain ⟨reach, h1, hc⟩ := Except.bind_eq_ok hc
    obtain ⟨limit, h2, hc⟩ := Except.bind_eq_ok hc
    obtain ⟨rfl, hreach⟩ := checkedSum_eq_ok h1
    obtain ⟨rfl, hlimit⟩ := checkedSum_eq_ok h2
    cases hc
    rw [lookup?_bounded hf hm, decide_eq_false (Nat.not_le.mpr hreach),
      decide_eq_false (Nat.not_le.mpr hlimit)]
    simp

theorem Frame.receive_of_checkedReceive {f g : Frame} {returned : Option Subtree}
    (hc : f.checkedReceive returned = .ok g) : f.receive returned = g := by
  cases returned with
  | none =>
    cases hc
    rfl
  | some child =>
    obtain ⟨gathered, h1, hc⟩ := Except.bind_eq_ok hc
    obtain ⟨above, h2, h1⟩ := Except.bind_eq_ok h1
    obtain ⟨rfl, -⟩ := checkedSum_eq_ok h2
    cases h1
    cases hc
    rfl

namespace Traversal

theorem enter_of_checkedEnter {frame : Frame} {below : List Frame} {child : Term}
    (hc : checkedEnter frame below child h = .ok u) : enter frame below child h = u := by
  obtain ⟨depth, h1, hc⟩ := Except.bind_eq_ok hc
  obtain ⟨found, h2, hc⟩ := Except.bind_eq_ok hc
  obtain ⟨rfl, -⟩ := checkedSum_eq_ok h1
  have hl := Hasher.lookup?_of_checkedLookup? h2
  unfold enter
  rw [hl]
  cases found with
  | some f =>
    cases hc
    rfl
  | none =>
    dsimp only at hc ⊢
    split at hc
    · next hx =>
      cases hc
      exact if_pos hx
    · next hx =>
      cases hc
      exact if_neg hx

theorem step_of_checkedStep (hc : s.checkedStep = .ok u) : s.step = u := by
  obtain ⟨stack, returned, h⟩ := s
  cases stack with
  | nil => exact Except.ok.inj hc
  | cons top below =>
    obtain ⟨frame, h1, hc⟩ := Except.bind_eq_ok hc
    simp only [step, Frame.receive_of_checkedReceive h1]
    cases hrest : frame.rest with
    | nil =>
      simp only [hrest] at hc ⊢
      exact Except.ok.inj hc
    | cons child rest =>
      simp only [hrest] at hc ⊢
      exact enter_of_checkedEnter hc

theorem iterate_of_checkedRun (hc : s.checkedRun n = .ok u) : step^[n] s = u := by
  induction n generalizing s with
  | zero =>
    cases hc
    rfl
  | succ n ih =>
    obtain ⟨v, h1, hc⟩ := Except.bind_eq_ok hc
    rw [Function.iterate_succ_apply, step_of_checkedStep h1]
    exact ih hc

end Traversal

namespace Hasher

theorem hash_of_iterate (hl : h.lookup? 1 t.node = (none, h)) :
    h.hash t = ((Traversal.step^[2 * t.size] (.start t h)).returned.elim 0 Subtree.hash,
      (Traversal.step^[2 * t.size] (.start t h)).hasher) := by
  have hloop := h.loops_hash t
  rw [Loops, hl] at hloop
  obtain ⟨done, hx, hend⟩ := hloop
  rw [hend _ (Nat.le_refl _)]
  exact Prod.ext hx rfl

theorem hash_of_checkedHash {r : UInt64 × Hasher} (hc : h.checkedHash t = .ok r) : h.hash t = r := by
  obtain ⟨found, h1, hc⟩ := Except.bind_eq_ok hc
  have hl := lookup?_of_checkedLookup? h1
  cases found with
  | some f =>
    cases hc
    rw [hash, hl]
  | none =>
    obtain ⟨s, h2, hc⟩ := Except.bind_eq_ok hc
    cases hc
    rw [hash_of_iterate hl, Traversal.iterate_of_checkedRun h2]

end Hasher

end CoreReuse
