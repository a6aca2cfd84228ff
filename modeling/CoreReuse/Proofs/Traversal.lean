import CoreReuse.Proofs.Fingerprints
import CoreReuse.Proofs.Numbering
import Mathlib.Logic.Function.Iterate

/-!
Hashing by a loop, which keeps the nodes on the way down to where it is on a stack. It ends within two
rounds for each node, with the hash and the memory that the recursion has.
-/

namespace CoreReuse

open Hash

structure Frame where
  node : NodeId
  gathered : Subtree
  rest : List Term

namespace Frame

def ofTerm (t : Term) : Frame := ⟨t.node, .ofNode t, t.children⟩

def receive (f : Frame) (returned : Option Subtree) : Frame :=
  { f with gathered := returned.elim f.gathered f.gathered.absorb }

end Frame

structure Traversal where
  stack : List Frame
  returned : Option Subtree
  hasher : Hasher

namespace Traversal

variable {s u v : Traversal} {t : Term} {m n k : Nat}

def start (t : Term) (h : Hasher) : Traversal := ⟨[.ofTerm t], none, h⟩

def enter (frame : Frame) (below : List Frame) (child : Term) (h : Hasher) : Traversal :=
  match h.lookup? (below.length + 2) child.node with
  | (some f, h) => ⟨frame :: below, some (.ofFingerprint f), h⟩
  | (none, h) =>
    if expands h.maxHeight (below.length + 2) then ⟨.ofTerm child :: frame :: below, none, h⟩
    else ⟨frame :: below, some (.cutOff child), h⟩

def step (s : Traversal) : Traversal :=
  match s.stack with
  | [] => s
  | top :: below =>
    let frame := top.receive s.returned
    match frame.rest with
    | [] =>
      let (done, h) := Hasher.finish frame.node (frame.gathered, s.hasher)
      ⟨below, some done, h⟩
    | child :: rest => enter { frame with rest } below child s.hasher

def Leads (n : Nat) (s u : Traversal) : Prop := ∃ k ≤ n, step^[k] s = u

theorem Leads.refl (n : Nat) (s : Traversal) : Leads n s s := ⟨0, Nat.zero_le n, rfl⟩

theorem Leads.trans (h : Leads m s u) (h' : Leads n u v) : Leads (m + n) s v := by
  obtain ⟨j, hj, rfl⟩ := h
  obtain ⟨k, hk, rfl⟩ := h'
  exact ⟨k + j, by omega, Function.iterate_add_apply step k j s⟩

theorem Leads.head (h : Leads n s.step u) : Leads (n + 1) s u := by
  obtain ⟨k, hk, rfl⟩ := h
  exact ⟨k + 1, by omega, Function.iterate_succ_apply step k s⟩

theorem Leads.mono (h : Leads m s u) (hn : m ≤ n) : Leads n s u := by
  obtain ⟨k, hk, hu⟩ := h
  exact ⟨k, by omega, hu⟩

theorem iterate_of_stack_eq_nil (hs : s.stack = []) (k : Nat) : step^[k] s = s := by
  have hfix : s.step = s := by simp only [step, hs]
  exact Function.iterate_fixed hfix k

theorem Leads.ends (h : Leads n s u) (hu : u.stack = []) (hk : n ≤ k) : step^[k] s = u := by
  obtain ⟨j, hj, rfl⟩ := h
  rw [show k = (k - j) + j by omega, Function.iterate_add_apply]
  exact iterate_of_stack_eq_nil hu (k - j)

def popped (below : List Frame) (done : Subtree × Hasher) : Traversal := ⟨below, some done.1, done.2⟩

def Completes (t : Term) : Prop :=
  ∀ below h, Leads (2 * Term.sizes t.children + 1) ⟨.ofTerm t :: below, none, h⟩
    (popped below (Hasher.expand (below.length + 1) t h))

theorem enter_leads (ht : Completes t) (frame : Frame) (below : List Frame) (h : Hasher) :
    Leads (2 * Term.sizes t.children + 1) (enter frame below t h)
      (popped (frame :: below)
        (h.visit (below.length + 2) t (Hasher.expand (below.length + 2) t))) := by
  unfold enter Hasher.visit
  rcases h.lookup? (below.length + 2) t.node with ⟨_ | f, h'⟩
  · by_cases hx : expands h'.maxHeight (below.length + 2) = true
    · simp only [hx, if_true]
      exact ht (frame :: below) h'
    · simp only [hx, Bool.false_eq_true, if_false]
      exact .refl _ _
  · exact .refl _ _

theorem size_eq_sizes_children (t : Term) : t.size = Term.sizes t.children + 1 := by
  cases t <;> simp [Term.size, Term.sizes, Term.children]

theorem gather_leads (n : NodeId) (below : List Frame) :
    ∀ (ts : List Term) (acc : Subtree) (returned : Option Subtree) (h : Hasher),
      (∀ t ∈ ts, Completes t) →
      Leads (2 * Term.sizes ts + 1) ⟨⟨n, acc, ts⟩ :: below, returned, h⟩
        (popped below (Hasher.finish n
          (Hasher.absorbAll (below.length + 2) ts (returned.elim acc acc.absorb) h)))
  | [], acc, returned, h, _ => (Leads.refl 0 _).head
  | t :: ts, acc, returned, h, hts => by
    have hchild := enter_leads (hts t List.mem_cons_self)
      ⟨n, returned.elim acc acc.absorb, ts⟩ below h
    have hrest := gather_leads n below ts (returned.elim acc acc.absorb)
      (some (h.visit (below.length + 2) t (Hasher.expand (below.length + 2) t)).1)
      (h.visit (below.length + 2) t (Hasher.expand (below.length + 2) t)).2
      fun s hs => hts s (List.mem_cons_of_mem t hs)
    have hall : Leads _ ⟨⟨n, acc, t :: ts⟩ :: below, returned, h⟩ _ := (hchild.trans hrest).head
    refine hall.mono ?_
    rw [Term.sizes, size_eq_sizes_children]
    omega

theorem expand_eq_finish (depth : Nat) (t : Term) (h : Hasher) :
    Hasher.expand depth t h =
      Hasher.finish t.node (Hasher.absorbAll (depth + 1) t.children (.ofNode t) h) := by
  cases t <;> rfl

theorem completes_of_children (ht : ∀ c ∈ t.children, Completes c) : Completes t := by
  intro below h
  rw [expand_eq_finish]
  exact gather_leads t.node below t.children (.ofNode t) none h ht

theorem completes (t : Term) : Completes t := by
  induction t with
  | app n f as ih => exact completes_of_children ih
  | quantified n q bs b ih => exact completes_of_children (List.forall_mem_singleton.mpr ih)
  | lambda n is b ih => exact completes_of_children (List.forall_mem_singleton.mpr ih)
  | literal n ty x => exact completes_of_children nofun

end Traversal

def Hasher.Loops (h : Hasher) (t : Term) (x : UInt64) (h' : Hasher) : Prop :=
  match h.lookup? 1 t.node with
  | (some f, looked) => x = f.hash ∧ h' = looked
  | (none, looked) => ∃ done : Subtree, x = done.hash ∧
    ∀ k, 2 * t.size ≤ k → Traversal.step^[k] (.start t looked) = ⟨[], some done, h'⟩

theorem Hasher.loops_hash (h : Hasher) (t : Term) : h.Loops t (h.hash t).1 (h.hash t).2 := by
  unfold Loops Hasher.hash
  rcases h.lookup? 1 t.node with ⟨_ | f, looked⟩
  · refine ⟨(expand 1 t looked).1, rfl, fun k hk => ?_⟩
    have hends := Traversal.completes t [] looked
    refine hends.ends rfl ?_
    rw [Traversal.size_eq_sizes_children] at hk
    omega
  · exact ⟨rfl, rfl⟩

end CoreReuse
