import CoreReuse.Hash.Content
import CoreReuse.Word
import Std.Data.TreeMap

/-!
A hasher computes structural hashes and remembers, by node, those that were not cut off. A
remembered hash is used again only at a depth where nothing under the node would be cut off, so
what a hasher has seen before never shows in its answers.
-/

namespace CoreReuse

structure Fingerprint where
  hash : UInt64
  height : Nat
deriving DecidableEq, Repr

structure Subtree where
  hash : UInt64
  height : Nat
  full : Bool
deriving DecidableEq, Repr

namespace Subtree

def ofNode (t : Term) : Subtree := ⟨Hash.content t, 1, true⟩

def cutOff (t : Term) : Subtree := ⟨Hash.content t, 1, t.isLeaf⟩

def ofFingerprint (f : Fingerprint) : Subtree := ⟨f.hash, f.height, true⟩

def absorb (parent child : Subtree) : Subtree where
  hash := Hash.combine [parent.hash, child.hash]
  height := max parent.height (child.height + 1)
  full := parent.full && child.full

end Subtree

structure Hasher where
  maxHeight : Option Nat
  memo : Std.TreeMap NodeId Fingerprint := ∅
  /-- A sum of heights was too large for a word when a remembered fingerprint was tested. -/
  overflowed : Bool := false

namespace Hasher

def defaultMaxHeight : Nat := 7

def ofMaxHeight (maxHeight : Option Nat) : Hasher := { maxHeight }

def unlimited : Hasher := ofMaxHeight none

def memoSize (h : Hasher) : Nat := h.memo.size

def clear (h : Hasher) : Hasher := { h with memo := ∅ }

def remember (h : Hasher) (n : NodeId) (f : Fingerprint) : Hasher :=
  { h with memo := h.memo.insert n f }

def lookup? (h : Hasher) (depth : Nat) (n : NodeId) : Option Fingerprint × Hasher :=
  match h.memo[n]?, h.maxHeight with
  | none, _ => (none, h)
  | some f, none => (some f, h)
  | some f, some m =>
    let tooLarge := wordLimit ≤ m + 2 || wordLimit ≤ f.height + depth
    (if m + 2 < f.height + depth then none else some f,
      { h with overflowed := h.overflowed || tooLarge })

def visit (h : Hasher) (depth : Nat) (t : Term) (expand : Hasher → Subtree × Hasher) :
    Subtree × Hasher :=
  match h.lookup? depth t.node with
  | (some f, h) => (.ofFingerprint f, h)
  | (none, h) => if Hash.expands h.maxHeight depth then expand h else (.cutOff t, h)

def finish (n : NodeId) (done : Subtree × Hasher) : Subtree × Hasher :=
  (done.1, if done.1.full then done.2.remember n ⟨done.1.hash, done.1.height⟩ else done.2)

mutual

def expand (depth : Nat) : Term → Hasher → Subtree × Hasher
  | .app n head args, h => finish n (absorbAll (depth + 1) args (.ofNode (.app n head args)) h)
  | .quantified n q bounds body, h =>
    let (child, h) := h.visit (depth + 1) body (expand (depth + 1) body)
    finish n ((Subtree.ofNode (.quantified n q bounds body)).absorb child, h)
  | .lambda n indices body, h =>
    let (child, h) := h.visit (depth + 1) body (expand (depth + 1) body)
    finish n ((Subtree.ofNode (.lambda n indices body)).absorb child, h)
  | .literal n ty text, h => finish n (.ofNode (.literal n ty text), h)

def absorbAll (depth : Nat) : List Term → Subtree → Hasher → Subtree × Hasher
  | [], acc, h => (acc, h)
  | t :: ts, acc, h =>
    let (child, h) := h.visit depth t (expand depth t)
    absorbAll depth ts (acc.absorb child) h

end

def hash (h : Hasher) (t : Term) : UInt64 × Hasher :=
  match h.lookup? 1 t.node with
  | (some f, h) => (f.hash, h)
  | (none, h) =>
    let (done, h) := expand 1 t h
    (done.hash, h)

def hashAll (h : Hasher) : List Term → List UInt64 × Hasher
  | [] => ([], h)
  | t :: ts =>
    let (x, h) := h.hash t
    let (xs, h) := h.hashAll ts
    (x :: xs, h)

end Hasher

end CoreReuse
