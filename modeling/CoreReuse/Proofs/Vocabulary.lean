import CoreReuse.Hash.Hasher

/-!
Vocabularies: the nodes that a program has built. Node numbers are never given out twice, so nodes
of one vocabulary with equal numbers are equal. The hashers that matter are those that have only
hashed terms of a vocabulary.
-/

namespace CoreReuse

structure Vocabulary where
  Has : Term → Prop
  child : ∀ {s t : Term}, Has t → s ∈ t.children → Has s
  unique : ∀ {s t : Term}, Has s → Has t → s.node = t.node → s = t

namespace Vocabulary

instance : Membership Term Vocabulary := ⟨Has⟩

def empty : Vocabulary := ⟨fun _ => False, nofun, nofun⟩

variable {V : Vocabulary} {s t : Term}

theorem mem_of_mem_children (ht : t ∈ V) (hs : s ∈ t.children) : s ∈ V := V.child ht hs

theorem eq_of_node_eq (hs : s ∈ V) (ht : t ∈ V) (h : s.node = t.node) : s = t := V.unique hs ht h

theorem body_quantified {n : NodeId} {q : Quantifier} {bs : List Decl} {b : Term}
    (h : Term.quantified n q bs b ∈ V) : b ∈ V :=
  mem_of_mem_children h (by simp [Term.children])

theorem body_lambda {n : NodeId} {is : List Decl} {b : Term} (h : Term.lambda n is b ∈ V) :
    b ∈ V :=
  mem_of_mem_children h (by simp [Term.children])

theorem args_app {n : NodeId} {f : Decl} {as : List Term} (h : Term.app n f as ∈ V) :
    ∀ a ∈ as, a ∈ V :=
  fun _ ha => mem_of_mem_children h ha

/-- The sums that a hasher with this bound forms on these nodes are words. -/
def Fits (V : Vocabulary) (maxHeight : Option Nat) : Prop :=
  ∀ m, maxHeight = some m → m + 2 < wordLimit ∧ ∀ t ∈ V, t.height + 1 < wordLimit

end Vocabulary

/-- A hasher with this bound that has hashed nodes of a vocabulary, and may have been cleared. -/
inductive Hasher.Reached (V : Vocabulary) (maxHeight : Option Nat) : Hasher → Prop where
  | new : Reached V maxHeight (.ofMaxHeight maxHeight)
  | hash {h : Hasher} {t : Term} : Reached V maxHeight h → t ∈ V → Reached V maxHeight (h.hash t).2
  | clear {h : Hasher} : Reached V maxHeight h → Reached V maxHeight h.clear

end CoreReuse
