import CoreReuse.Term.Supply

namespace CoreReuse

structure ClauseSet where
  clauses : List Term
  boolean : ∀ c ∈ clauses, c.ty = .bool

namespace ClauseSet

def empty : ClauseSet := ⟨[], by simp⟩

instance : Inhabited ClauseSet := ⟨empty⟩

def ofList? (clauses : List Term) : Except BuildError ClauseSet :=
  if h : ∀ c ∈ clauses, c.ty = .bool then .ok ⟨clauses, h⟩ else .error .clausesNotBoolean

theorem ofList?_of_boolean {clauses : List Term} (h : ∀ c ∈ clauses, c.ty = .bool) :
    ofList? clauses = .ok ⟨clauses, h⟩ :=
  dif_pos h

def size (s : ClauseSet) : Nat := s.clauses.length

def isEmpty (s : ClauseSet) : Bool := s.clauses.isEmpty

def filter (s : ClauseSet) (p : Term → Bool) : ClauseSet where
  clauses := s.clauses.filter p
  boolean c hc := s.boolean c (List.mem_filter.mp hc).1

def reverse (s : ClauseSet) : ClauseSet where
  clauses := s.clauses.reverse
  boolean c hc := s.boolean c (List.mem_reverse.mp hc)

def firsts : List Term → List Term
  | [] => []
  | c :: cs => c :: (firsts cs).filter fun d => !(d == c)

theorem mem_of_mem_firsts {c : Term} {cs : List Term} (h : c ∈ firsts cs) : c ∈ cs := by
  induction cs with
  | nil => exact h
  | cons d ds ih =>
    rcases List.mem_cons.mp h with rfl | h
    · exact List.mem_cons_self
    · exact List.mem_cons_of_mem _ (ih (List.mem_filter.mp h).1)

@[simp] theorem isEmpty_iff (s : ClauseSet) : s.isEmpty = true ↔ s.clauses = [] := by
  simp [isEmpty]

def dedup (s : ClauseSet) : ClauseSet where
  clauses := firsts s.clauses
  boolean c hc := s.boolean c (mem_of_mem_firsts hc)

instance : BEq ClauseSet := ⟨fun s t => (Term.decideSames s.clauses t.clauses).val⟩

def toString (s : ClauseSet) : String :=
  "[" ++ ", ".intercalate (s.clauses.map Term.toString) ++ "]"

instance : ToString ClauseSet := ⟨toString⟩

end ClauseSet

end CoreReuse
