import CoreReuse.Decl
import Std.Data.TreeMap

namespace CoreReuse

abbrev Renaming := Std.TreeMap Decl Decl

namespace Renaming

theorem beq_iff (r s : Renaming) : (r == s) = true ↔ ∀ d : Decl, r[d]? = s[d]? := by
  rw [Std.TreeMap.beq_iff_equiv]
  exact ⟨fun h _ => h.getElem?_eq, .of_forall_constGet?_eq⟩

theorem getElem?_insert (r : Renaming) (origin target d : Decl) :
    (r.insert origin target)[d]? = if d = origin then some target else r[d]? := by
  simp only [Std.TreeMap.getElem?_insert, Std.LawfulEqCmp.compare_eq_iff_eq, @eq_comm _ origin]

theorem getElem?_erase (r : Renaming) (origin d : Decl) :
    (r.erase origin)[d]? = if d = origin then none else r[d]? := by
  simp only [Std.TreeMap.getElem?_erase, Std.LawfulEqCmp.compare_eq_iff_eq, @eq_comm _ origin]

def bind (r : Renaming) (origin target : Decl) : Bool × Renaming :=
  match r[origin]? with
  | some existing => (existing == target, r)
  | none => (true, r.insert origin target)

def extract (r : Renaming) (origins : List Decl) : List (Decl × Decl) :=
  origins.filterMap fun o => r[o]?.map fun t => (o, t)

def eraseAll (r : Renaming) (origins : List Decl) : Renaming :=
  origins.foldl Std.TreeMap.erase r

def restore (r : Renaming) (saved : List (Decl × Decl)) : Renaming :=
  saved.foldl (fun r e => r.insert e.1 e.2) r

theorem bind_of_getElem?_eq_none {r : Renaming} {origin : Decl} (h : r[origin]? = none)
    (target : Decl) : bind r origin target = (true, r.insert origin target) := by
  simp [bind, h]

theorem bind_of_getElem?_eq_some {r : Renaming} {origin existing : Decl}
    (h : r[origin]? = some existing) (target : Decl) :
    bind r origin target = (existing == target, r) := by
  simp [bind, h]

@[simp] theorem getElem?_eraseAll (r : Renaming) (origins : List Decl) (d : Decl) :
    (eraseAll r origins)[d]? = if d ∈ origins then none else r[d]? := by
  induction origins generalizing r with
  | nil => simp [eraseAll]
  | cons o os ih =>
    simp only [eraseAll, List.foldl_cons, List.mem_cons] at ih ⊢
    rw [ih, getElem?_erase]
    by_cases ho : d = o <;> by_cases hd : d ∈ os <;> simp [ho, hd]

theorem getElem?_restore_extract (base r : Renaming) (origins : List Decl) (d : Decl) :
    (restore base (extract r origins))[d]? =
      if d ∈ origins ∧ r[d]?.isSome then r[d]? else base[d]? := by
  induction origins generalizing base with
  | nil => simp [restore, extract]
  | cons o os ih =>
    cases ho : r[o]? with
    | none =>
      have he : extract r (o :: os) = extract r os := by simp [extract, ho]
      rw [he, ih]
      by_cases hd : d = o
      · subst hd
        simp [ho]
      · simp [hd]
    | some t =>
      have he : restore base (extract r (o :: os)) = restore (base.insert o t) (extract r os) := by
        simp [restore, extract, ho]
      rw [he, ih, getElem?_insert]
      by_cases hd : d = o
      · subst hd
        simp [ho]
      · simp [hd]

def merge? (base : Renaming) : List (Decl × Decl) → Renaming → Option Renaming
  | [], joined => some joined
  | (o, t) :: es, joined =>
    match base[o]? with
    | some existing => if existing = t then merge? base es joined else none
    | none => merge? base es (joined.insert o t)

/-- The union of two renamings, if they agree on every declaration that both bind. The bindings
of the smaller one are added to the larger one. -/
def join (r s : Renaming) : Option Renaming :=
  if s.size < r.size then merge? r s.toList r else merge? s r.toList s

def toString (r : Renaming) : String :=
  "(" ++ ", ".intercalate (r.toList.map fun e => e.1.toString ++ " -> " ++ e.2.toString) ++ ")"

end Renaming

end CoreReuse
