import CoreReuse.Term.Basic
import Mathlib.Tactic.Tauto

namespace CoreReuse.Term

@[elab_as_elim, induction_eliminator]
theorem inductionOn {P : Term → Prop}
    (app : ∀ n f as, (∀ a ∈ as, P a) → P (.app n f as))
    (quantified : ∀ n q bs b, P b → P (.quantified n q bs b))
    (lambda : ∀ n is b, P b → P (.lambda n is b))
    (literal : ∀ n ty x, P (.literal n ty x)) (t : Term) : P t :=
  @Term.rec P (fun ts => ∀ t ∈ ts, P t) app quantified lambda literal
    (by simp) (fun _ _ h hs => List.forall_mem_cons.mpr ⟨h, hs⟩) t

def bounds : Term → List Decl
  | .quantified _ _ bs _ => bs
  | .lambda _ is _ => is
  | _ => []

mutual

def Each (P : Term → Prop) : Term → Prop
  | .app n f as => P (.app n f as) ∧ EachAll P as
  | .quantified n q bs b => P (.quantified n q bs b) ∧ Each P b
  | .lambda n is b => P (.lambda n is b) ∧ Each P b
  | .literal n ty x => P (.literal n ty x)

def EachAll (P : Term → Prop) : List Term → Prop
  | [] => True
  | t :: ts => Each P t ∧ EachAll P ts

end

theorem eachAll_iff {P : Term → Prop} {ts : List Term} : EachAll P ts ↔ ∀ t ∈ ts, Each P t := by
  induction ts with
  | nil => simp [EachAll]
  | cons t ts ih => rw [EachAll, ih, List.forall_mem_cons]

theorem each_app {P : Term → Prop} {n : NodeId} {f : Decl} {as : List Term} :
    Each P (.app n f as) ↔ P (.app n f as) ∧ ∀ a ∈ as, Each P a := by
  rw [Each, eachAll_iff]

theorem each_of_forall {P : Term → Prop} (h : ∀ t, P t) (t : Term) : Each P t := by
  induction t with
  | app n f as ih => exact each_app.mpr ⟨h _, ih⟩
  | quantified n q bs b ih => exact ⟨h _, ih⟩
  | lambda n is b ih => exact ⟨h _, ih⟩
  | literal n ty x => exact h _

mutual

def freeIn (scope : List Decl) : Term → List Decl
  | .app _ f [] => if f ∈ scope then [] else [f]
  | .app _ _ (a :: as) => freeInAll scope (a :: as)
  | .quantified _ _ bs b => freeIn (bs ++ scope) b
  | .lambda _ is b => freeIn (is ++ scope) b
  | .literal _ _ _ => []

def freeInAll (scope : List Decl) : List Term → List Decl
  | [] => []
  | t :: ts => freeIn scope t ++ freeInAll scope ts

end

def freeVars (t : Term) : List Decl := freeIn [] t

variable {scope : List Decl} {d : Decl}

theorem mem_freeInAll {ts : List Term} : d ∈ freeInAll scope ts ↔ ∃ t ∈ ts, d ∈ freeIn scope t := by
  induction ts with
  | nil => simp [freeInAll]
  | cons t ts ih => simp [freeInAll, ih]

theorem mem_freeIn_var {n : NodeId} {f : Decl} :
    d ∈ freeIn scope (.app n f []) ↔ d = f ∧ f ∉ scope := by
  rw [freeIn]
  split <;> simp_all

theorem mem_freeIn_app {n : NodeId} {f : Decl} {as : List Term} (h : as ≠ []) :
    d ∈ freeIn scope (.app n f as) ↔ ∃ a ∈ as, d ∈ freeIn scope a := by
  cases as with
  | nil => exact absurd rfl h
  | cons a as => rw [freeIn, mem_freeInAll]

theorem mem_freeIn_iff {outer inner : List Decl} (t : Term)
    (h : ∀ e, e ∈ scope ↔ e ∈ outer ∨ e ∈ inner) :
    d ∈ freeIn scope t ↔ d ∈ freeIn inner t ∧ d ∉ outer := by
  induction t generalizing scope inner with
  | app n f as ih =>
    cases as with
    | nil =>
      simp only [mem_freeIn_var, h f]
      constructor
      · rintro ⟨rfl, hn⟩
        exact ⟨⟨rfl, fun hi => hn (.inr hi)⟩, fun ho => hn (.inl ho)⟩
      · rintro ⟨⟨rfl, hi⟩, ho⟩
        exact ⟨rfl, fun hn => hn.elim ho hi⟩
    | cons a as =>
      simp only [mem_freeIn_app (List.cons_ne_nil a as)]
      constructor
      · rintro ⟨t, ht, hd⟩
        obtain ⟨h1, h2⟩ := (ih t ht h).mp hd
        exact ⟨⟨t, ht, h1⟩, h2⟩
      · rintro ⟨⟨t, ht, h1⟩, h2⟩
        exact ⟨t, ht, (ih t ht h).mpr ⟨h1, h2⟩⟩
  | quantified n q bs b ih =>
    simp only [freeIn]
    apply ih
    intro e
    simp only [List.mem_append, h e]
    tauto
  | lambda n is b ih =>
    simp only [freeIn]
    apply ih
    intro e
    simp only [List.mem_append, h e]
    tauto
  | literal n ty x => simp [freeIn]

theorem mem_freeIn {t : Term} : d ∈ freeIn scope t ↔ d ∈ t.freeVars ∧ d ∉ scope :=
  mem_freeIn_iff t (by simp)

theorem mem_freeVars_quantified {n : NodeId} {q : Quantifier} {bs : List Decl} {b : Term} :
    d ∈ (quantified n q bs b).freeVars ↔ d ∈ b.freeVars ∧ d ∉ bs := by
  rw [freeVars, freeIn, List.append_nil, mem_freeIn]

theorem mem_freeVars_lambda {n : NodeId} {is : List Decl} {b : Term} :
    d ∈ (lambda n is b).freeVars ↔ d ∈ b.freeVars ∧ d ∉ is := by
  rw [freeVars, freeIn, List.append_nil, mem_freeIn]

end CoreReuse.Term
