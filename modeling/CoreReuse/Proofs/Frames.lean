import CoreReuse.Proofs.Variables
import CoreReuse.Unifier

namespace CoreReuse.Unifier

open Term

variable {s : Scopes} {u v : Unifier} {ls rs ls' rs' bs cs : List Decl} {out : Bool × Unifier}

structure NewBinding (s : Scopes) (ls rs : List Decl) (d t : Decl) : Prop where
  origin : d ∈ ls
  result_eq : d.result = t.result
  target : d ∉ s.left → t ∈ rs ∧ t ∉ s.right

theorem NewBinding.mono {d t : Decl} (h : NewBinding s ls rs d t) (hl : ∀ d ∈ ls, d ∈ ls')
    (hr : ∀ d ∈ rs, d ∈ rs') : NewBinding s ls' rs' d t where
  origin := hl d h.origin
  result_eq := h.result_eq
  target hd := ⟨hr t (h.target hd).1, (h.target hd).2⟩

structure Frames (s : Scopes) (ls rs : List Decl) (u : Unifier) (out : Bool × Unifier) : Prop where
  kept : ∀ d t : Decl, u.bindings[d]? = some t → out.2.bindings[d]? = some t
  new : ∀ d t : Decl, out.2.bindings[d]? = some t → u.bindings[d]? = some t ∨ NewBinding s ls rs d t

def andThen (out : Bool × Unifier) (step : Unifier → Bool × Unifier) : Bool × Unifier :=
  match out with
  | (true, u) => step u
  | (false, u) => (false, u)

namespace Frames

theorem of_bindings_eq (h : out.2.bindings = u.bindings) : Frames s ls rs u out where
  kept _ _ hd := h ▸ hd
  new _ _ hd := .inl (h ▸ hd)

theorem of_same_start (h : Frames s ls rs v out) (hb : v.bindings = u.bindings) :
    Frames s ls rs u out where
  kept := hb ▸ h.kept
  new := hb ▸ h.new

theorem mono (h : Frames s ls rs u out) (hl : ∀ d ∈ ls, d ∈ ls') (hr : ∀ d ∈ rs, d ∈ rs') :
    Frames s ls' rs' u out where
  kept := h.kept
  new d t hd := (h.new d t hd).imp_right (·.mono hl hr)

theorem trans {out' : Bool × Unifier} (h : Frames s ls rs u out)
    (h' : Frames s ls rs out.2 out') : Frames s ls rs u out' where
  kept d t hd := h'.kept d t (h.kept d t hd)
  new d t hd := (h'.new d t hd).elim (h.new d t) .inr

theorem andThen {step : Unifier → Bool × Unifier} (h : Frames s ls rs u out)
    (hs : out.1 = true → Frames s ls' rs' out.2 (step out.2)) :
    Frames s (ls ++ ls') (rs ++ rs') u (andThen out step) := by
  have hfirst : Frames s (ls ++ ls') (rs ++ rs') u out :=
    h.mono (fun _ => List.mem_append_left ls') (fun _ => List.mem_append_left rs')
  obtain ⟨ok, v⟩ := out
  cases ok with
  | false => exact hfirst
  | true =>
    apply hfirst.trans
    exact (hs rfl).mono (fun _ => List.mem_append_right ls) (fun _ => List.mem_append_right rs)

end Frames

theorem unifyDecl_frames {l r : Decl} (hs : r ∈ s.right → l ∈ s.left) :
    Frames s [l] [r] u (unifyDecl l r u) := by
  unfold unifyDecl
  split
  · next hr =>
    cases hl : u.bindings[l]? with
    | some t =>
      apply Frames.of_bindings_eq
      rw [Renaming.bind_of_getElem?_eq_some hl]
    | none =>
      rw [Renaming.bind_of_getElem?_eq_none hl]
      refine ⟨fun d t hd => ?_, fun d t hd => ?_⟩
      · rw [Renaming.getElem?_insert, if_neg]
        · exact hd
        · rintro rfl
          simp [hl] at hd
      · rw [Renaming.getElem?_insert] at hd
        split at hd
        · next he =>
          obtain rfl := Option.some.inj hd
          subst he
          exact .inr ⟨by simp, hr, fun hn => ⟨by simp, fun h => hn (hs h)⟩⟩
        · exact .inl hd
  · exact .of_bindings_eq rfl

theorem unifyVariable_frames {l r : Decl} : Frames s [l] [r] u (unifyVariable s l r u) := by
  unfold unifyVariable
  split
  · exact .of_bindings_eq rfl
  · next hc =>
    apply unifyDecl_frames
    simpa using hc

theorem unifyBounds_cons {l r : Decl} {ls rs : List Decl} :
    unifyBounds (l :: ls) (r :: rs) u = andThen (unifyDecl l r u) (unifyBounds ls rs) := rfl

theorem unifyBounds_frames (ls rs : List Decl) (hl : ∀ l ∈ ls, l ∈ s.left) :
    Frames s ls rs u (unifyBounds ls rs u) := by
  induction ls generalizing rs u with
  | nil =>
    cases rs with
    | nil => exact .of_bindings_eq rfl
    | cons r rs => exact .of_bindings_eq rfl
  | cons l ls ih =>
    cases rs with
    | nil => exact .of_bindings_eq rfl
    | cons r rs =>
      obtain ⟨h1, h2⟩ := List.forall_mem_cons.mp hl
      rw [unifyBounds_cons]
      exact (unifyDecl_frames fun _ => h1).andThen fun _ => ih rs h2

theorem getElem?_eraseAll_eq_some {r : Renaming} {d t : Decl} :
    (r.eraseAll bs)[d]? = some t ↔ d ∉ bs ∧ r[d]? = some t := by
  rw [Renaming.getElem?_eraseAll]
  by_cases hd : d ∈ bs <;> simp [hd]

theorem getElem?_unshadowed (r w : Renaming) (bs : List Decl) (d : Decl) :
    (Renaming.restore (w.eraseAll bs) (r.extract bs))[d]? = if d ∈ bs then r[d]? else w[d]? := by
  rw [Renaming.getElem?_restore_extract, Renaming.getElem?_eraseAll]
  by_cases hd : d ∈ bs
  · cases hr : r[d]? <;> simp [hd]
  · simp [hd]

def leave (bs : List Decl) (u : Unifier) (out : Bool × Unifier) : Bool × Unifier :=
  (out.1, { out.2 with
    bindings := Renaming.restore (out.2.bindings.eraseAll bs) (u.bindings.extract bs) })

theorem shadowing_eq (bs : List Decl) (step : Unifier → Bool × Unifier) (u : Unifier) :
    shadowing bs step u = leave bs u (step { u with bindings := u.bindings.eraseAll bs }) := rfl

theorem Frames.unshadow {b c : Term} (h : Frames (s.enter bs cs) (bs ++ b.freeVars) (cs ++ c.freeVars)
    { u with bindings := u.bindings.eraseAll bs } out) :
    Frames s (freeIn bs b) (freeIn cs c) u (leave bs u out) := by
  have hleft : ∀ d : Decl, (leave bs u out).2.bindings[d]? =
      if d ∈ bs then u.bindings[d]? else out.2.bindings[d]? :=
    getElem?_unshadowed u.bindings out.2.bindings bs
  refine ⟨fun d t hd => ?_, fun d t hd => ?_⟩
  · rw [hleft]
    split
    · exact hd
    · next hn => exact h.kept d t (getElem?_eraseAll_eq_some.mpr ⟨hn, hd⟩)
  · rw [hleft] at hd
    split at hd
    · exact .inl hd
    · next hn =>
      rcases h.new d t hd with hd | hnew
      · exact .inl (getElem?_eraseAll_eq_some.mp hd).2
      · refine .inr ⟨?_, hnew.result_eq, fun hs => ?_⟩
        · have hm := List.mem_append.mp hnew.origin
          exact mem_freeIn.mpr ⟨hm.resolve_left hn, hn⟩
        · -- A target that the right binder has bound would be free on the right only inside it.
          obtain ⟨h1, h2⟩ := hnew.target (by simp [Scopes.enter, hn, hs])
          simp only [Scopes.enter, List.mem_append, not_or] at h2
          exact ⟨mem_freeIn.mpr ⟨(List.mem_append.mp h1).resolve_left h2.1, h2.1⟩, h2.2⟩

theorem shadowing_frames {b c : Term} {body : Unifier → Bool × Unifier}
    (hb : ∀ v, Frames (s.enter bs cs) b.freeVars c.freeVars v (body v)) :
    Frames s (freeIn bs b) (freeIn cs c) u
      (shadowing bs (fun u => andThen (unifyBounds bs cs u) body) u) := by
  rw [shadowing_eq]
  apply Frames.unshadow
  apply (unifyBounds_frames bs cs fun l hl => List.mem_append_left _ hl).andThen
  exact fun _ => hb _

def descend (s : Scopes) : Term → Term → Unifier → Bool × Unifier
  | .app _ f as, .app _ g bs, u =>
    if as.isEmpty && bs.isEmpty then unifyVariable s f g u
    else if f = g then unifyAll s as bs u
    else (false, u)
  | .quantified _ p bs b, .quantified _ q cs c, u =>
    if p = q then shadowing bs (fun u => andThen (unifyBounds bs cs u) (unify (s.enter bs cs) b c)) u
    else (false, u)
  | .lambda _ is b, .lambda _ js c, u =>
    shadowing is (fun u => andThen (unifyBounds is js u) (unify (s.enter is js) b c)) u
  | .literal _ _ x, .literal _ _ y, u => (x == y, u)
  | _, _, u => (false, u)

theorem unify_eq (s : Scopes) (l r : Term) (u : Unifier) :
    unify s l r u = if l.ty = r.ty then andThen (guard l r u) (descend s l r) else (false, u) := by
  rw [unify.eq_def]
  split
  · rcases guard l r u with ⟨_ | _, v⟩
    · rfl
    · cases l <;> cases r <;> rfl
  · rfl

theorem unifyAll_cons (s : Scopes) (l r : Term) (ls rs : List Term) (u : Unifier) :
    unifyAll s (l :: ls) (r :: rs) u = andThen (unify s l r u) (unifyAll s ls rs) := by
  rw [unifyAll]
  rcases unify s l r u with ⟨_ | _, v⟩ <;> rfl

theorem guard_bindings (l r : Term) (u : Unifier) : (guard l r u).2.bindings = u.bindings := by
  unfold guard
  split <;> rfl

theorem unify_frames_of_descend {l r : Term}
    (h : ∀ v, Frames s l.freeVars r.freeVars v (descend s l r v)) :
    Frames s l.freeVars r.freeVars u (unify s l r u) := by
  rw [unify_eq]
  split
  · have hb := guard_bindings l r u
    rcases hg : guard l r u with ⟨_ | _, v⟩ <;> rw [hg] at hb
    · exact .of_bindings_eq hb
    · exact (h v).of_same_start hb
  · exact .of_bindings_eq rfl

mutual

theorem unify_frames {s : Scopes} {u : Unifier} : ∀ l r : Term,
    Frames s l.freeVars r.freeVars u (unify s l r u)
  | .app k f as, r => by
    apply unify_frames_of_descend
    intro v
    cases r with
    | app k' g bs =>
      cases as with
      | nil =>
        cases bs with
        | nil => exact unifyVariable_frames
        | cons b bs =>
          rw [descend]
          split
          · contradiction
          · split <;> exact .of_bindings_eq rfl
      | cons a as =>
        rw [descend]
        split
        · contradiction
        · split
          · cases bs with
            | nil => exact .of_bindings_eq rfl
            | cons b bs => exact unifyAll_frames (a :: as) (b :: bs)
          · exact .of_bindings_eq rfl
    | _ => exact .of_bindings_eq rfl
  | .quantified k q bs b, r => by
    apply unify_frames_of_descend
    intro v
    cases r with
    | quantified k' q' cs c =>
      rw [descend]
      simp only [freeVars, freeIn, List.append_nil]
      split
      · exact shadowing_frames fun _ => unify_frames b c
      · exact .of_bindings_eq rfl
    | _ => exact .of_bindings_eq rfl
  | .lambda k is b, r => by
    apply unify_frames_of_descend
    intro v
    cases r with
    | lambda k' js c =>
      simp only [freeVars, freeIn, List.append_nil]
      exact shadowing_frames fun _ => unify_frames b c
    | _ => exact .of_bindings_eq rfl
  | .literal k t x, r => by
    apply unify_frames_of_descend
    intro v
    cases r <;> exact .of_bindings_eq rfl

theorem unifyAll_frames {s : Scopes} {u : Unifier} : ∀ ls rs : List Term,
    Frames s (freeInAll [] ls) (freeInAll [] rs) u (unifyAll s ls rs u)
  | [], [] => .of_bindings_eq rfl
  | [], r :: rs => .of_bindings_eq rfl
  | l :: ls, [] => .of_bindings_eq rfl
  | l :: ls, r :: rs => by
    rw [unifyAll_cons]
    exact (unify_frames l r).andThen fun _ => unifyAll_frames ls rs

end

end CoreReuse.Unifier
