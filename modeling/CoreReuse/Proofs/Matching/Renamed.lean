import CoreReuse.Proofs.Matching.Agreement

namespace CoreReuse

/-- A map of variables that keeps their types. It need not be injective. -/
structure VariableMap where
  apply : Decl → Decl
  result_eq : ∀ d, (apply d).result = d.result
  arity_eq : ∀ d, (apply d).arity = d.arity
  fixes : ∀ d, d.arity ≠ 0 → apply d = d

instance : CoeFun VariableMap fun _ => Decl → Decl := ⟨VariableMap.apply⟩

def VariableMap.identity : VariableMap := ⟨id, fun _ => rfl, fun _ => rfl, fun _ _ => rfl⟩

def VariableMap.merge (d e : Decl) (hd : d.arity = 0) (he : e.arity = 0) (hr : e.result = d.result) :
    VariableMap where
  apply x := if x = d then e else x
  result_eq x := by
    split
    · next h => rw [h, hr]
    · rfl
  arity_eq x := by
    split
    · next h => rw [h, hd, he]
    · rfl
  fixes x hx := if_neg (by rintro rfl; exact hx hd)

namespace Term

mutual

def rename (ρ : VariableMap) : Term → Term
  | .app n f [] => .app n (ρ f) []
  | .app n f (a :: as) => .app n f (renameAll ρ (a :: as))
  | .quantified n q bs b => .quantified n q (bs.map ρ) (rename ρ b)
  | .lambda n is b => .lambda n (is.map ρ) (rename ρ b)
  | .literal n ty x => .literal n ty x

def renameAll (ρ : VariableMap) : List Term → List Term
  | [] => []
  | t :: ts => rename ρ t :: renameAll ρ ts

end

/-- No variable that is free in a binder is sent to the image of what it binds. -/
def Uncaptured (ρ : VariableMap) : Term → Prop :=
  Each fun t => ∀ x ∈ t.freeVars, ∀ d ∈ t.bounds, ρ x ≠ ρ d

variable {ρ : VariableMap} {s : Scopes} {τ : Decl → Decl}

theorem renameAll_eq_map (ts : List Term) : renameAll ρ ts = ts.map (rename ρ) := by
  induction ts with
  | nil => rfl
  | cons t ts ih => rw [renameAll, ih, List.map_cons]

theorem snd_of_mem_zip_map {f : Decl → Decl} {bs : List Decl} {p : Decl × Decl}
    (hp : p ∈ bs.zip (bs.map f)) : p.2 = f p.1 := by
  induction bs with
  | nil => cases hp
  | cons b bs ih =>
    rw [List.map_cons, List.zip_cons_cons] at hp
    rcases List.mem_cons.mp hp with rfl | hp
    · rfl
    · exact ih hp

theorem pairedOff_map (bs : List Decl) : PairedOff bs (bs.map ρ) where
  length_eq := by simp
  result_eq p hp := by rw [snd_of_mem_zip_map hp, ρ.result_eq]
  functional p hp q hq h := by rw [snd_of_mem_zip_map hp, snd_of_mem_zip_map hq, h]

theorem rebound_map (bs : List Decl) : rebound bs (bs.map ρ) ρ = ρ := by
  funext d
  by_cases hd : d ∈ bs
  · obtain ⟨t, ht⟩ := exists_mem_zip (List.length_map ρ).symm hd
    rw [(pairedOff_map bs).rebound_eq ht, snd_of_mem_zip_map ht]
  · exact rebound_of_notMem hd

theorem not_captured_enter {bs : List Decl} {b : Term}
    (hb : ∀ x ∈ freeIn bs b, ∀ d ∈ bs, ρ x ≠ ρ d)
    (hf : ∀ x ∈ freeIn bs b, x ∉ s.left → ρ x ∉ s.right) :
    ∀ x ∈ b.freeVars, x ∉ (s.enter bs (bs.map ρ)).left → ρ x ∉ (s.enter bs (bs.map ρ)).right := by
  intro x hx hl hr
  simp only [Scopes.enter, List.mem_append, not_or] at hl hr
  have hxb := mem_freeIn.mpr ⟨hx, hl.1⟩
  rcases hr with hr | hr
  · obtain ⟨d, hd, he⟩ := List.mem_map.mp hr
    exact hb x hxb d hd he.symm
  · exact hf x hxb hl.2 hr

theorem carries_rename {t : Term} (ht : t.Uncaptured ρ) (hs : s.right = s.left.map ρ)
    (hf : ∀ x ∈ t.freeVars, x ∉ s.left → ρ x ∉ s.right) : Carries s ρ t (t.rename ρ) := by
  induction t generalizing s with
  | app n f as ih =>
    have hu := (each_app.mp ht).2
    cases as with
    | nil =>
      refine ⟨(ρ.result_eq f).symm, rfl, fun hr => ?_⟩
      by_contra hl
      exact hf f (by simp [freeVars, freeIn]) hl hr
    | cons a as =>
      refine ⟨rfl, ?_⟩
      rw [renameAll_eq_map, carriesAll_iff, List.forall₂_map_right_iff, List.forall₂_same]
      intro t ht
      apply ih t ht (hu t ht) hs
      intro x hx
      exact hf x ((mem_freeIn_app (List.cons_ne_nil a as)).mpr ⟨t, ht, hx⟩)
  | quantified n q bs b ih =>
    simp only [freeVars, freeIn, List.append_nil, Uncaptured, Each, bounds] at ht hf
    refine ⟨rfl, pairedOff_map bs, ?_⟩
    rw [rebound_map]
    exact ih ht.2 (by simp [Scopes.enter, hs]) (not_captured_enter ht.1 hf)
  | lambda n is b ih =>
    simp only [freeVars, freeIn, List.append_nil, Uncaptured, Each, bounds] at ht hf
    refine ⟨pairedOff_map is, ?_⟩
    rw [rebound_map]
    exact ih ht.2 (by simp [Scopes.enter, hs]) (not_captured_enter ht.1 hf)
  | literal n ty x => exact ⟨rfl, rfl⟩

theorem rename_identity (t : Term) : t.rename .identity = t := by
  induction t with
  | app n f as ih =>
    cases as with
    | nil => rfl
    | cons a as =>
      rw [rename, renameAll_eq_map, List.map_congr_left ih, List.map_id']
  | quantified n q bs b ih => rw [rename, ih, VariableMap.identity, List.map_id]
  | lambda n is b ih => rw [rename, ih, VariableMap.identity, List.map_id]
  | literal n ty x => rfl

theorem uncaptured_identity (t : Term) : t.Uncaptured .identity := by
  refine each_of_forall (fun t => ?_) t
  cases t with
  | app n f as => exact fun x _ d hd => nomatch hd
  | quantified n q bs b =>
    rintro x hx d hd rfl
    exact (mem_freeVars_quantified.mp hx).2 hd
  | lambda n is b =>
    rintro x hx d hd rfl
    exact (mem_freeVars_lambda.mp hx).2 hd
  | literal n ty x => exact fun x _ d hd => nomatch hd

end Term

open Search Term PollSource

structure VariableMap.Renames (ρ : VariableMap) (core query : List Term) : Prop where
  uncaptured : ∀ c ∈ core, c.Uncaptured ρ
  clauses : ∀ c ∈ core, ∃ q ∈ query, (q == c.rename ρ) = true

theorem VariableMap.Renames.embeds {ρ : VariableMap} {core query : List Term}
    (h : ρ.Renames core query) : Embeds ρ core query := by
  intro c hc
  obtain ⟨q, hq, he⟩ := h.clauses c hc
  rw [beq_eq_same, same_iff_erase_eq] at he
  have hr := carries_rename (s := {}) (h.uncaptured c hc) rfl (fun _ _ _ => List.not_mem_nil)
  exact ⟨q, hq, hr.of_erase_eq rfl he⟩

theorem renames_identity {core query : List Term}
    (h : ∀ c ∈ core, ∃ q ∈ query, (q == c) = true) : VariableMap.identity.Renames core query where
  uncaptured c _ := c.uncaptured_identity
  clauses c hc := by
    obtain ⟨q, hq, he⟩ := h c hc
    exact ⟨q, hq, by rwa [rename_identity]⟩

variable {π : Type} [PollSource π] {V : Vocabulary} {m : Option Nat} {core query : ClauseSet}

theorem Verbatim.matchClauses_yields (cs : List Term) :
    Yields V m query (matchClauses query cs : Search π Bool) fun b =>
      b = true ↔ ∀ c ∈ cs, ∃ q ∈ query.clauses, (q == c) = true := by
  induction cs with
  | nil => exact yields_pure (by simp)
  | cons c cs ih =>
    apply computes_poll.yields.bind
    intro _ _
    simp only [List.forall_mem_cons]
    split
    · next h =>
      apply ih.mono
      intro b hb
      rw [hb, iff_and_self]
      exact fun _ => List.any_eq_true.mp h
    · next h =>
      apply yields_pure
      rw [List.any_eq_true] at h
      simp only [h, false_and, Bool.false_eq_true]

theorem Verbatim.embeds_of_matches {h : Hasher} (hh : h.Reached V m) {source : π}
    (hr : ((Tester.simple.«matches» core query).run (.start h source)).1 = .ok true) :
    Embeds VariableMap.identity core.clauses query.clauses := by
  obtain ⟨b, n, hn, hb⟩ : Yields V m query (Verbatim.matchClauses query core.clauses : Search π Bool)
    _ := Verbatim.matchClauses_yields core.clauses
  have hs := Work.sound_start query hh.sound source
  obtain ⟨rfl, -⟩ := hn.eq_of_ok hs (Prod.ext hr rfl)
  exact (renames_identity (hb.mp rfl)).embeds

theorem Tester.Renames.finds_renamed {t : Tester} (ht : t.Renames) {h : Hasher} (hh : h.Reached V m)
    (hc : ∀ c ∈ core.clauses, c ∈ V) (hq : ∀ q ∈ query.clauses, q ∈ V) (source : π) :
    (∀ ρ : VariableMap, ρ.Renames core.clauses query.clauses → t.Finds core query h source) ∧
      (∀ other : π, ((Tester.simple.«matches» core query).run (.start h other)).1 = .ok true →
        t.Finds core query h source) ∧
      t.Finds query query h source ∧
      (V.Fits m → ((t.«matches» core query).run (.start h source)).2.coreAfter.overflowed = false) ∧
      ∀ k, m = some k → wordLimit ≤ k + 2 → core.clauses ≠ [] →
        (∀ c ∈ core.clauses, c.height ≤ k + 1) → Quiet source →
        ∀ ρ : VariableMap, ρ.Renames core.clauses query.clauses →
        ((Tester.fullOpt.«matches» core query).run (.start h source)).2.coreAfter.overflowed = true := by
  have hs := Work.sound_start query hh.sound source
  refine ⟨fun ρ hρ => ht.finds_of_embeds hh hc hq hρ.embeds source, fun other ho => ?_, ?_, ?_, ?_⟩
  · exact ht.finds_of_embeds hh hc hq (Verbatim.embeds_of_matches hh ho) source
  · have hself : VariableMap.identity.Renames query.clauses query.clauses :=
      renames_identity fun c hm => ⟨c, hm, by rw [beq_eq_same, same_iff_erase_eq]⟩
    exact ht.finds_of_embeds hh hq hq hself.embeds source
  · obtain ⟨n, hn⟩ := ht.computes (π := π) (m := m) hc hq
    exact (hn _ hs).2.1.calm
  · rintro k rfl hk hne hl hsource ρ hρ
    have hr := (Tester.Renames.finds_of_embeds (.inr rfl) hh hc hq hρ.embeds source).1 hsource
    exact Joining.overflowed_of_matches hs hk hne hc hq hl (Prod.ext hr rfl)

def Term.forallTernary (n : NodeId) (x z y : String) : Term :=
  .quantified n .universal [.constant y .int] (.app (n + 1) ⟨"r", [.int, .int, .int], .bool, none⟩
    [.app (n + 2) (.constant x .int) [], .app (n + 3) (.constant z .int) [],
      .app (n + 4) (.constant y .int) []])

def ClauseSet.forallTernary (n : NodeId) (x z y : String) : ClauseSet :=
  ⟨[.forallTernary n x z y], by simp [Term.forallTernary, Term.ty]⟩

def Vocabulary.ternaries : Vocabulary :=
  .ofTerms [.forallTernary 0 "x" "z" "y", .forallTernary 5 "x" "x" "y"] (by decide)

theorem Vocabulary.mem_ternaries_core : ∀ c ∈ (ClauseSet.forallTernary 0 "x" "z" "y").clauses, c ∈ ternaries :=
  fun _ hc => mem_ofTerms (List.mem_append_left _ hc)

theorem Vocabulary.mem_ternaries_query : ∀ q ∈ (ClauseSet.forallTernary 5 "x" "x" "y").clauses, q ∈ ternaries :=
  fun _ hq => mem_ofTerms (List.mem_cons_of_mem _ hq)

theorem Tester.Renames.finds_merged :
    (∀ t : Tester, t.Renames →
      ((t.«matches» (.forallTernary 0 "x" "z" "y") (.forallTernary 5 "x" "x" "y")).run
        (.start (.ofMaxHeight (some 1)) ({} : Watch))).1 = .ok true ∧
      ((t.«matches» (.forallTernary 5 "x" "x" "y") (.forallTernary 5 "x" "x" "y")).run
        (.start (.ofMaxHeight (some 1)) ({} : Watch))).1 = .ok true) ∧
      ((Tester.fullOpt.«matches» (.forallTernary 0 "x" "z" "y") (.forallTernary 5 "x" "x" "y")).run
        (.start (.ofMaxHeight (some (wordLimit - 1))) ({} : Watch))).2.coreAfter.overflowed = true := by
  have hc := Vocabulary.mem_ternaries_core
  have hq := Vocabulary.mem_ternaries_query
  have hρ : (VariableMap.merge (.constant "z" .int) (.constant "x" .int) rfl rfl rfl).Renames
      (ClauseSet.forallTernary 0 "x" "z" "y").clauses
      (ClauseSet.forallTernary 5 "x" "x" "y").clauses := by
    refine ⟨?_, by decide +kernel⟩
    simp +decide [ClauseSet.forallTernary, Term.forallTernary, Term.Uncaptured, Each, EachAll, bounds,
      freeVars, VariableMap.merge]
  refine ⟨fun t ht => ?_, ?_⟩
  · obtain ⟨h1, -, h2, -⟩ := finds_renamed (m := some 1) ht .new hc hq ({} : Watch)
    exact ⟨(h1 _ hρ).1 (quiet_none 0), h2.1 (quiet_none 0)⟩
  · obtain ⟨-, -, -, -, h⟩ := finds_renamed (.inr rfl) .new hc hq ({} : Watch)
    exact h _ rfl (by decide) (List.cons_ne_nil _ _) (by decide) (quiet_none 0) _ hρ

theorem Joining.verbatim_overflows :
    ((ClauseSet.unary 2 "x" == ClauseSet.unary 0 "x") = true) ∧
      ((Tester.fullOpt.«matches» (.unary 0 "x") (.unary 2 "x")).run
        (.start (.ofMaxHeight (some (wordLimit - 2))) ({} : Watch))).2.coreAfter.overflowed = true := by
  decide +kernel

end CoreReuse
