import CoreReuse.Proofs.Matching.Renamed
import CoreReuse.Proofs.Matching.Shadowing

namespace CoreReuse

open Search Term PollSource

variable {π : Type} [PollSource π]

theorem Instantiates.bindsVariables {σ : Decl → Decl} {core query : List Term}
    (h : Instantiates σ core query) (hq : ∀ q ∈ query, q.Hygienic) : ∀ c ∈ core, c.BindsVariables := by
  intro c hc
  obtain ⟨q, hqm, he⟩ := h.clauses c hc
  exact bindsVariables_of_nameless_eq he (hq q hqm).binds

def ClauseSet.single (t : Term) (h : t.ty = .bool) : ClauseSet := ⟨[t], by simpa using h⟩

structure Tester.Mistakes (t : Tester) (π : Type) [PollSource π] (V : Vocabulary) (core query : ClauseSet) :
    Prop where
  finds : ∀ {m : Option Nat} {h : Hasher}, h.Reached V m → ∀ source : π, t.Finds core query h source
  wrong : ∀ σ, ¬ Instantiates σ core.clauses query.clauses

theorem Tester.Renames.exists_mistakes {t : Tester} (ht : t.Renames) {V : Vocabulary} {q : Term}
    (hqV : q ∈ V) (hb : q.ty = .bool) (hw : q.WellFormed) (hq : ¬ q.Hygienic) :
    ∃ (W : Vocabulary) (c : Term) (hc : c.ty = .bool), c ∈ W ∧ q ∈ W ∧ c.WellFormed ∧
      c.BindsVariables ∧ t.Mistakes π W (.single c hc) (.single q hb) := by
  obtain ⟨c, hcw, hcb, hcq, hne⟩ := exists_carries_of_not_hygienic hw hq
  -- The nodes of the core are numbered apart from those of the query.
  obtain ⟨W, d, hd, hqW, hdW⟩ := Vocabulary.exists_mem_of_erase_eq hqV c
  have hdq : Carries {} id d q := hcq.of_erase_eq hd rfl
  have he : Embeds id [d] [q] := by simpa [Embeds] using hdq
  refine ⟨W, d, hdq.ty_eq.trans hb, hdW, hqW, ?_, ?_, ⟨fun hh source => ?_, fun σ hσ => ?_⟩⟩
  · rwa [← wellFormed_erase, hd, wellFormed_erase]
  · rwa [← bindsVariables_erase, hd, bindsVariables_erase]
  · exact ht.finds_of_embeds hh (by simpa [ClauseSet.single] using hdW)
      (by simpa [ClauseSet.single] using hqW) he source
  · obtain ⟨u, hu, hi⟩ := hσ.clauses d (by simp [ClauseSet.single])
    obtain rfl : u = q := by simpa [ClauseSet.single] using hu
    apply hne σ
    rw [← hi, ← nameless_erase c, ← hd, nameless_erase]

/-- Where the query is hygienic, a match of a core is one up to alpha-equivalence, provided that the
core binds variables only. For every clause that is not hygienic there is a core that is mistaken
for an instance of it. -/
theorem Tester.Renames.instantiates_iff_hygienic {t : Tester} (ht : t.Renames) (V : Vocabulary) :
    (∀ (m : Option Nat) (core query : ClauseSet) (h : Hasher) (source : π), h.Reached V m →
      (∀ c ∈ core.clauses, c ∈ V ∧ c.WellFormed) →
      (∀ q ∈ query.clauses, q ∈ V ∧ q.WellFormed ∧ q.Hygienic) →
      ((t.«matches» core query).run (.start h source)).1 = .ok true →
      ((∃ σ, Instantiates σ core.clauses query.clauses) ↔ ∀ c ∈ core.clauses, c.BindsVariables)) ∧
      ∀ (q : Term) (hb : q.ty = .bool), q ∈ V → q.WellFormed → ¬ q.Hygienic →
        ∃ (W : Vocabulary) (c : Term) (hc : c.ty = .bool), c ∈ W ∧ q ∈ W ∧ c.WellFormed ∧
          c.BindsVariables ∧ t.Mistakes π W (.single c hc) (.single q hb) := by
  refine ⟨fun m core query h source hh hc hq hr => ⟨fun ⟨σ, hσ⟩ => ?_, fun hb => ?_⟩,
    fun q hb hqV hw hn => ht.exists_mistakes hqV hb hw hn⟩
  · exact hσ.bindsVariables fun q hqm => (hq q hqm).2.2
  · obtain ⟨τ, hτ⟩ := ht.exists_embeds_of_ok hh (fun c hcm => (hc c hcm).1)
      (fun q hqm => (hq q hqm).1) hr
    exact ⟨τ, hτ.instantiates (fun c hcm => (hc c hcm).2) (fun q hqm => (hq q hqm).2.1) hb
      fun q hqm => (hq q hqm).2.2⟩

def Term.forallForall (n : NodeId) (x y : String) : Term :=
  .quantified n .universal [.constant x .int] (.quantified (n + 1) .universal [.constant y .int]
    (.app (n + 2) ⟨"p", [.int, .int], .bool, none⟩
      [.app (n + 3) (.constant x .int) [], .app (n + 4) (.constant y .int) []]))

theorem not_hygienic_forallForall : ¬ (Term.forallForall 0 "a" "a").Hygienic := by
  rintro ⟨-, h⟩
  simp [Term.forallForall, Unshadowed, UnshadowedAll] at h

theorem Term.wellFormed_forallTernary {n : NodeId} {x z y : String} : (forallTernary n x z y).WellFormed := by
  simp [forallTernary, WellFormed, Each, EachAll, Decl.arity, Decl.constant]

theorem Term.bindsVariables_forallTernary {n : NodeId} {x z y : String} :
    (forallTernary n x z y).BindsVariables := by
  simp [forallTernary, BindsVariables, Each, EachAll, bounds]

theorem Tester.Renames.instantiates_ternary :
    (∃ σ, Instantiates σ [.forallTernary 0 "x" "z" "y"] [.forallTernary 5 "x" "x" "y"]) ∧
      ∃ (W : Vocabulary) (c : Term) (hc : c.ty = .bool), c ∈ W ∧ Term.forallForall 0 "a" "a" ∈ W ∧
        c.WellFormed ∧ c.BindsVariables ∧
        Tester.full.Mistakes Watch W (.single c hc) (.single (.forallForall 0 "a" "a") rfl) := by
  refine ⟨?_, ?_⟩
  · have hr : ((Tester.full.«matches» (.forallTernary 0 "x" "z" "y") (.forallTernary 5 "x" "x" "y")).run
        (.start (.ofMaxHeight (some 7)) ({} : Watch))).1 = .ok true := by decide +kernel
    refine ((instantiates_iff_hygienic (.inl rfl) Vocabulary.ternaries).1 (some 7) _ _ _ ({} : Watch) .new
      ?_ ?_ hr).mpr ?_
    · intro c hc
      have hV := Vocabulary.mem_ternaries_core c hc
      obtain rfl := List.mem_singleton.mp hc
      exact ⟨hV, wellFormed_forallTernary⟩
    · intro q hq
      have hV := Vocabulary.mem_ternaries_query q hq
      obtain rfl := List.mem_singleton.mp hq
      refine ⟨hV, wellFormed_forallTernary, bindsVariables_forallTernary, ?_⟩
      simp +decide [Term.forallTernary, Unshadowed, UnshadowedAll]
    · rintro c hc
      exact List.mem_singleton.mp hc ▸ bindsVariables_forallTernary
  · refine (instantiates_iff_hygienic (.inl rfl) (.ofTerms [.forallForall 0 "a" "a"] (by decide))).2 _ rfl
      (Vocabulary.mem_ofTerms List.mem_cons_self) ?_ not_hygienic_forallForall
    simp [Term.forallForall, Term.WellFormed, Each, EachAll, Decl.arity, Decl.constant]

theorem forallForall_mistaken :
    (∀ t : Tester, t.Renames →
      ((t.«matches» (.single (.forallForall 0 "x" "y") rfl) (.single (.forallForall 5 "a" "a") rfl)).run
        (.start (.ofMaxHeight (some 7)) ({} : Watch))).1 = .ok true) ∧
      ∀ σ, ¬ Instantiates σ [.forallForall 0 "x" "y"] [.forallForall 5 "a" "a"] := by
  refine ⟨?_, fun σ h => ?_⟩
  · rintro t (rfl | rfl)
    · decide +kernel
    · decide +kernel
  · obtain ⟨q, hq, he⟩ := h.clauses _ List.mem_cons_self
    obtain rfl := List.mem_singleton.mp hq
    simp +decide [Term.forallForall, nameless, namelessAll, symbol, Nameless.rename, Nameless.renameAll] at he

end CoreReuse
