import CoreReuse.Proofs.Matching.Overflow

namespace CoreReuse

open Search Term Renaming PollSource

variable {π : Type} [PollSource π] {V : Vocabulary} {m : Option Nat} {core query : ClauseSet}

def Tester.Renames (t : Tester) : Prop := t = .full ∨ t = .fullOpt

theorem Tester.Renames.yields {t : Tester} (ht : t.Renames) (hc : ∀ c ∈ core.clauses, c ∈ V)
    (hq : ∀ q ∈ query.clauses, q ∈ V) :
    Yields V m query (t.«matches» core query : Search π Bool) fun b =>
      b = true ↔ ∃ τ, Embeds τ core.clauses query.clauses := by
  rcases ht with rfl | rfl
  · exact Assignment.matches_yields hc hq
  · exact Joining.matches_yields hc hq

theorem Tester.Renames.computes {t : Tester} (ht : t.Renames) (hc : ∀ c ∈ core.clauses, c ∈ V)
    (hq : ∀ q ∈ query.clauses, q ∈ V) :
    ∃ n, Computes V m query (t.«matches» core query : Search π Bool)
      (exhaustive query.clauses core.clauses ∅) n := by
  obtain ⟨b, n, hn, hb⟩ := ht.yields (π := π) (m := m) hc hq
  have he : b = exhaustive query.clauses core.clauses ∅ := by
    rw [Bool.eq_iff_iff, hb, exhaustive_iff]
    simp
  exact ⟨n, he ▸ hn⟩

def Tester.Finds (t : Tester) (core query : ClauseSet) (h : Hasher) (source : π) : Prop :=
  (Quiet source → ((t.«matches» core query).run (.start h source)).1 = .ok true) ∧
    ∀ b, ((t.«matches» core query).run (.start h source)).1 = .ok b → b = true

theorem Tester.Renames.finds_of_embeds {t : Tester} (ht : t.Renames) {h : Hasher} (hh : h.Reached V m)
    (hc : ∀ c ∈ core.clauses, c ∈ V) (hq : ∀ q ∈ query.clauses, q ∈ V) {τ : Decl → Decl}
    (he : Embeds τ core.clauses query.clauses) (source : π) : t.Finds core query h source := by
  have hs := Work.sound_start query hh.sound source
  obtain ⟨n, hn⟩ := ht.computes (π := π) (m := m) hc hq
  rw [exhaustive_iff.mpr ⟨τ, Renaming.agreesWith_empty τ, he⟩] at hn
  exact ⟨hn.ok_of_quiet hs, fun b hb => (hn.eq_of_ok hs (Prod.ext hb rfl)).1⟩

theorem Tester.Renames.exists_embeds_of_ok {t : Tester} (ht : t.Renames) {h : Hasher}
    (hh : h.Reached V m) (hc : ∀ c ∈ core.clauses, c ∈ V) (hq : ∀ q ∈ query.clauses, q ∈ V)
    {source : π} (hr : ((t.«matches» core query).run (.start h source)).1 = .ok true) :
    ∃ τ, Embeds τ core.clauses query.clauses := by
  obtain ⟨b, n, hn, hb⟩ := ht.yields (π := π) (m := m) hc hq
  obtain ⟨rfl, -⟩ := hn.eq_of_ok (Work.sound_start query hh.sound source) (Prod.ext hr rfl)
  exact hb.mp rfl

/-- A run that no poll ends has the answer of the plain search, and every answer is that one; no set
is ever taken out of an empty slot; and sums of heights that fit in words are all that is formed. If
the bound and two do not, no match with the joining search is found without that sum. -/
theorem Tester.Renames.agrees {t : Tester} (ht : t.Renames) {h : Hasher} (hh : h.Reached V m)
    (hc : ∀ c ∈ core.clauses, c ∈ V) (hq : ∀ q ∈ query.clauses, q ∈ V) (source : π) :
    (Quiet source → ((t.«matches» core query).run (.start h source)).1 =
        .ok (exhaustive query.clauses core.clauses ∅)) ∧
      (∀ b, ((t.«matches» core query).run (.start h source)).1 = .ok b →
        (b = true ↔ ∃ qs, (∀ q ∈ qs, q ∈ query.clauses) ∧ Succeeds ∅ core.clauses qs)) ∧
      (∀ sets s, Joining.Slots.Reached sets s → s.next ≠ .taken) ∧
      (V.Fits m → ((t.«matches» core query).run (.start h source)).2.coreAfter.overflowed = false) ∧
      ∀ k, m = some k → wordLimit ≤ k + 2 → core.clauses ≠ [] →
        (∀ c ∈ core.clauses, c.height ≤ k + 1) →
        ((Tester.fullOpt.«matches» core query).run (.start h source)).1 = .ok true →
        ((Tester.fullOpt.«matches» core query).run (.start h source)).2.coreAfter.overflowed = true := by
  have hs := Work.sound_start query hh.sound source
  obtain ⟨n, hn⟩ := ht.computes (π := π) (m := m) hc hq
  refine ⟨fun hs' => hn.ok_of_quiet hs hs', fun b hb => ?_, fun _ _ => Joining.Slots.Reached.next_ne_taken,
    fun hf => (hn _ hs).2.1.calm hf, ?_⟩
  · rw [← exhaustive_iff_succeeds, (hn.eq_of_ok hs (Prod.ext hb rfl)).1]
  · rintro k rfl hk hne hl hr
    exact Joining.overflowed_of_matches hs hk hne hc hq hl (Prod.ext hr rfl)

def Term.unary (n : NodeId) (x : String) : Term :=
  .app n ⟨"p", [.int], .bool, none⟩ [.app (n + 1) (.constant x .int) []]

def ClauseSet.unary (n : NodeId) (x : String) : ClauseSet := ⟨[.unary n x], by simp [Term.unary, Term.ty]⟩

def Vocabulary.unaries : Vocabulary :=
  .ofTerms [.unary 0 "x", .unary 2 "a"] (by decide)

theorem Vocabulary.unaries_fits : unaries.Fits (some 7) := by
  rintro _ ⟨⟩
  exact ⟨by decide, show ∀ t ∈ subtermsAll [.unary 0 "x", .unary 2 "a"], _ by decide⟩

theorem Vocabulary.mem_unaries_core : ∀ c ∈ (ClauseSet.unary 0 "x").clauses, c ∈ unaries :=
  fun _ hc => mem_ofTerms (List.mem_append_left _ hc)

theorem Vocabulary.mem_unaries_query : ∀ q ∈ (ClauseSet.unary 2 "a").clauses, q ∈ unaries :=
  fun _ hq => mem_ofTerms (List.mem_cons_of_mem _ hq)

def ClauseSet.atoms (fs : List (NodeId × String × String)) : ClauseSet where
  clauses := fs.map fun f => .app f.1 ⟨f.2.1, [.int], .bool, none⟩ [.app (f.1 + 1) (.constant f.2.2 .int) []]
  boolean c hc := by
    obtain ⟨f, -, rfl⟩ := List.mem_map.mp hc
    rfl

namespace ClauseSet

def together : ClauseSet := .atoms [(0, "p", "x"), (2, "q", "x")]

def apart : ClauseSet := .atoms [(4, "p", "x"), (6, "r", "x")]

def foreign : ClauseSet := .atoms [(8, "s", "x")]

def mixed : ClauseSet :=
  .atoms [(10, "q", "b"), (12, "p", "a"), (14, "q", "a"), (16, "r", "b"), (18, "p", "a")]

end ClauseSet

def Vocabulary.mixed : Vocabulary :=
  .ofTerms ([ClauseSet.together, .apart, .foreign, .mixed].flatMap ClauseSet.clauses) (by decide)

theorem Vocabulary.mixed_fits : mixed.Fits (some 7) := by
  rintro _ ⟨⟩
  exact ⟨by decide, show ∀ t ∈ subtermsAll
    ([ClauseSet.together, .apart, .foreign, .mixed].flatMap ClauseSet.clauses), _ by decide⟩

theorem Vocabulary.mem_mixed {s : ClauseSet} (hs : s ∈ [ClauseSet.together, .apart, .foreign, .mixed]) :
    ∀ c ∈ s.clauses, c ∈ mixed :=
  fun _ hc => mem_ofTerms (List.mem_flatMap.mpr ⟨s, hs, hc⟩)

theorem Tester.Renames.agrees_mixed :
    (∀ t : Tester, t.Renames →
      let work := Work.start (.ofMaxHeight (some 7)) ({} : Watch)
      ((t.«matches» .together .mixed).run work).1 = .ok true ∧
        ((t.«matches» .apart .mixed).run work).1 = .ok false ∧
        ((t.«matches» .together .mixed).run work).2.coreAfter.overflowed = false) ∧
      ((Tester.fullOpt.«matches» .together .mixed).run
        (.start (.ofMaxHeight (some (wordLimit - 1))) ({} : Watch))).2.coreAfter.overflowed = true := by
  have hc := Vocabulary.mem_mixed (s := .together) (by simp)
  have hd := Vocabulary.mem_mixed (s := .apart) (by simp)
  have hq := Vocabulary.mem_mixed (s := .mixed) (by simp)
  have hx : exhaustive ClauseSet.mixed.clauses ClauseSet.together.clauses ∅ = true := by decide +kernel
  have hy : exhaustive ClauseSet.mixed.clauses ClauseSet.apart.clauses ∅ = false := by decide +kernel
  refine ⟨fun t ht => ?_, ?_⟩
  · obtain ⟨h1, -, -, h2, -⟩ := agrees ht .new hc hq ({} : Watch)
    obtain ⟨h3, -⟩ := agrees ht (m := some 7) .new hd hq ({} : Watch)
    exact ⟨hx ▸ h1 (quiet_none 0), hy ▸ h3 (quiet_none 0), h2 Vocabulary.mixed_fits⟩
  · obtain ⟨h1, -, -, -, h2⟩ := agrees (.inr rfl) .new hc hq ({} : Watch)
    exact h2 _ rfl (by decide) (List.cons_ne_nil _ _) (by decide) (hx ▸ h1 (quiet_none 0))

theorem Joining.unary_overflows :
    exhaustive (ClauseSet.unary 2 "a").clauses (ClauseSet.unary 0 "x").clauses ∅ = true ∧
      ((Tester.full.«matches» (.unary 0 "x") (.unary 2 "a")).run
        (.start (.ofMaxHeight (some (wordLimit - 1))) ({} : Watch))).2.coreAfter.overflowed = false ∧
      ((Tester.fullOpt.«matches» (.unary 0 "x") (.unary 2 "a")).run
        (.start (.ofMaxHeight (some (wordLimit - 1))) ({} : Watch))).2.coreAfter.overflowed = true := by
  decide +kernel

end CoreReuse
