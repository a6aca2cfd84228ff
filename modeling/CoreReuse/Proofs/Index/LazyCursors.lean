import CoreReuse.Proofs.Index.Offers

namespace CoreReuse

namespace LazyVisit

variable {γ δ σ : Type}

structure Follows (P : γ → δ → Prop) (v : LazyVisit γ) (w : Visit δ) : Prop where
  outer : v.outer.Gives w.pending
  key : v.key = w.key
  current : Option.Rel (fun c d => c.1 = d.1 ∧ P c.2 d.2) v.current w.current

variable {P : γ → δ → Prop} {lazyOpen : σ → γ} {openAt : σ → δ}
variable {lazyPull : σ → γ → Except Fault (Option ClauseSet × γ)}
variable {pull : σ → δ → Option ClauseSet × δ}

def Simulates (P : γ → δ → Prop) (lazyPull : σ → γ → Except Fault (Option ClauseSet × γ))
    (pull : σ → δ → Option ClauseSet × δ) : Prop :=
  ∀ s c d, P c d → ∃ c', lazyPull s c = .ok ((pull s d).1, c') ∧ P c' (pull s d).2

theorem advance_follows (ho : ∀ s, P (lazyOpen s) (openAt s)) (hp : Simulates P lazyPull pull)
    (key : Key) (inners : List σ) {pending : List Nat} {outer : Offer Nat} (h : outer.Gives pending) :
    ∃ v, advance key lazyOpen lazyPull inners outer =
        .ok ((Visit.advance key openAt pull inners pending).1, v) ∧
      Follows P v (Visit.advance key openAt pull inners pending).2 := by
  induction pending generalizing outer with
  | nil =>
    obtain ⟨outer', hnext, houter⟩ := h.next
    refine ⟨⟨outer', key, none⟩, ?_, houter, rfl, .none⟩
    rw [advance]
    split
    · next heq => cases hnext.symm.trans heq
    · next heq =>
      cases hnext.symm.trans heq
      rfl
    · next heq => cases hnext.symm.trans heq
  | cons i pending ih =>
    obtain ⟨onward, hnext, honward⟩ := h.next
    rw [advance]
    split
    · next heq => cases hnext.symm.trans heq
    · next heq => cases hnext.symm.trans heq
    · next heq =>
      cases hnext.symm.trans heq
      rw [Visit.advance]
      cases hi : inners[i]? with
      | none => exact ih honward
      | some store =>
        obtain ⟨c', hpull, hc⟩ := hp store (lazyOpen store) (openAt store) (ho store)
        simp only [hpull, bind, Except.bind]
        rcases hr : pull store (openAt store) with ⟨_ | value, d⟩ <;> rw [hr] at hc <;> simp only
        · exact ih honward
        · exact ⟨_, rfl, honward, rfl, .some ⟨rfl, hc⟩⟩

theorem next_follows (ho : ∀ s, P (lazyOpen s) (openAt s)) (hp : Simulates P lazyPull pull)
    (inners : List σ) {v : LazyVisit γ} {w : Visit δ} (h : Follows P v w) :
    ∃ v', next lazyOpen lazyPull inners v = .ok ((Visit.next openAt pull inners w).1, v') ∧
      Follows P v' (Visit.next openAt pull inners w).2 := by
  have honward := advance_follows ho hp w.key inners h.outer
  obtain ⟨pending, key, current⟩ := w
  obtain ⟨outer, key', current'⟩ := v
  obtain ⟨houter, rfl, hcurrent⟩ := h
  cases hcurrent with
  | none => exact honward
  | @some c d h =>
    obtain ⟨i, c⟩ := c
    obtain ⟨j, d⟩ := d
    obtain ⟨rfl, hc⟩ := h
    simp only [next, Visit.next]
    cases hi : inners[i]? with
    | none => exact honward
    | some store =>
      obtain ⟨c', hpull, hc'⟩ := hp store c d hc
      simp only [hpull, bind, Except.bind]
      rcases hr : pull store d with ⟨_ | value, d'⟩ <;> rw [hr] at hc' <;> simp only
      · exact honward
      · exact ⟨_, rfl, houter, rfl, .some ⟨rfl, hc'⟩⟩

end LazyVisit

section Cursors

variable {rest : List FlatKind} {seed : UInt64}

def LazyCursor.Follows : (rest : List FlatKind) → LazyCursor rest → Cursor rest → Prop
  | [], offer, values => Offer.Gives offer values
  | _ :: rest, v, w => LazyVisit.Follows (Follows rest) v w

theorem LazyCursor.openAt_follows (k : FlatKind) (key : Key) (s : Store rest) :
    Follows rest (openAt seed k rest key s) (Cursor.openAt seed k rest key s) := by
  cases rest with
  | nil => exact Offer.gives_openAt k seed key s
  | cons next rest =>
    obtain ⟨count, inners⟩ := s
    refine ⟨?_, rfl, .none⟩
    have h := Offer.gives_openAt k seed key.split.1 (handles inners)
    rwa [FlatKind.offered_handles] at h

theorem LazyCursor.pull_follows (seed : UInt64) (rest : List FlatKind) :
    LazyVisit.Simulates (Follows rest) (pull seed rest) (Cursor.pull seed rest) := by
  induction rest with
  | nil =>
    rintro s c (d : List ClauseSet) h
    obtain ⟨c', hnext, hc⟩ := Offer.Gives.next h
    cases d with
    | nil => exact ⟨c', hnext, hc⟩
    | cons core cores => exact ⟨c', hnext, hc⟩
  | cons next rest ih =>
    rintro ⟨count, inners⟩ c (d : Visit (Cursor rest)) h
    have hkey : c.key = d.key := LazyVisit.Follows.key h
    simp only [pull, Cursor.pull, hkey]
    exact LazyVisit.next_follows (openAt_follows next d.key) ih (inners.map (·.2)) h

theorem LazyCursor.Follows.hint {c : LazyCursor rest} {d : Cursor rest} (h : Follows rest c d) :
    ∃ hint, LazyCursor.hint rest c = .ok hint := by
  induction rest with
  | nil =>
    obtain ⟨hint, heq, -⟩ := Offer.Gives.hint h
    exact ⟨hint, heq⟩
  | cons next rest ih =>
    obtain ⟨outerHint, houter, -⟩ := (LazyVisit.Follows.outer h).hint
    have hcurrent := LazyVisit.Follows.current h
    simp only [LazyCursor.hint, LazyVisit.hint, bind, Except.bind, houter]
    generalize LazyVisit.current c = current at hcurrent
    generalize Visit.current d = current' at hcurrent
    cases hcurrent with
    | none => exact ⟨_, rfl⟩
    | some h =>
      obtain ⟨front, hfront⟩ := ih h.2
      simp only [hfront]
      exact ⟨_, rfl⟩

end Cursors

end CoreReuse
