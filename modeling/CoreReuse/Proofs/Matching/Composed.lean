import CoreReuse.Matching.Tester

namespace CoreReuse

variable {π : Type} [PollSource π]

namespace Search

structure Composes (T : Term → Prop) (query : ClauseSet) (P : (α : Type) → Search π α → Prop) :
    Prop where
  pure : ∀ {α : Type} (a : α), P α (pure a)
  bind : ∀ {α β : Type} {s : Search π α} {f : α → Search π β}, P α s → (∀ a, P β (f a)) → P β (s >>= f)
  poll : P Unit poll
  emit : ∀ e, P Unit (emit e)
  hashCore : ∀ {t}, T t → P UInt64 (hashCore t)
  queryHashes : P (List UInt64) (queryHashes query)
  queryBuckets : P Buckets (queryBuckets query)
  unify : ∀ {r l t}, T l → T t → P (Option Renaming) (unify r l t)

variable {T : Term → Prop} {query : ClauseSet} {P : (α : Type) → Search π α → Prop}

theorem Composes.anyM (h : Composes T query P) {α : Type} {f : α → Search π Bool}
    (hf : ∀ a, P Bool (f a)) (as : List α) : P Bool (as.anyM f) := by
  induction as with
  | nil => exact h.pure false
  | cons a as ih =>
    rw [List.anyM]
    apply h.bind (hf a)
    rintro (_ | _)
    · exact ih
    · exact h.pure true

theorem Composes.foldlM (h : Composes T query P) {α β : Type} {f : β → α → Search π β}
    (hf : ∀ b a, P β (f b a)) (as : List α) (b : β) : P β (as.foldlM f b) := by
  induction as generalizing b with
  | nil => exact h.pure b
  | cons a as ih =>
    rw [List.foldlM_cons]
    exact h.bind (hf b a) ih

end Search

open Search

variable {T : Term → Prop} {core query : ClauseSet} {P : (α : Type) → Search π α → Prop}

namespace Assignment

theorem attempt_composed (h : Composes T query P) {r : Renaming} {c q : Term} (hc : T c) (hq : T q) :
    P _ (attempt r c q) :=
  h.bind h.poll fun _ => h.unify hc hq

theorem placements_composed (h : Composes T query P) {r : Renaming} {c : Term} (hc : T c)
    {qs : List Term} (hq : ∀ q ∈ qs, T q) : P _ (placements r c qs) := by
  induction qs with
  | nil => exact h.pure []
  | cons q qs ih =>
    obtain ⟨hq, hqs⟩ := List.forall_mem_cons.mp hq
    apply h.bind (attempt_composed h hc hq)
    intro here
    apply h.bind (ih hqs)
    intro rest
    exact h.pure _

theorem placeable_composed (h : Composes T query P) {r : Renaming} {c : Term} (hc : T c)
    {qs : List Term} (hq : ∀ q ∈ qs, T q) : P _ (placeable r c qs) := by
  induction qs with
  | nil => exact h.pure false
  | cons q qs ih =>
    obtain ⟨hq, hqs⟩ := List.forall_mem_cons.mp hq
    apply h.bind (attempt_composed h hc hq)
    rintro (_ | s)
    · exact ih hqs
    · exact h.pure true

theorem explore_composed (h : Composes T query P) {qs cs : List Term} (hq : ∀ q ∈ qs, T q)
    (hc : ∀ c ∈ cs, T c) {r : Renaming} : P _ (explore qs cs r) := by
  fun_induction explore (π := π) qs cs r with
  | case1 r => exact h.pure true
  | case2 c r =>
    apply h.bind (placeable_composed h (hc c List.mem_cons_self) hq)
    rintro (_ | _)
    · exact h.pure false
    · exact h.bind (h.emit _) fun _ => h.pure true
  | case3 r c d cs ih =>
    obtain ⟨hc, hcs⟩ := List.forall_mem_cons.mp hc
    apply h.bind (placements_composed h hc hq)
    intro next
    exact h.anyM (fun s => ih s hcs) next.reverse

end Assignment

namespace Joining

theorem renamingsTo_composed (h : Composes T query P) {c : Term} (hc : T c) {qs : List Term}
    (hq : ∀ q ∈ qs, T q) (found : List Renaming) : P _ (renamingsTo c qs found) := by
  induction qs generalizing found with
  | nil => exact h.pure found
  | cons q qs ih =>
    obtain ⟨hq, hqs⟩ := List.forall_mem_cons.mp hq
    apply h.bind h.poll
    intro _
    apply h.bind (h.unify hc hq)
    rintro (_ | r)
    · exact ih hqs found
    · exact ih hqs (addNew found r)

theorem covered_composed (h : Composes T query P) {buckets : Buckets} {cs : List Term}
    (hc : ∀ c ∈ cs, T c) : P _ (covered buckets cs) := by
  induction cs with
  | nil => exact h.pure true
  | cons c cs ih =>
    obtain ⟨hc, hcs⟩ := List.forall_mem_cons.mp hc
    apply h.bind (h.hashCore hc)
    intro hash
    split
    · exact ih hcs
    · exact h.pure false

theorem mem_of_mem_bucket {buckets : Buckets} {hash : UInt64} {q : Term}
    (hq : q ∈ bucket buckets query hash) : q ∈ query.clauses := by
  obtain ⟨i, -, hi⟩ := List.mem_filterMap.mp hq
  exact List.mem_of_getElem? hi

theorem collect_composed (h : Composes T query P) {buckets : Buckets} {cs : List Term}
    (hc : ∀ c ∈ cs, T c) (hq : ∀ q ∈ query.clauses, T q) (targets : Targets) :
    P _ (collect buckets query cs targets) := by
  induction cs generalizing targets with
  | nil => exact h.pure _
  | cons c cs ih =>
    obtain ⟨hc, hcs⟩ := List.forall_mem_cons.mp hc
    apply h.bind (h.hashCore hc)
    intro hash
    apply h.bind (renamingsTo_composed h hc (fun q hm => hq q (mem_of_mem_bucket hm)) [])
    intro found
    split
    · exact h.pure none
    · split
      · exact h.pure none
      · next after _ =>
        apply h.bind (ih hcs after)
        rintro (_ | ⟨sets, targets⟩)
        · exact h.pure none
        · exact h.pure _

theorem joinSets_composed (h : Composes T query P) (left right : List Renaming) :
    P _ (joinSets left right) := by
  refine h.foldlM (fun found l => h.foldlM (fun found r => ?_) right found) left []
  apply h.bind h.poll
  intro _
  split
  · exact h.pure _
  · exact h.pure _

theorem joinAll_composed (h : Composes T query P) (s : Slots) : P _ (joinAll s) := by
  fun_induction joinAll (π := π) s with
  | case1 s hn => exact h.pure true
  | case2 s size hn => exact h.bind (h.emit _) fun _ => h.pure true
  | case3 s left right rest hn ih =>
    apply h.bind (joinSets_composed h left right)
    intro joined
    split
    · exact h.pure false
    · exact ih joined
  | case4 s hn => exact h.pure false

theorem matchClauses_composed (h : Composes T query P) {cs : List Term} (hc : ∀ c ∈ cs, T c)
    (hq : ∀ q ∈ query.clauses, T q) : P _ (matchClauses cs query) := by
  apply h.bind h.queryBuckets
  intro buckets
  apply h.bind (covered_composed h hc)
  rintro (_ | _)
  · exact h.pure false
  · apply h.bind (collect_composed h hc hq ∅)
    rintro (_ | ⟨sets, targets⟩)
    · exact h.pure false
    · dsimp only
      split
      · exact h.pure false
      · exact joinAll_composed h _

theorem matches_composed (h : Composes T query P) (hc : ∀ c ∈ core.clauses, T c)
    (hq : ∀ q ∈ query.clauses, T q) : P _ («matches» core query) := by
  unfold «matches»
  split
  · exact h.pure true
  · exact matchClauses_composed h hc hq

end Joining

theorem Verbatim.matchClauses_composed (h : Composes T query P) (cs : List Term) :
    P _ (matchClauses query cs) := by
  induction cs with
  | nil => exact h.pure true
  | cons c cs ih =>
    apply h.bind h.poll
    intro _
    split
    · exact ih
    · exact h.pure false

theorem Tester.matches_composed (h : Composes T query P) (t : Tester) (hc : ∀ c ∈ core.clauses, T c)
    (hq : ∀ q ∈ query.clauses, T q) : P _ (t.«matches» core query) := by
  cases t with
  | simple => exact Verbatim.matchClauses_composed h core.clauses
  | full => exact Assignment.explore_composed h hq hc
  | fullOpt => exact Joining.matches_composed h hc hq

end CoreReuse
