import CoreReuse.Config.Text
import CoreReuse.Pipeline
import CoreReuse.Proofs.Index.Filling
import CoreReuse.Proofs.Index.LazyCursors
import CoreReuse.Proofs.Index.Parallel

namespace CoreReuse

section Keys

variable {π : Type} {k : FlatKind} {kind : IndexKind} {width : UInt64}

theorem FlatKind.checkedBits_eq (h : width ≠ 0) (hashes : List UInt64) :
    checkedBits width hashes = .ok (Bits.ofHashes width hashes) := by
  have hremainder : checkedRemainder width = fun hash => pure (hash % width).toNat := by
    funext hash
    exact if_neg h
  rw [checkedBits, hremainder, List.mapM_pure]
  rfl

theorem FlatKind.width_ne_zero (h : (bloom width).validate = .ok ()) : width ≠ 0 :=
  one_le_iff_ne_zero.mp (validate_eq_ok_iff.mp h)

theorem FlatKind.checkedCoreKey_eq (h : k.validate = .ok ()) (hasher : Hasher) (core : ClauseSet) :
    k.checkedCoreKey hasher core = .ok (k.coreKey hasher core) := by
  cases k with
  | list => rfl
  | random candidates => rfl
  | bloom nbits =>
    simp only [checkedCoreKey, checkedBits_eq (width_ne_zero h)]
    rfl

theorem FlatKind.checkedQueryKey_eq (h : k.validate = .ok ()) (query : ClauseSet) :
    (k.checkedQueryKey query : ExceptT Fault (Search π) Key) = ExceptT.lift (k.queryKey query) := by
  cases k with
  | list => exact (ExceptT.lift_pure _).symm
  | random candidates =>
    rw [queryKey, ExceptT.lift_bind]
    rfl
  | bloom nbits =>
    rw [queryKey, ExceptT.lift_bind]
    simp only [checkedQueryKey, checkedBits_eq (width_ne_zero h)]
    rfl

theorem IndexKind.checkedCoreKey_eq (h : kind.validate = .ok ()) (hasher : Hasher) (core : ClauseSet) :
    kind.checkedCoreKey hasher core = .ok (Store.coreKey kind.levels.1 kind.levels.2 hasher core) := by
  induction kind generalizing hasher with
  | flat k => exact FlatKind.checkedCoreKey_eq h hasher core
  | composite outer inner _ ih =>
    obtain ⟨houter, hinner⟩ := validate_composite h
    rw [checkedCoreKey, FlatKind.checkedCoreKey_eq houter]
    simp only [bind, Except.bind, ih hinner]
    rfl

theorem IndexKind.checkedQueryKey_eq (h : kind.validate = .ok ()) (query : ClauseSet) :
    (kind.checkedQueryKey query : ExceptT Fault (Search π) Key) =
      ExceptT.lift (Store.queryKey kind.levels.1 kind.levels.2 query) := by
  induction kind with
  | flat k => exact FlatKind.checkedQueryKey_eq h query
  | composite outer inner _ ih =>
    obtain ⟨houter, hinner⟩ := validate_composite h
    simp only [checkedQueryKey, FlatKind.checkedQueryKey_eq houter, ih hinner, levels, Store.queryKey,
      ExceptT.lift_bind, ExceptT.lift_pure]

end Keys

namespace IndexKind

variable {kind : IndexKind}

theorem make_eq (h : kind.validate = .ok ()) : kind.make = .ok (.empty kind.levels.2) := by
  induction kind with
  | flat k => rfl
  | composite outer inner _ ih =>
    cases outer with
    | flat k =>
      rw [make, ih (validate_composite h).2]
      rfl
    | composite outer' inner' => cases h

theorem checkedInsert_eq (h : kind.validate = .ok ()) (seed : UInt64) (key : Key) (core : ClauseSet)
    (s : Store kind.levels.2) :
    kind.checkedInsert seed key core s =
      .ok (Store.insert seed kind.levels.1 kind.levels.2 key core s) := by
  induction kind generalizing key with
  | flat k => rfl
  | composite outer inner _ ih =>
    obtain ⟨count, inners⟩ := s
    have hinner := (validate_composite h).2
    have hoffered := (Offer.gives_openAt outer.outermost seed
      (outer.outermost.lookupKey key.split.1) (handles inners)).drain
    rw [FlatKind.offered_handles] at hoffered
    rw [checkedInsert, hoffered, make_eq hinner]
    simp only [levels, Store.insert, bind, Except.bind, ih hinner]
    split
    · rfl
    · simp only [← apply_ite (pure (f := Except Fault))]
      rw [List.mapM_pure, List.mapIdx_eq_zipIdx_map]
      rfl

end IndexKind

theorem Search.run_lift {π α : Type} (q : Search π α) (w : Work π) :
    (ExceptT.lift q : ExceptT Fault (Search π) α).run.run w = ((q.run w).1.map .ok, (q.run w).2) := by
  rw [ExceptT.run_lift, ← bind_pure_comp, run_bind]
  rcases q.run w with ⟨_ | a, w⟩ <;> rfl

theorem forall₂_set {α β : Type} {R : α → β → Prop} {as : List α} {bs : List β} {a : α} {b : β}
    (h : List.Forall₂ R as bs) (hab : R a b) (i : Nat) : List.Forall₂ R (as.set i a) (bs.set i b) := by
  induction h generalizing i with
  | nil => exact .nil
  | cons hhead htail ih =>
    cases i with
    | zero => exact .cons hab htail
    | succ i => exact .cons hhead (ih i)

namespace Session

structure Follows (rest : List FlatKind) (s : LazySession rest) (t : Session (Store rest) (Cursor rest)) :
    Prop where
  core : s.core = t.core
  store : s.store = t.store
  cursors : List.Forall₂ (LazyCursor.Follows rest) s.cursors t.cursors

variable {kind : IndexKind}
variable {s : LazySession kind.levels.2} {t : Session (Store kind.levels.2) (Cursor kind.levels.2)}

theorem step_follows (hv : kind.validate = .ok ()) (seed : UInt64) (h : Follows kind.levels.2 s t)
    (request : Request) :
    ∃ replies s', kind.step seed s request = .ok (replies, s') ∧
      replies.filterMap Reply.candidate? = (t.step seed kind.levels.1 kind.levels.2 request).1 ∧
      Follows kind.levels.2 s' (t.step seed kind.levels.1 kind.levels.2 request).2 := by
  obtain ⟨core, store, cursors⟩ := s
  obtain ⟨core', store', cursors'⟩ := t
  obtain ⟨rfl, rfl, hcursors⟩ := h
  cases request with
  | add added =>
    refine ⟨[], ⟨_, _, cursors⟩, ?_, rfl, rfl, rfl, hcursors⟩
    simp only [IndexKind.step, IndexKind.checkedCoreKey_eq hv, IndexKind.checkedInsert_eq hv, bind,
      Except.bind]
    rfl
  | put key added =>
    refine ⟨[], ⟨_, _, cursors⟩, ?_, rfl, rfl, rfl, hcursors⟩
    simp only [IndexKind.step, IndexKind.checkedInsert_eq hv, bind, Except.bind]
    rfl
  | ask query =>
    simp only [IndexKind.step, IndexKind.checkedQueryKey_eq hv, step, Search.run_lift]
    rcases (Store.queryKey kind.levels.1 kind.levels.2 query).run (.start core ()) with ⟨e | key, w⟩
    · exact ⟨[], ⟨_, _, _⟩, rfl, rfl, rfl, rfl, hcursors⟩
    · refine ⟨[], ⟨_, _, _⟩, rfl, rfl, rfl, rfl, ?_⟩
      exact List.rel_append hcursors (.cons (LazyCursor.openAt_follows _ _ _) .nil)
  | look key =>
    refine ⟨[], ⟨_, _, _⟩, rfl, rfl, rfl, rfl, ?_⟩
    exact List.rel_append hcursors (.cons (LazyCursor.openAt_follows _ _ _) .nil)
  | pull i =>
    have hi := FlatKind.getElem?_rel hcursors i
    simp only [IndexKind.step, step]
    generalize cursors[i]? = c at hi
    generalize cursors'[i]? = d at hi
    cases hi with
    | none => exact ⟨[], _, rfl, rfl, rfl, rfl, hcursors⟩
    | @some c d h =>
      obtain ⟨c', hpull, hc⟩ := LazyCursor.pull_follows seed kind.levels.2 store c d h
      simp only [hpull, bind, Except.bind]
      exact ⟨_, ⟨_, _, _⟩, rfl, rfl, rfl, rfl, forall₂_set hcursors hc i⟩
  | hint i =>
    have hi := FlatKind.getElem?_rel hcursors i
    simp only [IndexKind.step, step]
    generalize cursors[i]? = c at hi
    generalize cursors'[i]? = d at hi
    cases hi with
    | none => exact ⟨[], _, rfl, rfl, rfl, rfl, hcursors⟩
    | some h =>
      obtain ⟨hint, heq⟩ := h.hint
      simp only [heq, bind, Except.bind]
      exact ⟨_, ⟨_, _, _⟩, rfl, rfl, rfl, rfl, hcursors⟩

theorem runFrom_follows (hv : kind.validate = .ok ()) (seed : UInt64) (h : Follows kind.levels.2 s t)
    (requests : List Request) :
    ∃ replies s', kind.runFrom seed requests s = .ok (replies, s') ∧
      replies.filterMap Reply.candidate? = (run seed kind.levels.1 kind.levels.2 requests t).1 ∧
      Follows kind.levels.2 s' (run seed kind.levels.1 kind.levels.2 requests t).2 := by
  induction requests generalizing s t with
  | nil => exact ⟨[], s, rfl, rfl, h⟩
  | cons request requests ih =>
    obtain ⟨replies, s', hstep, hfirst, hs⟩ := step_follows hv seed h request
    obtain ⟨more, s'', hrun, hrest, hs'⟩ := ih hs
    refine ⟨replies ++ more, s'', ?_, ?_, hs'⟩
    · simp only [IndexKind.runFrom, hstep, hrun, bind, Except.bind]
      rfl
    · rw [List.filterMap_append, hfirst, hrest]
      rfl

end Session

theorem IndexKind.run_eq {kind : IndexKind} (hv : kind.validate = .ok ()) (seed : UInt64)
    (core : Hasher) (requests : List Request) :
    ∃ replies store, kind.run seed core requests = .ok (replies, store) ∧
      (replies.filterMap Reply.candidate?, store) =
        Index.run ⟨seed, kind.levels.1, kind.levels.2, .empty kind.levels.2⟩ core requests := by
  have hstart : Session.Follows kind.levels.2 ⟨core, .empty kind.levels.2, []⟩
      ⟨core, .empty kind.levels.2, []⟩ := ⟨rfl, rfl, .nil⟩
  obtain ⟨replies, s, hrun, hreplies, hs⟩ := Session.runFrom_follows hv seed hstart requests
  refine ⟨replies, s.store, ?_, Prod.ext hreplies hs.store⟩
  simp only [run, make_eq hv, hrun, bind, Except.bind]
  rfl

theorem IndexKind.build_of_validate {kind : IndexKind} (h : kind.validate = .ok ()) (seed : UInt64) :
    kind.build seed = .ok ⟨seed, kind.levels.1, kind.levels.2, .empty kind.levels.2⟩ := by
  rw [build, h]
  rfl

namespace Config

variable {c : Config}

theorem validate_index (h : c.validate = .ok ()) : c.index.validate = .ok () := by
  rw [validate] at h
  cases hv : c.index.validate with
  | error e =>
    rw [hv] at h
    cases h
  | ok u => rfl

theorem exists_build (h : c.validate = .ok ()) : ∃ cache events, c.build = .ok (cache, events) := by
  rw [build, h, IndexKind.build_of_validate (validate_index h)]
  cases c.mode with
  | disabled => exact ⟨_, _, rfl⟩
  | enabled =>
    cases c.maxCoreSize with
    | none => exact ⟨_, _, rfl⟩
    | some bound => exact ⟨_, _, rfl⟩

theorem build_eq_error_iff {e : ConfigError} : c.build = .error e ↔ c.validate = .error e := by
  cases h : c.validate with
  | error e' =>
    rw [build, h]
    constructor
    · rintro ⟨⟩
      rfl
    · rintro ⟨⟩
      rfl
  | ok u =>
    obtain ⟨cache, events, hbuild⟩ := exists_build h
    rw [hbuild]
    exact iff_of_false nofun nofun

theorem validate_of_ofJson {s : String} (h : ofJson s = .ok c) : c.validate = .ok () := by
  rw [ofJson] at h
  split at h
  · next c' _ =>
    cases hv : c'.validate with
    | error e =>
      rw [hv] at h
      cases h
    | ok u =>
      rw [hv] at h
      cases h
      exact hv
  · cases h

end Config

/-- Exactly the chains of flat kinds with positive numbers are valid. Whatever is asked of an index of a
valid kind, no fault arises, and its candidates are those of the index that is built. So a cache is built
whenever its configuration is valid, and every configuration that is read is. -/
theorem IndexKind.run_without_fault :
    (∀ kind : IndexKind, kind.validate = .ok () ↔
      ∃ first rest, kind = ofLevels first rest ∧ ∀ l ∈ first :: rest, l.Positive) ∧
    (∀ kind : IndexKind, kind.validate = .ok () →
      ∀ (seed : UInt64) (core : Hasher) (requests : List Request),
        let index : Index := ⟨seed, kind.levels.1, kind.levels.2, .empty kind.levels.2⟩
        kind.build seed = .ok index ∧
          ∃ replies store, kind.run seed core requests = .ok (replies, store) ∧
            (replies.filterMap Reply.candidate?, store) = index.run core requests) ∧
    ∀ c : Config, (∀ e, c.build = .error e ↔ c.validate = .error e) ∧
      ∀ s, Config.ofJson s = .ok c → ∃ cache events, c.build = .ok (cache, events) := by
  refine ⟨fun kind => validate_eq_ok_iff, fun kind hv seed core requests => ?_, fun c => ⟨fun e => ?_, ?_⟩⟩
  · exact ⟨build_of_validate hv seed, run_eq hv seed core requests⟩
  · exact Config.build_eq_error_iff
  · exact fun s h => Config.exists_build (Config.validate_of_ofJson h)

theorem IndexKind.run_without_fault_layered :
    let kind := ofLevels (.bloom 37) [.random 2, .list]
    let requests : List Request := [.add (.unary 0 "a"), .add (.unary 2 "b"), .ask (.unary 4 "c"),
      .hint 0, .pull 0, .hint 0, .pull 0, .pull 0]
    let config : Config := { index := kind, seed := 7 }
    let text := "\x7b\"index\": \"bloom:37/random:2/list\", \"seed\": 7\x7d"
    kind.validate = .ok () ∧
      (∃ replies store, kind.run 7 (.ofMaxHeight none) requests = .ok (replies, store) ∧
        (replies.filterMap Reply.candidate?).map Option.isSome = [true, true, false]) ∧
      Config.ofJson text = .ok config ∧ ∃ cache events, config.build = .ok (cache, events) := by
  intro kind requests config text
  obtain ⟨-, hrun, hconfig⟩ := run_without_fault
  have hv : kind.validate = .ok () := rfl
  obtain ⟨-, replies, store, heq, hanswers⟩ := hrun kind hv 7 (.ofMaxHeight none) requests
  refine ⟨hv, ⟨replies, store, heq, ?_⟩, ?_⟩
  · rw [show replies.filterMap _ = _ from (Prod.ext_iff.mp hanswers).1]
    decide +kernel
  · have hread : (Config.ofJson text).toOption = some config := by decide +kernel
    cases h : Config.ofJson text with
    | error e =>
      rw [h] at hread
      cases hread
    | ok c =>
      rw [h] at hread
      obtain rfl := Option.some.inj hread
      exact ⟨rfl, (hconfig _).2 text h⟩

example (core : Hasher) :
    (IndexKind.composite (.flat .list) (.flat (.bloom 0))).run 7 core [.add (.unary 0 "a")] =
        .error .zeroWidth ∧
      (IndexKind.composite (.flat .list) (.composite (.composite (.flat .list) (.flat .list))
        (.flat .list))).run 7 core [] = .error .compositeOuter :=
  ⟨rfl, rfl⟩

end CoreReuse
