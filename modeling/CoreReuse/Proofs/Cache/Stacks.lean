import CoreReuse.Proofs.Cache.Twins

namespace CoreReuse

namespace Layer

def rewrite : Layer → ClauseSet → ClauseSet
  | preprocess transform, s => transform s
  | _, s => s

def acceptsCore : Layer → ClauseSet → Bool
  | filter accepts _, core => accepts core
  | _, _ => true

def acceptsQuery : Layer → ClauseSet → Bool
  | filter _ accepts, query => accepts query
  | _, _ => true

def report? : Layer → ClauseSet → Bool → Option Report
  | onCheckEnd number, query, hit => some ⟨number, query, hit⟩
  | _, _, _ => none

def rewriteAll (layers : List Layer) (s : ClauseSet) : ClauseSet := layers.foldl (fun s l => l.rewrite s) s

def Admits (accepts : Layer → ClauseSet → Bool) (layers : List Layer) (s : ClauseSet) : Prop :=
  ∀ i : Fin layers.length, accepts layers[i] (rewriteAll (layers.take i) s) = true

instance (accepts : Layer → ClauseSet → Bool) (layers : List Layer) (s : ClauseSet) :
    Decidable (Admits accepts layers s) :=
  inferInstanceAs (Decidable (∀ _ : Fin layers.length, _ = true))

def reportAt (layers : List Layer) (query : ClauseSet) (hit : Bool) (i : Fin layers.length) : Option Report :=
  if Admits acceptsQuery (layers.take i) query then
    layers[i].report? (rewriteAll (layers.take i) query) hit
  else none

def reports (layers : List Layer) (query : ClauseSet) (hit : Bool) : List Report :=
  ((List.finRange layers.length).filterMap (reportAt layers query hit)).reverse

variable {accepts : Layer → ClauseSet → Bool} {l : Layer} {layers : List Layer} {s query : ClauseSet}
variable {hit : Bool}

@[simp] theorem rewriteAll_nil : rewriteAll [] s = s := rfl

@[simp] theorem rewriteAll_cons : rewriteAll (l :: layers) s = rewriteAll layers (l.rewrite s) := rfl

@[simp] theorem admits_nil : Admits accepts [] s := fun i => i.elim0

@[simp] theorem admits_cons :
    Admits accepts (l :: layers) s ↔ accepts l s = true ∧ Admits accepts layers (l.rewrite s) :=
  Fin.forall_fin_succ

-- A filter on the size under a layer that drops repeated clauses, and over it.
example :
    let twice : ClauseSet := ⟨[.unary 0 "x", .unary 0 "x"],
      List.forall_mem_cons.mpr ⟨rfl, List.forall_mem_singleton.mpr rfl⟩⟩
    Admits acceptsCore [preprocess ClauseSet.dedup, maxCoreSize 1] twice ∧
      ¬ Admits acceptsCore [maxCoreSize 1, preprocess ClauseSet.dedup] twice := by
  decide +kernel

theorem reportAt_zero :
    reportAt (l :: layers) query hit (0 : Fin (layers.length + 1)) = l.report? query hit :=
  if_pos admits_nil

theorem reportAt_succ (i : Fin layers.length) :
    reportAt (l :: layers) query hit i.succ =
      if l.acceptsQuery query then reportAt layers (l.rewrite query) hit i else none := by
  simp only [reportAt, Fin.val_succ, List.take_succ_cons, admits_cons, rewriteAll_cons]
  by_cases hq : l.acceptsQuery query = true
  · simp [hq]
  · simp [hq]

theorem filterMap_reportAt_succ :
    (List.finRange layers.length).filterMap (fun i => reportAt (l :: layers) query hit i.succ) =
      if l.acceptsQuery query then
        (List.finRange layers.length).filterMap (reportAt layers (l.rewrite query) hit) else [] := by
  simp only [reportAt_succ]
  split <;> simp

theorem reports_cons :
    reports (l :: layers) query = fun hit =>
      (if l.acceptsQuery query then reports layers (l.rewrite query) hit else []) ++
        (l.report? query hit).toList := by
  funext hit
  have hplaces : (List.finRange (layers.length + 1)).filterMap (reportAt (l :: layers) query hit) =
      (l.report? query hit).toList ++ (List.finRange layers.length).filterMap
        (fun i => reportAt (l :: layers) query hit i.succ) := by
    rw [List.finRange_succ, List.filterMap_cons, List.filterMap_map, reportAt_zero]
    cases l.report? query hit <;> rfl
  change (List.filterMap _ (List.finRange (layers.length + 1))).reverse = _
  rw [hplaces, filterMap_reportAt_succ, List.reverse_append]
  congr 1
  · split <;> rfl
  · cases l.report? query hit <;> rfl

end Layer

namespace Outcome

variable {κ ρ π : Type}

def turnedAway (cache : κ) (source : π) : Outcome κ π := { answer := .ok false, cache, source }

def reporting (o : Outcome κ π) (reports : Bool → List Report) : Outcome κ π :=
  match o.answer with
  | .ok hit => { o with reports := o.reports ++ reports hit }
  | .error _ => o

theorem reporting_reporting (o : Outcome κ π) (f g : Bool → List Report) :
    (o.reporting f).reporting g = o.reporting fun hit => f hit ++ g hit := by
  obtain ⟨_ | hit, cache, source, events, reports⟩ := o
  · rfl
  · simp [reporting]

theorem reporting_nil (o : Outcome κ π) : (o.reporting fun _ => []) = o := by
  obtain ⟨_ | hit, cache, source, events, reports⟩ := o
  · rfl
  · simp [reporting]

theorem map_reporting (o : Outcome κ π) (f : κ → ρ) (reports : Bool → List Report) :
    (o.reporting reports).map f = (o.map f).reporting reports := by
  obtain ⟨_ | hit, cache, source, events, reports⟩ := o
  · rfl
  · rfl

@[simp] theorem reporting_answer (o : Outcome κ π) (reports : Bool → List Report) :
    (o.reporting reports).answer = o.answer := by
  obtain ⟨_ | hit, cache, source, events, reports⟩ := o
  · rfl
  · rfl

@[simp] theorem reporting_cache (o : Outcome κ π) (reports : Bool → List Report) :
    (o.reporting reports).cache = o.cache := by
  obtain ⟨_ | hit, cache, source, events, reports⟩ := o
  · rfl
  · rfl

@[simp] theorem reporting_source (o : Outcome κ π) (reports : Bool → List Report) :
    (o.reporting reports).source = o.source := by
  obtain ⟨_ | hit, cache, source, events, reports⟩ := o
  · rfl
  · rfl

end Outcome

namespace Layered

open Layer

variable {κ π : Type} [UnsatCache κ] [PollSource π]

theorem addThrough_eq (base : κ) (core : ClauseSet) (layers : List Layer) :
    addThrough base core layers =
      if Admits acceptsCore layers core then UnsatCache.add base (rewriteAll layers core) else (base, []) := by
  induction layers generalizing core with
  | nil => simp
  | cons l layers ih =>
    cases l with
    | filter accepts _ =>
      simp only [addThrough, ih, admits_cons, rewriteAll_cons, acceptsCore, rewrite]
      by_cases hc : accepts core = true <;> simp [hc]
    | preprocess transform => simp [addThrough, ih, acceptsCore, rewrite]
    | onCheckEnd number => simp [addThrough, ih, acceptsCore, rewrite]

theorem checkThrough_eq (base : κ) (query : ClauseSet) (source : π) (layers : List Layer) :
    checkThrough base query source layers =
      (if Admits acceptsQuery layers query then UnsatCache.check base (rewriteAll layers query) source
        else .turnedAway base source).reporting (reports layers query) := by
  induction layers generalizing query with
  | nil =>
    rw [if_pos admits_nil]
    exact (Outcome.reporting_nil _).symm
  | cons l layers ih =>
    simp only [admits_cons, rewriteAll_cons, reports_cons]
    cases l with
    | filter _ accepts =>
      simp only [checkThrough, ih, acceptsQuery, rewrite, report?, Option.toList_none, List.append_nil]
      by_cases hq : accepts query = true
      · simp [hq]
      · simp only [hq, Bool.false_eq_true, if_false, false_and]
        exact (Outcome.reporting_nil _).symm
    | preprocess transform => simp [checkThrough, ih, acceptsQuery, rewrite, report?]
    | onCheckEnd number =>
      have hreported (o : Outcome κ π) :
          reported number query o = o.reporting fun hit => [⟨number, query, hit⟩] := rfl
      simp [checkThrough, ih, acceptsQuery, rewrite, report?, hreported, Outcome.reporting_reporting]

theorem check_eq (c : Layered κ) (query : ClauseSet) (source : π) :
    UnsatCache.check c query source =
      (if Admits acceptsQuery c.layers query then
          (UnsatCache.check c.base (rewriteAll c.layers query) source).map fun base => { c with base }
        else .turnedAway c source).reporting (reports c.layers query) := by
  change (checkThrough c.base query source c.layers).map (fun base => { c with base }) = _
  rw [checkThrough_eq, Outcome.map_reporting]
  split <;> rfl

end Layered

inductive Call where
  | add (core : ClauseSet)
  | check (query : ClauseSet)

structure Recorded (κ : Type) where
  base : κ
  calls : List Call := []

instance {κ : Type} [UnsatCache κ] : UnsatCache (Recorded κ) where
  add c core :=
    let (base, events) := UnsatCache.add c.base core
    (⟨base, c.calls ++ [.add core]⟩, events)
  check c query source :=
    (UnsatCache.check c.base query source).map fun base => ⟨base, c.calls ++ [.check query]⟩

namespace Use

open Layer

def call : Use → Call
  | add core => .add core
  | check query _ => .check query

def core? : Use → Option ClauseSet
  | add core => some core
  | check _ _ => none

@[simp] theorem core?_add (core : ClauseSet) : (add core).core? = some core := rfl

@[simp] theorem core?_check (query : ClauseSet) (answers : Nat → Bool) :
    (check query answers).core? = none := rfl

def through (layers : List Layer) : Use → Option Use
  | add core => if Admits acceptsCore layers core then some (add (rewriteAll layers core)) else none
  | check query answers =>
    if Admits acceptsQuery layers query then some (check (rewriteAll layers query) answers) else none

variable {κ : Type} [UnsatCache κ] {layers : List Layer}

theorem after_layered (base : κ) (u : Use) :
    after (⟨layers, base⟩ : Layered κ) u = ⟨layers, (u.through layers).elim base (after base)⟩ := by
  cases u with
  | add core =>
    change (⟨layers, (Layered.addThrough base core layers).1⟩ : Layered κ) = _
    rw [Layered.addThrough_eq, through]
    split <;> rfl
  | check query answers =>
    change (⟨layers, (Layered.checkThrough base query _ layers).cache⟩ : Layered κ) = _
    rw [Layered.checkThrough_eq, Outcome.reporting_cache, through]
    split <;> rfl

theorem foldl_after_layered (base : κ) (us : List Use) :
    us.foldl after (⟨layers, base⟩ : Layered κ) =
      ⟨layers, (us.filterMap (through layers)).foldl after base⟩ := by
  induction us generalizing base with
  | nil => rfl
  | cons u us ih =>
    rw [List.foldl_cons, after_layered, ih, List.filterMap_cons]
    cases u.through layers <;> rfl

theorem foldl_after_recorded (base : κ) (calls : List Call) (us : List Use) :
    us.foldl after (⟨base, calls⟩ : Recorded κ) = ⟨us.foldl after base, calls ++ us.map call⟩ := by
  induction us generalizing base calls with
  | nil => simp
  | cons u us ih =>
    have hu : after (⟨base, calls⟩ : Recorded κ) u = ⟨after base u, calls ++ [u.call]⟩ := by
      cases u <;> rfl
    rw [List.foldl_cons, hu, ih, List.foldl_cons, List.map_cons, List.append_assoc, List.singleton_append]

theorem core?_through (layers : List Layer) (us : List Use) :
    (us.filterMap (through layers)).filterMap core? =
      ((us.filterMap core?).filter fun core => Admits acceptsCore layers core).map (rewriteAll layers) := by
  induction us with
  | nil => rfl
  | cons u us ih =>
    cases u with
    | add core => by_cases h : Admits acceptsCore layers core <;> simp [through, h, ih]
    | check query answers =>
      by_cases h : Admits acceptsQuery layers query <;> simp [through, List.filterMap_cons, h, ih]

end Use

open Layer in
theorem Layered.runs_through {κ : Type} [UnsatCache κ] (layers : List Layer) (base : κ) (us : List Use) :
    let given := us.filterMap (Use.through layers)
    let inner := given.foldl Use.after base
    let outer : Layered (Recorded κ) := us.foldl Use.after ⟨layers, ⟨base, []⟩⟩
    outer = ⟨layers, ⟨inner, given.map Use.call⟩⟩ ∧
    given.filterMap Use.core? =
      ((us.filterMap Use.core?).filter fun core => Admits acceptsCore layers core).map (rewriteAll layers) ∧
    ∀ (π : Type) [PollSource π] (query : ClauseSet) (source : π),
      let o := UnsatCache.check outer query source
      (o.answer = .ok false ∧ o.source = source ∧ o.cache = outer ↔ ¬ Admits acceptsQuery layers query) ∧
      o = (if Admits acceptsQuery layers query then
          (UnsatCache.check inner (rewriteAll layers query) source).map fun c =>
            ⟨layers, ⟨c, given.map Use.call ++ [.check (rewriteAll layers query)]⟩⟩
        else .turnedAway outer source).reporting (reports layers query) := by
  intro given inner outer
  have houter : outer = ⟨layers, ⟨inner, given.map Use.call⟩⟩ := by
    simp only [outer, Use.foldl_after_layered, Use.foldl_after_recorded, List.nil_append]
    rfl
  refine ⟨houter, Use.core?_through layers us, fun π _ query source => ?_⟩
  have hcheck := Layered.check_eq outer query source
  simp only [congrArg Layered.layers houter] at hcheck
  refine ⟨?_, ?_⟩
  · simp only [hcheck, Outcome.reporting_answer, Outcome.reporting_source, Outcome.reporting_cache]
    split
    · next h =>
      -- The innermost cache was asked, so one more call is recorded.
      refine iff_of_false (fun hsame => ?_) (not_not_intro h)
      have hcalls : outer.base.calls ++ [.check (rewriteAll layers query)] = outer.base.calls :=
        congrArg (fun c : Layered (Recorded κ) => c.base.calls) hsame.2.2
      exact absurd hcalls (by simp)
    · next h => exact iff_of_true ⟨rfl, rfl, rfl⟩ h
  · rw [hcheck, houter]
    rfl

end CoreReuse
