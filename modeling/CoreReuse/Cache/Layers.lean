import CoreReuse.Cache.Basic

/-!
Layers around a cache. A filter drops cores and turns away queries; a preprocessor rewrites both; an
observer is told of every check that finished. Layers stack in any order, and each sees cores and
queries as the layers outside it left them.
-/

namespace CoreReuse

inductive Layer where
  | filter (acceptsCore acceptsQuery : ClauseSet → Bool)
  | preprocess (transform : ClauseSet → ClauseSet)
  | onCheckEnd (number : Nat)

def Layer.maxCoreSize (bound : Nat) : Layer :=
  .filter (fun core => core.size ≤ bound) (fun _ => true)

structure Layered (κ : Type) where
  layers : List Layer := []
  base : κ

namespace Layered

variable {κ : Type} [UnsatCache κ]

def addThrough (base : κ) (core : ClauseSet) : List Layer → κ × List Trace.Event
  | [] => UnsatCache.add base core
  | .filter acceptsCore _ :: layers =>
    if acceptsCore core then addThrough base core layers else (base, [])
  | .preprocess transform :: layers => addThrough base (transform core) layers
  | .onCheckEnd _ :: layers => addThrough base core layers

def reported {π : Type} (number : Nat) (query : ClauseSet) (o : Outcome κ π) : Outcome κ π :=
  match o.answer with
  | .ok hit => { o with reports := o.reports ++ [⟨number, query, hit⟩] }
  | .error _ => o

def checkThrough {π : Type} [PollSource π] (base : κ) (query : ClauseSet) (source : π) :
    List Layer → Outcome κ π
  | [] => UnsatCache.check base query source
  | .filter _ acceptsQuery :: layers =>
    if acceptsQuery query then checkThrough base query source layers
    else { answer := .ok false, cache := base, source }
  | .preprocess transform :: layers => checkThrough base (transform query) source layers
  | .onCheckEnd number :: layers =>
    reported number query (checkThrough base query source layers)

@[simp] theorem addThrough_nil (base : κ) (core : ClauseSet) :
    addThrough base core [] = UnsatCache.add base core := rfl

@[simp] theorem checkThrough_nil {π : Type} [PollSource π] (base : κ) (query : ClauseSet)
    (source : π) : checkThrough base query source [] = UnsatCache.check base query source := rfl

instance : UnsatCache (Layered κ) where
  add c core :=
    let (base, events) := addThrough c.base core c.layers
    ({ c with base }, events)
  check c query source :=
    (checkThrough c.base query source c.layers).map fun base => { c with base }

def wrap {κ : Type} (c : Layered κ) (l : Layer) : Layered κ := { c with layers := l :: c.layers }

end Layered

end CoreReuse
