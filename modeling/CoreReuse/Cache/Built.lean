import CoreReuse.Cache.Indexed
import CoreReuse.Cache.Layers
import CoreReuse.Config.Basic

namespace CoreReuse

inductive BaseCache where
  | empty
  | indexed (cache : IndexedCache)

namespace BaseCache

instance : UnsatCache BaseCache where
  add
    | empty, _ => (empty, [])
    | indexed c, core =>
      let (c, events) := c.add core
      (indexed c, events)
  check
    | empty, _, source => { answer := .ok false, cache := empty, source }
    | indexed c, query, source => (c.check query source).map indexed

def indexed? : BaseCache → Option IndexedCache
  | empty => none
  | indexed c => some c

def overflowed (c : BaseCache) : Bool := c.indexed?.any fun i => i.core.overflowed

end BaseCache

abbrev Cache := Layered BaseCache

namespace Config

def buildIndexed (c : Config) (index : Index) : IndexedCache where
  core := .ofMaxHeight (c.maxHashHeight.map UInt64.toNat)
  proposer := if c.logCandidates then .counting (.plain index) {} else .plain index
  tester := c.tester

def builtEvent (c : Config) : Trace.Event :=
  .cacheBuilt c.index.toString c.tester.name (c.maxHashHeight.map UInt64.toNat)

def build (c : Config) : Except ConfigError (Cache × List Trace.Event) := do
  c.validate
  match c.mode with
  | .disabled => return ({ base := .empty }, [.cacheDisabled])
  | .enabled =>
    let index ← (c.index.build c.seed).mapError .index
    let cache : Cache := { base := .indexed (c.buildIndexed index) }
    match c.maxCoreSize with
    | some bound => return (cache.wrap (.maxCoreSize bound.toNat), [c.builtEvent])
    | none => return (cache, [c.builtEvent])

end Config

end CoreReuse
