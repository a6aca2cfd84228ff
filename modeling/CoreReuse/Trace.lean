namespace CoreReuse.Trace

inductive Level where
  | trace
  | debug
  | info
deriving DecidableEq, Repr

def Level.name : Level → String
  | trace => "TRACE"
  | debug => "DEBUG"
  | info => "INFO"

inductive Event where
  | candidatesConsumed (index : String) (consumed : Nat)
  | searchMatched
  | joinMatched (renamings : Nat)
  | addingCore (index : String) (size : Nat)
  | cacheHit (tester : String) (tested coreSize : Nat)
  | cacheMiss (tester : String) (tested : Nat)
  | queryState (state : String)
  | cacheChecked (hit interrupted : Bool)
  | solved (status : String)
  | coreCached (size : Nat)
  | cacheDisabled
  | cacheBuilt (index tester : String) (maxHeight : Option Nat)
deriving DecidableEq, Repr

namespace Event

def level : Event → Level
  | candidatesConsumed _ _ => .debug
  | searchMatched => .trace
  | joinMatched _ => .trace
  | addingCore _ _ => .trace
  | cacheHit _ _ _ => .debug
  | cacheMiss _ _ => .trace
  | queryState _ => .trace
  | cacheChecked _ _ => .debug
  | solved _ => .debug
  | coreCached _ => .debug
  | cacheDisabled => .info
  | cacheBuilt _ _ _ => .info

def target : Event → String
  | candidatesConsumed _ _ => "corecache::index::counting"
  | searchMatched => "corecache::matcher::full"
  | joinMatched _ => "corecache::matcher::full_opt"
  | addingCore _ _ | cacheHit _ _ _ | cacheMiss _ _ => "corecache::cache"
  | queryState _ | cacheChecked _ _ | solved _ | coreCached _ => "corecache::pipeline"
  | cacheDisabled | cacheBuilt _ _ _ => "corecache::config"

def message : Event → String
  | candidatesConsumed _ _ => "candidates consumed"
  | searchMatched => "full match"
  | joinMatched _ => "fullopt match"
  | addingCore _ _ => "adding core"
  | cacheHit _ _ _ => "cache hit"
  | cacheMiss _ _ => "cache miss"
  | queryState _ => "pipeline state"
  | cacheChecked _ _ => "cache checked"
  | solved _ => "solved"
  | coreCached _ => "unsat core cached"
  | cacheDisabled => "unsat cache disabled"
  | cacheBuilt _ _ _ => "unsat cache built"

def boundText : Option Nat → String
  | none => "None"
  | some m => "Some(" ++ toString m ++ ")"

def fields : Event → List (String × String)
  | candidatesConsumed index consumed =>
    [("index", index), ("consumed", toString consumed)]
  | searchMatched => []
  | joinMatched renamings => [("substitutions", toString renamings)]
  | addingCore index size => [("index", index), ("size", toString size)]
  | cacheHit tester tested coreSize =>
    [("matcher", tester), ("tested", toString tested), ("core_size", toString coreSize)]
  | cacheMiss tester tested => [("matcher", tester), ("tested", toString tested)]
  | queryState state => [("state", state)]
  | cacheChecked hit interrupted =>
    [("hit", toString hit), ("interrupted", toString interrupted)]
  | solved status => [("status", status)]
  | coreCached size => [("size", toString size)]
  | cacheDisabled => []
  | cacheBuilt index tester maxHeight =>
    [("index", index), ("tester", tester), ("max_hash_height", boundText maxHeight)]

end Event

end CoreReuse.Trace
