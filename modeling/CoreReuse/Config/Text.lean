import CoreReuse.Config.Basic
import CoreReuse.Json.Reader

namespace CoreReuse

def Tester.read : Json.Reader Tester :=
  Json.Reader.variant (Tester.all.map fun t => (t.name, t))

inductive Field where
  | mode
  | tester
  | index
  | maxCoreSize
  | maxHashHeight
  | cacheTimeout
  | solverTimeout
  | seed
  | logCandidates
deriving DecidableEq, Repr

namespace Field

open Json

def all : List Field :=
  [mode, tester, index, maxCoreSize, maxHashHeight, cacheTimeout, solverTimeout, seed,
    logCandidates]

def name : Field → String
  | mode => "mode"
  | tester => "tester"
  | index => "index"
  | maxCoreSize => "max_unsat_core_size"
  | maxHashHeight => "max_hash_height"
  | cacheTimeout => "cache_timeout_ms"
  | solverTimeout => "solver_timeout_ms"
  | seed => "seed"
  | logCandidates => "log_candidates"

def ofName? (s : String) : Option Field := all.find? (·.name == s)

def readIndex : Reader IndexKind := do
  match IndexKind.parse (← Reader.text "a string") with
  | .ok kind => return kind
  | .error e => throw (.refused e.message)

def read (c : Config) : Field → Reader Config
  | mode => do
    let mode ← Reader.variant [("disabled", CacheMode.disabled), ("enabled", .enabled)]
    return { c with mode }
  | tester => do
    let tester ← Tester.read
    return { c with tester }
  | index => do
    let index ← readIndex
    return { c with index }
  | maxCoreSize => do
    let maxCoreSize ← Reader.optional (Reader.unsigned "usize")
    return { c with maxCoreSize }
  | maxHashHeight => do
    let maxHashHeight ← Reader.optional (Reader.unsigned "usize")
    return { c with maxHashHeight }
  | cacheTimeout => do
    let cacheTimeout ← Reader.optional (Reader.unsigned "u64")
    return { c with cacheTimeout }
  | solverTimeout => do
    let solverTimeout ← Reader.unsigned "u64"
    return { c with solverTimeout }
  | seed => do
    let seed ← Reader.unsigned "u64"
    return { c with seed }
  | logCandidates => do
    let logCandidates ← Reader.boolean
    return { c with logCandidates }

end Field

namespace Config

open Json

def readKey : Reader Field := do
  let key ← Reader.string
  match Field.ofName? key with
  | some f => return f
  | none => throw (.unknownField key (Field.all.map Field.name))

def nextEntry (first : Bool) : Reader Bool := do
  match ← Reader.peekValue with
  | none => throw .unfinished
  | some c =>
    if c = '}' then
      return false
    else if first then
      if c = '"' then return true else throw .malformed
    else if c = ',' then
      Reader.skip
      match ← Reader.peekValue with
      | none => throw .unfinished
      | some d => if d = '"' then return true else throw .malformed
    else
      throw .malformed

def readEntries (first : Bool) (unseen : List Field) (c : Config) : Reader Config := do
  if ← nextEntry first then
    let f ← readKey
    if h : f ∈ unseen then
      have : (unseen.erase f).length < unseen.length := by
        rw [List.length_erase_of_mem h]
        exact Nat.sub_one_lt_of_lt (List.length_pos_of_mem h)
      Reader.mark ':'
      let c ← f.read c
      readEntries false (unseen.erase f) c
    else
      throw (.duplicateField f.name)
  else
    return c
termination_by unseen.length

def nextElement (first : Bool) : Reader Bool := do
  match ← Reader.peekValue with
  | none => throw .unfinished
  | some c =>
    if c = ']' then
      return false
    else if first then
      return true
    else if c = ',' then
      Reader.skip
      match ← Reader.peekValue with
      | none => throw .unfinished
      | some d => if d = ']' then throw .malformed else return true
    else
      throw .malformed

def readElements (first : Bool) : List Field → Config → Reader Config
  | [], c => return c
  | f :: fs, c => do
    if ← nextElement first then readElements false fs (← f.read c) else return c

def read : Reader Config := do
  match ← Reader.peekValue with
  | none => throw .unfinished
  | some '{' =>
    Reader.skip
    let c ← readEntries true Field.all {}
    Reader.mark '}'
    return c
  | some '[' =>
    Reader.skip
    let c ← readElements true Field.all {}
    Reader.mark ']'
    return c
  | some _ => Reader.unexpected "struct CacheConfig"

def ofJson (s : String) : Except ConfigError Config := do
  match read.run s with
  | .ok c =>
    c.validate
    return c
  | .error e => throw (.json e)

def numberText (n : UInt64) : String := toString n.toNat

def optionalText (n : Option UInt64) : String := (n.map numberText).getD "null"

def nameText (s : String) : String := "\"" ++ s ++ "\""

def valueText (c : Config) : Field → String
  | .mode => nameText c.mode.name
  | .tester => nameText c.tester.name
  | .index => nameText c.index.toString
  | .maxCoreSize => optionalText c.maxCoreSize
  | .maxHashHeight => optionalText c.maxHashHeight
  | .cacheTimeout => optionalText c.cacheTimeout
  | .solverTimeout => numberText c.solverTimeout
  | .seed => numberText c.seed
  | .logCandidates => toString c.logCandidates

def toJson (c : Config) : String :=
  "\x7b" ++ ",".intercalate (Field.all.map fun f => nameText f.name ++ ":" ++ c.valueText f) ++ "\x7d"

end Config

end CoreReuse
