import CoreReuse.Hash.Hasher
import CoreReuse.Index.Kind
import CoreReuse.Json.Error
import CoreReuse.Matching.Tester

namespace CoreReuse

inductive CacheMode where
  | disabled
  | enabled
deriving DecidableEq, Repr, Inhabited

namespace CacheMode

def name : CacheMode → String
  | disabled => "disabled"
  | enabled => "enabled"

def label : CacheMode → String
  | disabled => "Disabled"
  | enabled => "Enabled"

end CacheMode

structure Config where
  mode : CacheMode := .enabled
  tester : Tester := .fullOpt
  index : IndexKind := .flat .list
  maxCoreSize : Option UInt64 := none
  maxHashHeight : Option UInt64 := some (.ofNat Hasher.defaultMaxHeight)
  cacheTimeout : Option UInt64 := none
  solverTimeout : UInt64 := 5000
  seed : UInt64 := 42
  logCandidates : Bool := false
deriving DecidableEq, Repr, Inhabited

inductive FileError where
  | notFound
  | isDirectory
  | notDirectory
  | nameTooLong
  | notText
  | other (message : String)
deriving DecidableEq, Repr

def FileError.message : FileError → String
  | notFound => "No such file or directory (os error 2)"
  | isDirectory => "Is a directory (os error 21)"
  | notDirectory => "Not a directory (os error 20)"
  | nameTooLong => "File name too long (os error 36)"
  | notText => "stream did not contain valid UTF-8"
  | other message => message

inductive ConfigError where
  | unknownTester (name : String)
  | index (error : IndexError)
  | json (error : Json.ReadError)
  | file (error : FileError)

namespace ConfigError

def message : ConfigError → String
  | unknownTester name => "unknown tester: " ++ name
  | index error => error.message
  | json error => "bad configuration: " ++ error.message?.getD "not a configuration"
  | file error => "cannot read configuration: " ++ error.message

end ConfigError

def Tester.parse (s : String) : Except ConfigError Tester :=
  match Tester.ofName? s with
  | some t => .ok t
  | none => .error (.unknownTester s)

namespace Config

def validate (c : Config) : Except ConfigError Unit := c.index.validate.mapError .index

end Config

end CoreReuse
