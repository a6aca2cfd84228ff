import CoreReuse.Config.Text
import CoreReuse.Workload

namespace CoreReuse.CommandLine

structure SynthOptions where
  config : Option String := none
  families : UInt64 := 20
  queries : UInt64 := 500
  coreSize : UInt64 := 4
  noise : UInt64 := 6
  seed : UInt64 := 0
deriving DecidableEq, Repr

inductive Command where
  | help
  | version
  | validate (config : String)
  | synth (options : SynthOptions)
deriving DecidableEq, Repr

inductive Flag where
  | config
  | families
  | queries
  | coreSize
  | noise
  | seed
deriving DecidableEq, Repr

namespace Flag

def all : List Flag := [config, families, queries, coreSize, noise, seed]

def name : Flag → String
  | config => "config"
  | families => "families"
  | queries => "queries"
  | coreSize => "core-size"
  | noise => "noise"
  | seed => "seed"

def ofName? (s : String) : Option Flag := all.find? (·.name == s)

def set? (o : SynthOptions) (f : Flag) (value : String) : Option SynthOptions :=
  let number := Text.word? value.toList
  match f with
  | config => if value.isEmpty then none else some { o with config := some value }
  | families => number.map fun families => { o with families }
  | queries => number.map fun queries => { o with queries }
  | coreSize => number.map fun coreSize => { o with coreSize }
  | noise => number.map fun noise => { o with noise }
  | seed => number.map fun seed => { o with seed }

end Flag

inductive Argument where
  | escape
  | long (name : String) (value : Option String)
  | short (letter : Char)
  | plain (value : String)

def Argument.ofText (s : String) : Argument :=
  match s.toList with
  | ['-', '-'] => .escape
  | '-' :: '-' :: rest =>
    match Text.splitOnce '=' rest with
    | some (name, value) => .long (String.ofList name) (some (String.ofList value))
    | none => .long (String.ofList rest) none
  | '-' :: c :: _ => .short c
  | _ => .plain s

def asksForHelp : Argument → Bool
  | .long "help" none => true
  | .short 'h' => true
  | _ => false

def parseValidate (escaped : Bool) (config : Option String) : List String → Option Command
  | [] => config.map .validate
  | s :: rest =>
    let value := if config.isSome || s.isEmpty then none else parseValidate escaped (some s) rest
    if escaped then
      value
    else
      match Argument.ofText s with
      | .escape => parseValidate true config rest
      | .plain _ => value
      | a => if asksForHelp a then some .help else none

def parseSynth (o : SynthOptions) (unseen : List Flag) : List String → Option Command
  | [] => some (.synth o)
  | s :: rest =>
    match Argument.ofText s with
    | .escape => if rest.isEmpty then some (.synth o) else none
    | .long name value =>
      match Flag.ofName? name, value, rest with
      | some f, some v, rest =>
        if unseen.contains f then
          (f.set? o v).bind fun o => parseSynth o (unseen.erase f) rest
        else none
      | some f, none, v :: rest =>
        match Argument.ofText v with
        | .plain v =>
          if unseen.contains f then
            (f.set? o v).bind fun o => parseSynth o (unseen.erase f) rest
          else none
        | _ => none
      | some _, none, [] => none
      | none, _, _ => if asksForHelp (.long name value) then some .help else none
    | a => if asksForHelp a then some .help else none

def parseHelp : List String → Option Command
  | [] => some .help
  | [name] => if ["validate", "synth", "help"].contains name then some .help else none
  | _ => none

def parse : List String → Option Command
  | [] => none
  | "validate" :: rest => parseValidate false none rest
  | "synth" :: rest => parseSynth {} Flag.all rest
  | "help" :: rest => parseHelp rest
  | s :: _ =>
    match Argument.ofText s with
    | .long "version" none => some .version
    | .short 'V' => some .version
    | a => if asksForHelp a then some .help else none

structure Reply where
  /-- A run that is killed has no code. -/
  code : Option UInt8 := some 0
  text : String := ""
  timed : Bool := false
deriving DecidableEq, Repr

def helpText : String :=
  "A cache of unsatisfiable cores for SMT queries\n\n" ++
  "Usage: corecache <COMMAND>\n\n" ++
  "Commands:\n" ++
  "  validate  Check that a configuration file is valid\n" ++
  "  synth     Run a synthetic workload of renamed queries through the pipeline\n" ++
  "  help      Print this message or the help of the given subcommand(s)\n\n" ++
  "Options:\n" ++
  "  -h, --help     Print help\n" ++
  "  -V, --version  Print version\n"

def usageCode : UInt8 := 2

def abortCode : UInt8 := 101

def Command.path? : Command → Option String
  | .validate path => some path
  | .synth o => o.config
  | _ => none

def refused (e : ConfigError) : Reply := { code := some 1, text := e.message ++ "\n" }

def validated : Except ConfigError Config → Reply
  | .ok c =>
    { text := "ok: mode " ++ c.mode.label ++ ", tester " ++ c.tester.name ++ ", index " ++
        c.index.toString ++ "\n" }
  | .error e => refused e

def summary (queries : UInt64) (t : Workload.Tally) : String :=
  toString queries.toNat ++ " queries: " ++ toString t.hits ++ " cache hits, " ++
    toString t.solved ++ " solver calls"

def predicates (o : SynthOptions) : Nat := max o.families.toNat 1 * max o.coreSize.toNat 1

/-- A list of predicates takes eight bytes for each, and has to be smaller than half of what a word
can count. -/
def listLimit : Nat := wordLimit / 16

def runWorkload (p : Pipeline Cache) (now : Nat) (o : SynthOptions) : Reply :=
  let workload := Workload.ofSeed o.families.toNat o.coreSize.toNat o.noise.toNat o.seed
  match (Workload.run now o.queries.toNat 0 workload p {}) 0 with
  | .ok (some t, _) => { text := summary o.queries t, timed := true }
  | _ => { code := some abortCode }

variable (fits : Config → SynthOptions → Bool)

def synthesized (config : Except ConfigError Config) (now : Nat) (o : SynthOptions) : Reply :=
  match config.bind fun c => c.buildPipeline.map fun p => (c, p.1) with
  | .error e => refused e
  | .ok (c, p) =>
    if listLimit ≤ predicates o then { code := some abortCode }
    else if fits c o then runWorkload p now o
    else { code := none }

def Command.perform (c : Command) (file : Except FileError String) (now : Nat) : Reply :=
  let config := (file.mapError ConfigError.file).bind Config.ofJson
  match c with
  | .help => { text := helpText }
  | .version => { text := "corecache 0.1.0\n" }
  | .validate _ => validated config
  | .synth o => synthesized fits (if o.config.isSome then config else .ok {}) now o

def run (args : List String) (read : String → Except FileError String) (now : Nat) : Reply :=
  match parse args with
  | none => { code := some usageCode }
  | some c => c.perform fits (read (c.path?.getD "")) now

end CoreReuse.CommandLine
