import CoreReuse.Renaming.Basic

namespace CoreReuse

abbrev Targets := Std.TreeMap Decl (List Decl)

namespace Targets

def used (renamings : List Renaming) (origin : Decl) : List Decl :=
  (renamings.filterMap fun r => r[origin]?).eraseDups

def origins (renamings : List Renaming) : List Decl :=
  (renamings.flatMap Std.TreeMap.keys).eraseDups

def narrowAt (renamings : List Renaming) : List Decl → Targets → Bool × Targets
  | [], t => (true, t)
  | o :: os, t =>
    match t[o]? with
    | none => narrowAt renamings os (t.insert o (used renamings o))
    | some current =>
      let kept := current.filter (used renamings o).contains
      if kept.isEmpty then (false, t.insert o kept)
      else narrowAt renamings os (t.insert o kept)

def narrow (t : Targets) (renamings : List Renaming) : Bool × Targets :=
  narrowAt renamings (origins renamings) t

def allows (t : Targets) (r : Renaming) : Bool :=
  r.toList.all fun e =>
    match t[e.1]? with
    | none => true
    | some targets => targets.contains e.2

end Targets

end CoreReuse
