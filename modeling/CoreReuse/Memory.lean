import CoreReuse.CommandLine

/-!
How much memory the machine has that the program runs on. Nothing else depends on it: what runs a
workload is given whether it fits.
-/

namespace CoreReuse.Memory

open CommandLine

def predicateLimit : Nat := 1073741824

def keyLimit : Nat := 1099511627776

def keyWidths (k : IndexKind) : List Nat :=
  let (outermost, inner) := k.levels
  (outermost :: inner).filterMap fun
    | .bloom nbits => some nbits.toNat
    | _ => none

/-- The widths of the keys that are made for the first core. A bound on heights that is close to
what a word can count is fatal once a clause is hashed again, so only the first key is made then. -/
def firstCoreWidths (c : Config) : List Nat :=
  let widths := keyWidths c.index
  if c.maxHashHeight.any fun m => wordLimit ≤ m.toNat + 2 then widths.take 1 else widths

def exhausts (c : Config) (o : SynthOptions) : Bool :=
  let stored := c.maxCoreSize.all fun bound => max o.coreSize.toNat 1 ≤ bound.toNat
  let widths :=
    if c.cacheTimeout != some 0 then keyWidths c.index
    else if stored then firstCoreWidths c
    else []
  c.mode == .enabled && 0 < o.queries && widths.any (keyLimit ≤ ·)

def fits (c : Config) (o : SynthOptions) : Bool :=
  predicates o < predicateLimit && !exhausts c o

end CoreReuse.Memory
