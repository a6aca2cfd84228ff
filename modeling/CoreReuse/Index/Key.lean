import CoreReuse.Index.Bits

namespace CoreReuse

inductive Key where
  | flat
  | digest (hash : UInt64)
  | bits (bits : Bits)
  | pair (outer inner : Key)
deriving DecidableEq, Repr, Inhabited

namespace Key

def split : Key → Key × Key
  | pair outer inner => (outer, inner)
  | _ => (flat, flat)

def bits? (width : Nat) : Key → Option Bits
  | bits bs => if bs.width = width then some bs else none
  | _ => none

end Key

end CoreReuse
