namespace CoreReuse

inductive Fault where
  | zeroWidth
  | emptyRange
  | overdrawn
  | compositeOuter
deriving DecidableEq, Repr

end CoreReuse
