namespace CoreReuse.Sip

structure State where
  v0 : UInt64
  v1 : UInt64
  v2 : UInt64
  v3 : UInt64
deriving DecidableEq, Repr

def State.start : State :=
  ⟨0x736f6d6570736575, 0x646f72616e646f6d, 0x6c7967656e657261, 0x7465646279746573⟩

def rotateLeft (x n : UInt64) : UInt64 := x <<< n ||| x >>> (64 - n)

namespace State

def round (s : State) : State :=
  let v0 := s.v0 + s.v1
  let v1 := rotateLeft s.v1 13 ^^^ v0
  let v0 := rotateLeft v0 32
  let v2 := s.v2 + s.v3
  let v3 := rotateLeft s.v3 16 ^^^ v2
  let v0 := v0 + v3
  let v3 := rotateLeft v3 21 ^^^ v0
  let v2 := v2 + v1
  let v1 := rotateLeft v1 17 ^^^ v2
  let v2 := rotateLeft v2 32
  ⟨v0, v1, v2, v3⟩

def absorb (s : State) (block : UInt64) : State :=
  let t := { s with v3 := s.v3 ^^^ block }.round
  { t with v0 := t.v0 ^^^ block }

def finish (s : State) : UInt64 :=
  let t := { s with v2 := s.v2 ^^^ 0xff }.round.round.round
  t.v0 ^^^ t.v1 ^^^ t.v2 ^^^ t.v3

end State

structure Message where
  state : State := .start
  rest : UInt64 := 0
  length : UInt64 := 0
deriving DecidableEq, Repr

namespace Message

def append (m : Message) (value count : UInt64) : Message :=
  let used := m.length % 8
  let block := m.rest ||| value <<< (8 * used)
  if used + count < 8 then
    { m with rest := block, length := m.length + count }
  else
    { state := m.state.absorb block
      rest := if used = 0 then 0 else value >>> (64 - 8 * used)
      length := m.length + count }

def hash (m : Message) : UInt64 := (m.state.absorb (m.rest ||| m.length <<< 56)).finish

end Message

end CoreReuse.Sip
