namespace CoreReuse.ChaCha

abbrev Block := Vector UInt32 16

def rotateLeft (x n : UInt32) : UInt32 := x <<< n ||| x >>> (32 - n)

def rotateRight (x n : UInt32) : UInt32 := x >>> n ||| x <<< (32 - n)

def quarterRound (s : Block) (a b c d : Fin 16) : Block :=
  let s := s.set a (s[a] + s[b])
  let s := s.set d (rotateLeft (s[d] ^^^ s[a]) 16)
  let s := s.set c (s[c] + s[d])
  let s := s.set b (rotateLeft (s[b] ^^^ s[c]) 12)
  let s := s.set a (s[a] + s[b])
  let s := s.set d (rotateLeft (s[d] ^^^ s[a]) 8)
  let s := s.set c (s[c] + s[d])
  s.set b (rotateLeft (s[b] ^^^ s[c]) 7)

def doubleRound (s : Block) : Block :=
  let s := quarterRound s 0 4 8 12
  let s := quarterRound s 1 5 9 13
  let s := quarterRound s 2 6 10 14
  let s := quarterRound s 3 7 11 15
  let s := quarterRound s 0 5 10 15
  let s := quarterRound s 1 6 11 12
  let s := quarterRound s 2 7 8 13
  quarterRound s 3 4 9 14

def twelveRounds (s : Block) : Block :=
  (doubleRound ∘ doubleRound ∘ doubleRound ∘ doubleRound ∘ doubleRound ∘ doubleRound) s

def initial (key : Vector UInt32 8) (counter : UInt64) : Block :=
  #v[0x61707865, 0x3320646e, 0x79622d32, 0x6b206574,
    key[0], key[1], key[2], key[3], key[4], key[5], key[6], key[7],
    counter.toUInt32, (counter >>> 32).toUInt32, 0, 0]

def block (key : Vector UInt32 8) (counter : UInt64) : Block :=
  let s := initial key counter
  Vector.zipWith (· + ·) (twelveRounds s) s

def pairs : List UInt32 → List UInt64
  | low :: high :: rest => (low.toUInt64 ||| high.toUInt64 <<< 32) :: pairs rest
  | _ => []

def stretch (s : UInt64) : UInt32 × UInt64 :=
  let s := s * 6364136223846793005 + 11634580027462260723
  let x := (((s >>> 18) ^^^ s) >>> 27).toUInt32
  (rotateRight x (s >>> 59).toUInt32, s)

def stretched : Nat → UInt64 → List UInt32
  | 0, _ => []
  | n + 1, s => (stretch s).1 :: stretched n (stretch s).2

def keyOfSeed (seed : UInt64) : Vector UInt32 8 :=
  let ws := stretched 8 seed
  Vector.ofFn fun i => ws.getD i.val 0

end CoreReuse.ChaCha
