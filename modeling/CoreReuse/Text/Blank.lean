namespace CoreReuse.Text

def isBlank (c : Char) : Bool :=
  let n := c.toNat
  (9 ≤ n && n ≤ 13) || n == 0x20 || n == 0x85 || n == 0xa0 || n == 0x1680 ||
    (0x2000 ≤ n && n ≤ 0x200a) || n == 0x2028 || n == 0x2029 || n == 0x202f || n == 0x205f ||
    n == 0x3000

def trimStart (s : List Char) : List Char := s.dropWhile isBlank

def trimEnd (s : List Char) : List Char := (s.reverse.dropWhile isBlank).reverse

def trim (s : List Char) : List Char := trimEnd (trimStart s)

def pieces (sep : Char) : List Char → List (List Char)
  | [] => [[]]
  | c :: cs =>
    if c = sep then
      [] :: pieces sep cs
    else
      match pieces sep cs with
      | p :: ps => (c :: p) :: ps
      | [] => [[c]]

def splitOnce (sep : Char) : List Char → Option (List Char × List Char)
  | [] => none
  | c :: cs =>
    if c = sep then some ([], cs) else (splitOnce sep cs).map fun p => (c :: p.1, p.2)

theorem eq_of_splitOnce {sep : Char} {s before rest : List Char}
    (h : splitOnce sep s = some (before, rest)) : s = before ++ sep :: rest := by
  induction s generalizing before with
  | nil => simp [splitOnce] at h
  | cons c cs ih =>
    rw [splitOnce] at h
    split at h
    · rename_i hc
      cases h
      simp [hc]
    · obtain ⟨⟨b, r⟩, hs, he⟩ := Option.map_eq_some_iff.mp h
      cases he
      simp [ih hs]

end CoreReuse.Text
