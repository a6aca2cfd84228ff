import CoreReuse.Index.Bits

/-!
Vectors of bits in blocks. The lowest bit of a block is its first. The bits of the last block past the
end of the vector stay cleared, so two vectors can be intersected block by block.
-/

namespace CoreReuse

structure Packed (w : Nat) where
  length : Nat
  blocks : List (BitVec w)
deriving DecidableEq

theorem Bits.mod_lt {width : UInt64} (hn : width ≠ 0) (h : UInt64) :
    (h % width).toNat < width.toNat := by
  have hpos : 0 < width.toNat := Nat.pos_of_ne_zero fun h0 => hn (UInt64.toNat_inj.mp h0)
  rw [UInt64.toNat_mod]
  exact Nat.mod_lt _ hpos

namespace Packed

variable {w : Nat} {p q : Packed w} {n : Nat} {f g : Nat → Bool}

def blockCount (w n : Nat) : Nat := if n % w = 0 then n / w else n / w + 1

def trim (p : Packed w) : Packed w :=
  if p.length % w = 0 then p
  else
    let past := BitVec.allOnes w <<< (p.length % w)
    { p with blocks := p.blocks.modify (p.blocks.length - 1) (· &&& ~~~past) }

def fill (w n : Nat) (b : Bool) : Packed w :=
  trim ⟨n, .replicate (blockCount w n) (bif b then BitVec.allOnes w else 0)⟩

def set (p : Packed w) (i : Nat) (b : Bool) : Packed w :=
  let flag := BitVec.twoPow w (i % w)
  { p with blocks := p.blocks.modify (i / w) (bif b then (· ||| flag) else (· &&& ~~~flag)) }

def negate (p : Packed w) : Packed w := trim { p with blocks := p.blocks.map (~~~·) }

def intersects (p q : Packed w) : Bool := (p.blocks.zip q.blocks).any fun (l, r) => l &&& r != 0

def bit (p : Packed w) (i : Nat) : Bool := p.blocks[i / w]?.any fun x => x.getLsbD (i % w)

structure Shows (p : Packed w) (n : Nat) (f : Nat → Bool) : Prop where
  length_eq : p.length = n
  blocks_length : p.blocks.length = blockCount w n
  bit_eq : ∀ i, p.bit i = (decide (i < n) && f i)

theorem div_lt_blockCount {i : Nat} (h : i < n) : i / w < blockCount w n := by
  have hle : i / w ≤ n / w := Nat.div_le_div_right (Nat.le_of_lt h)
  have hn := Nat.div_add_mod n w
  rw [blockCount]
  split
  · apply Nat.div_lt_of_lt_mul
    omega
  · omega

theorem bit_mul_add {k j : Nat} (hj : j < w) :
    p.bit (w * k + j) = p.blocks[k]?.any fun x => x.getLsbD j := by
  have hd : (w * k + j) / w = k := by
    rw [Nat.mul_add_div (by omega), Nat.div_eq_of_lt hj, Nat.add_zero]
  rw [bit, hd, Nat.mul_add_mod, Nat.mod_eq_of_lt hj]

theorem bit_eq_false_of_le {i : Nat} (h : p.blocks.length ≤ i / w) : p.bit i = false := by
  rw [bit, List.getElem?_eq_none h]
  rfl

theorem Shows.congr (h : p.Shows n f) (hfg : ∀ i < n, f i = g i) : p.Shows n g where
  length_eq := h.length_eq
  blocks_length := h.blocks_length
  bit_eq i := by
    rw [h.bit_eq]
    by_cases hi : i < n
    · rw [hfg i hi]
    · simp [hi]

theorem Shows.unique (hp : p.Shows n f) (hq : q.Shows n f) : p = q := by
  have hblocks : p.blocks = q.blocks := by
    apply List.ext_getElem (hp.blocks_length.trans hq.blocks_length.symm)
    intro k hk hk'
    apply BitVec.eq_of_getLsbD_eq
    intro j hj
    have h := (hp.bit_eq (w * k + j)).trans (hq.bit_eq (w * k + j)).symm
    rw [bit_mul_add hj, bit_mul_add hj, List.getElem?_eq_getElem hk, List.getElem?_eq_getElem hk'] at h
    exact h
  have hlength := hp.length_eq.trans hq.length_eq.symm
  cases p
  cases q
  cases hblocks
  cases hlength
  rfl

theorem bit_modify {k i : Nat} {f : BitVec w → BitVec w} :
    bit { p with blocks := p.blocks.modify k f } i =
      if k = i / w then p.blocks[i / w]?.any fun x => (f x).getLsbD (i % w) else p.bit i := by
  simp only [bit, List.getElem?_modify]
  split
  · simp only [Option.map_eq_map, Option.any_map]
  · simp only [id_map']

theorem shows_trim (hw : 0 < w) (hl : p.length = n) (hb : p.blocks.length = blockCount w n)
    (hf : ∀ i < n, p.bit i = f i) : p.trim.Shows n f := by
  subst hl
  by_cases hz : p.length % w = 0
  · have hc : blockCount w p.length = p.length / w := if_pos hz
    rw [trim, if_pos hz]
    refine ⟨rfl, hb, fun i => ?_⟩
    by_cases hi : i < p.length
    · simp [hf i hi, hi]
    · have hle : p.length / w ≤ i / w := Nat.div_le_div_right (by omega)
      simp [bit_eq_false_of_le (hb.trans hc ▸ hle), hi]
  · have hc : p.blocks.length - 1 = p.length / w := by
      rw [hb, blockCount, if_neg hz, Nat.add_sub_cancel]
    rw [trim, if_neg hz]
    refine ⟨rfl, by rw [List.length_modify, hb], fun i => ?_⟩
    rw [bit_modify, hc]
    have hn := Nat.div_add_mod p.length w
    have hi := Nat.div_add_mod i w
    have hmod := Nat.mod_lt i hw
    -- Only the last block has bits on both sides of the end.
    split
    · next heq =>
      rw [← heq] at hi
      have hin : i % w < p.length % w ↔ i < p.length := by omega
      by_cases hlt : i < p.length
      · rw [← hf i hlt, bit]
        simp [hin.mpr hlt, hmod, hlt]
      · simp [mt hin.mp hlt, hmod, hlt]
    · next hne =>
      by_cases hlt : i < p.length
      · simp [hf i hlt, hlt]
      · have hle : p.length / w ≤ i / w := Nat.div_le_div_right (by omega)
        simp [bit_eq_false_of_le (show p.blocks.length ≤ i / w by omega), hlt]

theorem shows_fill (hw : 0 < w) (n : Nat) (b : Bool) : (fill w n b).Shows n fun _ => b := by
  apply shows_trim hw rfl List.length_replicate
  intro i hi
  have hmod := Nat.mod_lt i hw
  rw [bit, List.getElem?_replicate, if_pos (div_lt_blockCount hi)]
  cases b
  · simp
  · simp [hmod]

theorem Shows.set (h : p.Shows n f) (hw : 0 < w) {i : Nat} (hi : i < n) (b : Bool) :
    (p.set i b).Shows n fun j => if j = i then b else f j := by
  refine ⟨h.length_eq, by rw [Packed.set, List.length_modify, h.blocks_length], fun j => ?_⟩
  have hj := h.bit_eq j
  rw [Packed.set, bit_modify]
  have hmod := Nat.mod_lt j hw
  have hi' := Nat.div_add_mod i w
  have hj' := Nat.div_add_mod j w
  by_cases hji : j = i
  · subst hji
    have hlt := h.blocks_length ▸ div_lt_blockCount hi
    rw [if_pos rfl, List.getElem?_eq_getElem hlt]
    cases b
    · simp [hi, hmod]
    · simp [hi, hmod]
  · rw [if_neg hji, ← hj]
    split
    · next heq =>
      have hne : j % w ≠ i % w := by
        intro hm
        rw [heq, ← hm] at hi'
        omega
      cases b
      · simp [bit, hne, hmod]
      · simp [bit, hne.symm]
    · rfl

theorem Shows.negate (h : p.Shows n f) (hw : 0 < w) : p.negate.Shows n fun i => !f i := by
  apply shows_trim hw
  · exact h.length_eq
  · rw [List.length_map, h.blocks_length]
  · intro i hi
    have hlt := h.blocks_length ▸ div_lt_blockCount hi
    have hmod := Nat.mod_lt i hw
    have hbit := h.bit_eq i
    rw [bit, List.getElem?_eq_getElem hlt] at hbit
    rw [bit, List.getElem?_map, List.getElem?_eq_getElem hlt]
    simpa [hmod, hi] using hbit

theorem and_ne_zero_iff {l r : BitVec w} :
    (l &&& r != 0) = true ↔ ∃ j < w, (l.getLsbD j && r.getLsbD j) = true := by
  rw [bne_iff_ne, ne_eq, BitVec.eq_of_getLsbD_eq_iff]
  simp [BitVec.getLsbD_and]

theorem intersects_iff (hw : 0 < w) :
    p.intersects q = true ↔ ∃ i, p.bit i = true ∧ q.bit i = true := by
  simp only [intersects, List.any_eq_true, Prod.exists, and_ne_zero_iff, Bool.and_eq_true]
  constructor
  · rintro ⟨l, r, hlr, j, hj, hl, hr⟩
    obtain ⟨k, hk⟩ := List.mem_iff_getElem?.mp hlr
    obtain ⟨hkl, hkr⟩ := List.getElem?_zip_eq_some.mp hk
    refine ⟨w * k + j, ?_, ?_⟩
    · rw [bit_mul_add hj, hkl]
      exact hl
    · rw [bit_mul_add hj, hkr]
      exact hr
  · rintro ⟨i, hp, hq⟩
    obtain ⟨l, hkl, hl⟩ := (Option.any_eq_true _ _).mp hp
    obtain ⟨r, hkr, hr⟩ := (Option.any_eq_true _ _).mp hq
    have hlr : (p.blocks.zip q.blocks)[i / w]? = some (l, r) :=
      List.getElem?_zip_eq_some.mpr ⟨hkl, hkr⟩
    exact ⟨l, r, List.mem_of_getElem? hlr, i % w, Nat.mod_lt i hw, hl, hr⟩

theorem intersects_eq {a b : Bits} (hw : 0 < w) (hab : a.width = b.width)
    (hp : p.Shows a.width a.contains) (hq : q.Shows b.width b.contains) :
    p.intersects q = !a.disjoint b := by
  have hbit : ∀ {b : Bits} {i : Nat}, (decide (i < b.width) && b.contains i) = b.contains i := by
    intro b i
    simp [Bits.contains]
  rw [Bool.eq_iff_iff, intersects_iff hw, Bool.not_eq_true', ← Bool.not_eq_true, Bits.disjoint_iff hab]
  simp [hp.bit_eq, hq.bit_eq, hbit]

end Packed

/-- Vectors of bits that can be filled, set bit by bit and negated, and of which the length and the
blocks can be seen. -/
structure BlockVectors (w : Nat) where
  Vec : Type
  packed : Vec → Packed w
  fill : Nat → Bool → Vec
  set : Vec → Nat → Bool → Vec
  negate : Vec → Vec

namespace BlockVectors

variable {w : Nat} {B : BlockVectors w} {v : B.Vec} {n : Nat} {f : Nat → Bool}

structure Lawful (B : BlockVectors w) : Prop where
  fill : ∀ n b, (B.packed (B.fill n b)).Shows n fun _ => b
  set : ∀ v n f i b, (B.packed v).Shows n f → i < n →
    (B.packed (B.set v i b)).Shows n fun j => if j = i then b else f j
  negate : ∀ v n f, (B.packed v).Shows n f → (B.packed (B.negate v)).Shows n fun i => !f i

def origin (B : BlockVectors w) (width : UInt64) (hashes : List UInt64) : B.Vec :=
  hashes.foldl (fun v h => B.set v (h % width).toNat true) (B.fill width.toNat false)

def inverted (B : BlockVectors w) (width : UInt64) (hashes : List UInt64) : B.Vec :=
  hashes.foldl (fun v h => B.set v (h % width).toNat false) (B.fill width.toNat true)

def intersects (B : BlockVectors w) (u v : B.Vec) : Bool := (B.packed u).intersects (B.packed v)

theorem Lawful.foldl_set {is : List Nat} (hB : B.Lawful) (h : (B.packed v).Shows n f)
    (his : ∀ i ∈ is, i < n) (b : Bool) :
    (B.packed (is.foldl (fun v i => B.set v i b) v)).Shows n fun j => if j ∈ is then b else f j := by
  induction is generalizing v f with
  | nil => exact h.congr fun i _ => by simp
  | cons i is ih =>
    obtain ⟨hi, his⟩ := List.forall_mem_cons.mp his
    apply (ih (hB.set v n f i b h hi) his).congr
    intro j _
    by_cases hji : j = i
    · simp [hji]
    · simp [hji]

variable {width : UInt64} {hashes : List UInt64}

theorem Lawful.shows_foldl (hB : B.Lawful) (hn : width ≠ 0) (b : Bool) :
    (B.packed (hashes.foldl (fun v h => B.set v (h % width).toNat b) (B.fill width.toNat !b))).Shows
      width.toNat fun i => (Bits.ofHashes width hashes).contains i == b := by
  have hbelow : ∀ i ∈ hashes.map fun h => (h % width).toNat, i < width.toNat := by
    simpa using fun h _ => Bits.mod_lt hn h
  have h := hB.foldl_set (hB.fill width.toNat !b) hbelow b
  rw [List.foldl_map] at h
  apply h.congr
  intro i hi
  rw [Bits.contains_ofHashes width hashes hi]
  by_cases hm : ∃ h ∈ hashes, (h % width).toNat = i
  · have hany : (hashes.any fun h => (h % width).toNat == i) = true := by simpa using hm
    rw [if_pos (List.mem_map.mpr hm), hany, Bool.true_beq]
  · have hany : (hashes.any fun h => (h % width).toNat == i) = false := by simpa using hm
    rw [if_neg (mt List.mem_map.mp hm), hany, Bool.false_beq]

theorem Lawful.shows_origin (hB : B.Lawful) (hn : width ≠ 0) :
    (B.packed (B.origin width hashes)).Shows width.toNat (Bits.ofHashes width hashes).contains := by
  apply (hB.shows_foldl hn true).congr
  simp

theorem Lawful.shows_inverted (hB : B.Lawful) (hn : width ≠ 0) :
    (B.packed (B.inverted width hashes)).Shows width.toNat
      (Bits.ofHashes width hashes).complement.contains := by
  apply (hB.shows_foldl hn false).congr
  intro i hi
  rw [Bits.contains_complement _ hi]
  simp

theorem Lawful.negate_origin (hB : B.Lawful) (hn : width ≠ 0) :
    B.packed (B.negate (B.origin width hashes)) = B.packed (B.inverted width hashes) := by
  apply (hB.negate _ _ _ (hB.shows_origin hn)).unique
  apply (hB.shows_inverted hn).congr
  intro i hi
  rw [Bits.contains_complement _ hi]

end BlockVectors

def Packed.vectors (w : Nat) : BlockVectors w where
  Vec := Packed w
  packed := id
  fill := fill w
  set := set
  negate := negate

theorem Packed.lawful {w : Nat} (hw : 0 < w) : (vectors w).Lawful where
  fill n b := shows_fill hw n b
  set _ _ _ _ b h hi := h.set hw hi b
  negate _ _ _ h := h.negate hw

end CoreReuse
