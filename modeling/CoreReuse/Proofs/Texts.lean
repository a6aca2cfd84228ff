import CoreReuse.Text.Blank
import CoreReuse.Text.Numeral
import Mathlib.Data.List.TakeWhile

namespace CoreReuse.Text

def Padded (word s : List Char) : Prop :=
  ∃ before after, (∀ c ∈ before, isBlank c = true) ∧ (∀ c ∈ after, isBlank c = true) ∧
    s = before ++ word ++ after

theorem padded_self (word : List Char) : Padded word word :=
  ⟨[], [], nofun, nofun, (List.append_nil word).symm⟩

theorem padded_trim (s : List Char) : Padded (trim s) s := by
  have hstart := List.takeWhile_append_dropWhile (p := isBlank) (l := s)
  have hend := List.takeWhile_append_dropWhile (p := isBlank) (l := (trimStart s).reverse)
  refine ⟨s.takeWhile isBlank, ((trimStart s).reverse.takeWhile isBlank).reverse, ?_, ?_, ?_⟩
  · exact List.all_eq_true.mp List.all_takeWhile
  · exact fun c hc => List.all_eq_true.mp List.all_takeWhile c (List.mem_reverse.mp hc)
  · rw [trim, trimEnd, List.append_assoc, ← List.reverse_append, hend, List.reverse_reverse, trimStart,
      hstart]

theorem trim_eq_iff {word s : List Char} (h : ∀ c ∈ word, isBlank c = false) :
    trim s = word ↔ Padded word s := by
  refine ⟨fun he => he ▸ padded_trim s, ?_⟩
  rintro ⟨before, after, hb, ha, rfl⟩
  have ha' : ∀ c ∈ after.reverse, isBlank c = true := fun c hc => ha c (List.mem_reverse.mp hc)
  have hword : word.reverse.dropWhile isBlank = word.reverse := by
    apply List.dropWhile_eq_self_iff.mpr
    intro hl
    rw [h _ (List.mem_reverse.mp (List.getElem_mem hl))]
    exact Bool.false_ne_true
  rw [trim, trimEnd, trimStart, List.append_assoc, List.dropWhile_append_of_pos hb]
  cases word with
  | nil =>
    rw [List.nil_append, List.dropWhile_eq_nil_iff.mpr ha]
    rfl
  | cons c cs =>
    have hfirst : (c :: cs ++ after).dropWhile isBlank = c :: cs ++ after :=
      List.dropWhile_cons_of_neg (by simp [h c List.mem_cons_self])
    rw [hfirst, List.reverse_append, List.dropWhile_append_of_pos ha', hword, List.reverse_reverse]

theorem pieces_eq_splitOn (sep : Char) (s : List Char) : pieces sep s = s.splitOn sep := by
  induction s with
  | nil => rfl
  | cons c cs ih =>
    rw [pieces, List.splitOn_cons_eq_if_modifyHead, ih]
    by_cases hc : c = sep
    · simp [hc]
    · obtain ⟨p, ps, hps⟩ := List.exists_cons_of_ne_nil (List.splitOn_ne_nil sep cs)
      simp [hc, hps]

theorem splitOnce_eq_none {sep : Char} {s : List Char} : splitOnce sep s = none ↔ sep ∉ s := by
  induction s with
  | nil => simp [splitOnce]
  | cons c cs ih =>
    rw [splitOnce]
    by_cases hc : c = sep
    · simp [hc]
    · simp [hc, ih, Ne.symm hc]

theorem splitOnce_append {sep : Char} {before rest : List Char} (h : sep ∉ before) :
    splitOnce sep (before ++ sep :: rest) = some (before, rest) := by
  induction before with
  | nil => simp [splitOnce]
  | cons c cs ih =>
    obtain ⟨hc, hcs⟩ : sep ≠ c ∧ sep ∉ cs := by simpa using h
    simp [splitOnce, ih hcs, Ne.symm hc]

theorem notMem_of_splitOnce {sep : Char} {s before rest : List Char}
    (h : splitOnce sep s = some (before, rest)) : sep ∉ before := by
  induction s generalizing before with
  | nil => cases h
  | cons c cs ih =>
    rw [splitOnce] at h
    split at h
    · cases h
      exact List.not_mem_nil
    · next hc =>
      obtain ⟨⟨b, r⟩, hs, he⟩ := Option.map_eq_some_iff.mp h
      cases he
      simpa using ⟨Ne.symm hc, ih hs⟩

theorem length_lt_of_splitOnce {sep : Char} {s before rest : List Char}
    (h : splitOnce sep s = some (before, rest)) : before.length < s.length ∧ rest.length < s.length := by
  rw [eq_of_splitOnce h, List.length_append, List.length_cons]
  omega

def Numeral (n : Nat) (s : List Char) : Prop :=
  ∃ digits, (s = digits ∨ s = '+' :: digits) ∧ digits ≠ [] ∧ (∀ c ∈ digits, c.isDigit = true) ∧
    Nat.ofDigitChars 10 digits 0 = n

theorem digitValue?_eq (c : Char) :
    digitValue? c = if c.isDigit then some (c.toNat - '0'.toNat) else none := by
  have hrange : ('0' ≤ c && c ≤ '9') = c.isDigit := rfl
  have hzero : '0'.toNat = 48 := rfl
  rw [digitValue?, hrange, hzero]

theorem readDigits_eq (acc : Nat) (s : List Char) :
    readDigits acc s = if s.all Char.isDigit then some (Nat.ofDigitChars 10 s acc) else none := by
  induction s generalizing acc with
  | nil => rfl
  | cons c cs ih =>
    rw [readDigits, digitValue?_eq, Nat.ofDigitChars_cons, List.all_cons]
    cases c.isDigit with
    | false => rfl
    | true =>
      rw [Nat.mul_comm 10 acc, Bool.true_and, ← ih]
      rfl

theorem unsigned?_eq_some_iff {n : Nat} {s : List Char} : unsigned? s = some n ↔
    s ≠ [] ∧ (∀ c ∈ s, c.isDigit = true) ∧ Nat.ofDigitChars 10 s 0 = n := by
  cases s with
  | nil => simp [unsigned?]
  | cons c cs =>
    rw [unsigned?, readDigits_eq, Option.ite_none_right_eq_some, List.all_eq_true, Option.some.injEq]
    simp

theorem ofSigned?_eq_some_iff {n : Nat} {s : List Char} : ofSigned? s = some n ↔ Numeral n s := by
  rw [ofSigned?.eq_def]
  split
  · next cs =>
    rw [unsigned?_eq_some_iff]
    constructor
    · rintro ⟨hne, hdigits, hn⟩
      exact ⟨cs, .inr rfl, hne, hdigits, hn⟩
    · rintro ⟨digits, rfl | hs, hne, hdigits, hn⟩
      · exact absurd (hdigits '+' List.mem_cons_self) (by decide)
      · obtain rfl := (List.cons.inj hs).2
        exact ⟨hne, hdigits, hn⟩
  · next hplus =>
    rw [unsigned?_eq_some_iff]
    constructor
    · rintro ⟨hne, hdigits, hn⟩
      exact ⟨s, .inl rfl, hne, hdigits, hn⟩
    · rintro ⟨digits, rfl | rfl, hne, hdigits, hn⟩
      · exact ⟨hne, hdigits, hn⟩
      · exact absurd rfl (hplus digits)

theorem word?_eq_some_iff {w : UInt64} {s : List Char} : word? s = some w ↔ Numeral w.toNat s := by
  simp only [word?, Option.bind_eq_bind, Option.bind_eq_some_iff, Option.ite_none_right_eq_some,
    Option.some.injEq, ofSigned?_eq_some_iff]
  constructor
  · rintro ⟨n, hn, hlt, rfl⟩
    rwa [Nat.toUInt64_eq, UInt64.toNat_ofNat_of_lt' hlt]
  · intro h
    exact ⟨w.toNat, h, toNat_lt_wordLimit w, UInt64.ofNat_toNat⟩

theorem isBlank_eq_false_of_isDigit {c : Char} (h : c.isDigit = true) : isBlank c = false := by
  have hbounds : 48 ≤ c.toNat ∧ c.toNat ≤ 57 := by
    simpa [Char.isDigit, UInt32.le_iff_toNat_le] using h
  simp [isBlank]
  omega

theorem Numeral.isBlank_eq_false {n : Nat} {s : List Char} (h : Numeral n s) :
    ∀ c ∈ s, isBlank c = false := by
  obtain ⟨digits, rfl | rfl, -, hdigits, -⟩ := h
  · exact fun c hc => isBlank_eq_false_of_isDigit (hdigits c hc)
  · exact List.forall_mem_cons.mpr ⟨by decide, fun c hc => isBlank_eq_false_of_isDigit (hdigits c hc)⟩

theorem word?_trim_eq_some_iff {w : UInt64} {s : List Char} :
    word? (trim s) = some w ↔ ∃ digits, Padded digits s ∧ Numeral w.toNat digits := by
  rw [word?_eq_some_iff]
  constructor
  · exact fun h => ⟨_, padded_trim s, h⟩
  · rintro ⟨digits, hpadded, h⟩
    rwa [(trim_eq_iff h.isBlank_eq_false).mpr hpadded]

theorem numeral_toDigits (n : Nat) : Numeral n (Nat.toDigits 10 n) :=
  ⟨_, .inl rfl, Nat.toDigits_ne_nil, fun _ => Nat.isDigit_of_mem_toDigits (by decide) (by decide),
    Nat.ofDigitChars_ten_toDigits⟩

end CoreReuse.Text
