import CoreReuse.Proofs.Growth
import CoreReuse.Proofs.Histories
import CoreReuse.Proofs.Sums

/-!
Room for the sums of heights and depths that hashing forms. What is gathered of a node or remembered of it
is no higher than the node, and no node on the stack reaches deeper than the term. So if two more than the
bound is a word, every sum is one, whatever was hashed before. If it is none, no term can be hashed twice.
-/

namespace CoreReuse

open Hash

variable {V : Vocabulary} {m : Option Nat} {h : Hasher} {t u : Term} {s : Traversal} {n : Nat}

structure Hasher.Low (V : Vocabulary) (m : Option Nat) (h : Hasher) : Prop where
  maxHeight_eq : h.maxHeight = m
  height_le : ∀ t ∈ V, ∀ f, h.memo[t.node]? = some f → f.height ≤ t.height

theorem Hasher.Sound.low (hs : h.Sound V m) : h.Low V m where
  maxHeight_eq := hs.maxHeight_eq
  height_le t ht f hf := by
    rw [hs.memo_eq ht hf]
    exact Nat.le_refl _

theorem Hasher.Low.remember (hl : h.Low V m) (hu : u ∈ V) {f : Fingerprint} (hf : f.height ≤ u.height) :
    (h.remember u.node f).Low V m where
  maxHeight_eq := hl.maxHeight_eq
  height_le t ht g hg := by
    simp only [Hasher.remember, Std.TreeMap.getElem?_insert, Std.LawfulEqCmp.compare_eq_iff_eq] at hg
    split at hg
    · next hn =>
      obtain rfl := Option.some.inj hg
      rwa [← V.eq_of_node_eq hu ht hn]
    · exact hl.height_le t ht g hg

theorem Hasher.Low.finish (hl : h.Low V m) (hu : u ∈ V) {done : Subtree} (hd : done.height ≤ u.height) :
    (Hasher.finish u.node (done, h)).2.Low V m := by
  unfold Hasher.finish
  split
  · exact hl.remember hu hd
  · exact hl

def Roomy (m : Option Nat) : Prop := ∀ k, m = some k → k + 2 < wordLimit

theorem Hasher.Low.exists_checkedLookup? (hl : h.Low V m) (hm : Roomy m) (hu : u ∈ V) {depth : Nat}
    (hd : u.height + depth < wordLimit) :
    ∃ found, h.checkedLookup? depth u.node = .ok found ∧ ∀ f, found = some f → f.height ≤ u.height := by
  unfold checkedLookup?
  split
  · exact ⟨none, rfl, nofun⟩
  · next f hf _ =>
    refine ⟨some f, rfl, ?_⟩
    rintro _ ⟨⟩
    exact hl.height_le u hu f hf
  · next f k hf hk =>
    have hle := hl.height_le u hu f hf
    have hk' : k + 2 < wordLimit := hm k (hl.maxHeight_eq.symm.trans hk)
    rw [checkedSum_of_lt (show f.height + depth < wordLimit by omega), checkedSum_of_lt hk']
    refine ⟨_, rfl, fun g hg => ?_⟩
    split at hg
    · cases hg
    · cases hg
      exact hle

structure Frame.Of (f : Frame) (t : Term) : Prop where
  node_eq : t.node = f.node
  height_le : f.gathered.height ≤ t.height
  rest : ∀ c ∈ f.rest, c ∈ t.children

theorem Frame.of_ofTerm (t : Term) : (Frame.ofTerm t).Of t := ⟨rfl, t.height_pos, fun _ => id⟩

theorem Frame.Of.exists_checkedReceive {f : Frame} (hf : f.Of u) {returned : Option Subtree}
    (hr : ∀ r, returned = some r → r.height < u.height) (hu : u.height < wordLimit) :
    ∃ g, f.checkedReceive returned = .ok g ∧ g.Of u := by
  cases returned with
  | none => exact ⟨f, rfl, hf⟩
  | some r =>
    have hlt := hr r rfl
    simp only [checkedReceive, Subtree.checkedAbsorb, bind, Except.bind,
      checkedSum_of_lt (show r.height + 1 < wordLimit by omega)]
    exact ⟨_, rfl, hf.node_eq, Nat.max_le.mpr ⟨hf.height_le, hlt⟩, hf.rest⟩

namespace Traversal

inductive Nested (t : Term) : List Frame → Term → Prop where
  | root {f : Frame} : f.Of t → Nested t [f] t
  | child {f g : Frame} {below : List Frame} {u c : Term} : Nested t (g :: below) u → c ∈ u.children →
      f.Of c → Nested t (f :: g :: below) c

variable {f g : Frame} {below : List Frame}

theorem Nested.mem (hn : Nested t (f :: below) u) (ht : t ∈ V) : u ∈ V := by
  induction below generalizing f u with
  | nil =>
    cases hn
    exact ht
  | cons g below ih =>
    cases hn with
    | child hn hc _ => exact Vocabulary.mem_of_mem_children (ih hn) hc

theorem Nested.height_add_le (hn : Nested t (f :: below) u) :
    u.height + (below.length + 1) ≤ t.height + 1 := by
  induction below generalizing f u with
  | nil =>
    cases hn
    exact Nat.le_refl _
  | cons g below ih =>
    cases hn with
    | child hn hc _ =>
      have h1 := ih hn
      have h2 := Term.height_lt_of_mem_children hc
      rw [List.length_cons]
      omega

theorem Nested.of (hn : Nested t (f :: below) u) : f.Of u := by
  cases hn with
  | root hf => exact hf
  | child _ _ hf => exact hf

theorem Nested.replace (hn : Nested t (f :: below) u) (hg : g.Of u) : Nested t (g :: below) u := by
  cases hn with
  | root _ => exact .root hg
  | child hn hc _ => exact .child hn hc hg

structure Keeps (V : Vocabulary) (m : Option Nat) (t : Term) (s : Traversal) : Prop where
  low : s.hasher.Low V m
  place : s.stack = [] ∨ ∃ u, Nested t s.stack u ∧ ∀ r, s.returned = some r → r.height < u.height

theorem keeps_start (hl : h.Low V m) : Keeps V m t (start t h) :=
  ⟨hl, .inr ⟨t, .root (Frame.of_ofTerm t), nofun⟩⟩

theorem Nested.exists_checkedEnter (hn : Nested t (f :: below) u) (hl : h.Low V m) (hm : Roomy m)
    (ht : t ∈ V) (hlimit : t.height + 1 < wordLimit) {c : Term} (hc : c ∈ u.children) :
    ∃ v, checkedEnter f below c h = .ok v ∧ Keeps V m t v := by
  -- The child's depth and height come to no more than one above the height of the whole term.
  have hdepth := hn.height_add_le
  have hlt := Term.height_lt_of_mem_children hc
  have hpos := c.height_pos
  have hcV : c ∈ V := Vocabulary.mem_of_mem_children (hn.mem ht) hc
  obtain ⟨found, hfound, hle⟩ := hl.exists_checkedLookup? hm hcV
    (show c.height + (below.length + 1 + 1) < wordLimit by omega)
  unfold checkedEnter
  rw [checkedSum_of_lt (show below.length + 1 + 1 < wordLimit by omega)]
  simp only [bind, Except.bind, hfound]
  cases found with
  | some r =>
    refine ⟨_, rfl, hl, .inr ⟨u, hn, ?_⟩⟩
    rintro _ ⟨⟩
    exact Nat.lt_of_le_of_lt (hle r rfl) hlt
  | none =>
    dsimp only
    split
    · exact ⟨_, rfl, hl, .inr ⟨c, .child hn hc (Frame.of_ofTerm c), nofun⟩⟩
    · refine ⟨_, rfl, hl, .inr ⟨u, hn, ?_⟩⟩
      rintro _ ⟨⟩
      exact Nat.lt_of_le_of_lt hpos hlt

theorem Keeps.exists_checkedStep (hk : Keeps V m t s) (hm : Roomy m) (ht : t ∈ V)
    (hlimit : t.height + 1 < wordLimit) : ∃ v, s.checkedStep = .ok v ∧ Keeps V m t v := by
  obtain ⟨stack, returned, h⟩ := s
  rcases hk.place with hs | ⟨u, hn, hr⟩
  · obtain rfl : stack = [] := hs
    exact ⟨_, rfl, hk⟩
  · cases stack with
    | nil => cases hn
    | cons top below =>
      have hdepth := hn.height_add_le
      obtain ⟨frame, hreceive, hframe⟩ := hn.of.exists_checkedReceive hr (by omega)
      simp only [checkedStep, bind, Except.bind, hreceive]
      cases hrest : frame.rest with
      | nil =>
        have hlow := hk.low.finish (hn.mem ht) hframe.height_le
        rw [hframe.node_eq] at hlow
        refine ⟨_, rfl, hlow, ?_⟩
        -- The node is done, and is handed to its parent if it has one.
        cases hn with
        | root _ => exact .inl rfl
        | child hn hc _ =>
          refine .inr ⟨_, hn, ?_⟩
          rintro _ ⟨⟩
          exact Nat.lt_of_le_of_lt hframe.height_le (Term.height_lt_of_mem_children hc)
      | cons c rest =>
        have hrest' : ∀ d ∈ c :: rest, d ∈ u.children := hrest ▸ hframe.rest
        obtain ⟨hc, hsub⟩ := List.forall_mem_cons.mp hrest'
        have hof : ({ frame with rest } : Frame).Of u := ⟨hframe.node_eq, hframe.height_le, hsub⟩
        exact (hn.replace hof).exists_checkedEnter hk.low hm ht hlimit hc

theorem Keeps.checkedRun_eq (hk : Keeps V m t s) (hm : Roomy m) (ht : t ∈ V)
    (hlimit : t.height + 1 < wordLimit) (n : Nat) : s.checkedRun n = .ok (step^[n] s) := by
  have hrun : ∃ v, s.checkedRun n = .ok v := by
    induction n generalizing s with
    | zero => exact ⟨s, rfl⟩
    | succ n ih =>
      obtain ⟨v, hv, hk'⟩ := hk.exists_checkedStep hm ht hlimit
      simp only [checkedRun, bind, Except.bind, hv]
      exact ih hk'
  obtain ⟨v, hv⟩ := hrun
  rw [hv, iterate_of_checkedRun hv]

end Traversal

namespace Hasher

theorem Low.checkedHash_eq (hl : h.Low V m) (hm : Roomy m) (ht : t ∈ V)
    (hlimit : t.height + 1 < wordLimit) : h.checkedHash t = .ok (h.hash t) := by
  have hsome : ∃ r, h.checkedHash t = .ok r := by
    obtain ⟨found, hfound, -⟩ := hl.exists_checkedLookup? hm ht hlimit
    have hrun := (Traversal.keeps_start (t := t) hl).checkedRun_eq hm ht hlimit (2 * t.size)
    simp only [checkedHash, bind, Except.bind, hfound]
    cases found with
    | some f => exact ⟨_, rfl⟩
    | none =>
      simp only [hrun]
      exact ⟨_, rfl⟩
  obtain ⟨r, hr⟩ := hsome
  rw [hr, hash_of_checkedHash hr]

theorem Sound.checkedHashAll_eq (hs : h.Sound V m) (hm : Roomy m)
    (hlimit : ∀ t ∈ V, t.height + 1 < wordLimit) {ts : List Term} (hts : ∀ t ∈ ts, t ∈ V) :
    h.checkedHashAll ts = .ok (h.hashAll ts) := by
  induction ts generalizing h with
  | nil => rfl
  | cons t ts ih =>
    obtain ⟨ht, hts⟩ := List.forall_mem_cons.mp hts
    simp only [checkedHashAll, bind, Except.bind, hs.low.checkedHash_eq hm ht (hlimit t ht),
      ih (hash_sound hs ht).2 hts]
    rfl

theorem exists_checkedHash_eq_error {k : Nat} (hk : h.maxHeight = some k) (hlimit : wordLimit ≤ k + 2)
    (ht : (h.memo[t.node]?).isSome) : ∃ e, h.checkedHash t = .error e := by
  obtain ⟨f, hf⟩ := Option.isSome_iff_exists.mp ht
  have hlookup : ∃ e, h.checkedLookup? 1 t.node = .error e := by
    simp only [checkedLookup?, hf, hk, bind, Except.bind, checkedSum_of_le hlimit]
    cases checkedSum f.height 1 with
    | error e => exact ⟨e, rfl⟩
    | ok reach => exact ⟨_, rfl⟩
  obtain ⟨e, he⟩ := hlookup
  exact ⟨e, by rw [checkedHash, he]; rfl⟩

theorem Sound.exists_checkedHashAll_eq_error (hs : h.Sound V m) {k : Nat} (hk : m = some k)
    (hlimit : wordLimit ≤ k + 2) (ht : t ∈ V) (hheight : t.height ≤ k + 1) :
    ∃ e, h.checkedHashAll [t, t] = .error e := by
  cases hfirst : h.checkedHash t with
  | error e => exact ⟨e, by rw [checkedHashAll, hfirst]; rfl⟩
  | ok r =>
    have hwhole : Whole m 1 t.height := by
      rintro b hb
      obtain rfl := Option.some.inj (hk.symm.trans hb)
      omega
    have hmem := remembered_hash hs ht hwhole
    have hmax := (hash_sound hs ht).2.maxHeight_eq.trans hk
    obtain ⟨e, he⟩ := exists_checkedHash_eq_error hmax hlimit hmem
    rw [hash_of_checkedHash hfirst] at he
    exact ⟨e, by simp only [checkedHashAll, hfirst, he, bind, Except.bind]⟩

theorem Reached.exists_checkedHash (hr : h.Reached V m) (hm : Roomy m) (ht : t ∈ V)
    (hlimit : t.height + 1 < wordLimit) : ∃ h', h.checkedHash t = .ok (structural m t, h') := by
  rw [hr.sound.low.checkedHash_eq hm ht hlimit, ← (hash_sound hr.sound ht).1]
  exact ⟨_, rfl⟩

/-- With room for two more than the bound, any number of calls form no sum that is too large, and a
term of at most one level more than the bound gets the hash it gets without a bound. Without that room
no term can be hashed twice. -/
theorem Reached.hash_within_words (hr : h.Reached V m) (hlimit : ∀ t ∈ V, t.height + 1 < wordLimit) :
    (Roomy m → ∀ ts, (∀ t ∈ ts, t ∈ V) →
      h.checkedHashAll ts = .ok (ts.map (structural m), (h.hashAll ts).2)) ∧
    (Roomy m → ∀ t ∈ V, (∀ k, m = some k → t.height ≤ k + 1) → ∀ u : Hasher, u.Reached V none →
      ∃ x h' u', h.checkedHash t = .ok (x, h') ∧ u.checkedHash t = .ok (x, u')) ∧
    (¬ Roomy m → ∀ t ∈ V, ∃ e, h.checkedHashAll [t, t] = .error e) := by
  refine ⟨fun hm ts hts => ?_, fun hm t ht hheight u hu => ?_, fun hm t ht => ?_⟩
  · rw [hr.sound.checkedHashAll_eq hm hlimit hts, ← (hashAll_sound ts h hr.sound hts).1]
  · obtain ⟨h', hh⟩ := hr.exists_checkedHash hm ht (hlimit t ht)
    obtain ⟨u', hu⟩ := hu.exists_checkedHash nofun ht (hlimit t ht)
    refine ⟨structural none t, h', u', ?_, hu⟩
    have hwhole : structural m t = structural none t := by
      cases m with
      | none => rfl
      | some k => exact expanded_of_le t (Nat.succ_le_succ (hheight k rfl))
    rw [hh, hwhole]
  · simp only [Roomy, not_forall, Nat.not_lt] at hm
    obtain ⟨k, hk, hle⟩ := hm
    have hheight := hlimit t ht
    exact hr.sound.exists_checkedHashAll_eq_error hk hle ht (by omega)

theorem Reached.hash_towers_within_words :
    let h := Hasher.ofMaxHeight (some 4)
    let full := Hasher.ofMaxHeight (some (wordLimit - 2))
    h.checkedHashAll [.tower, .towered, .tower] = .ok ([.tower, .towered, .tower].map (structural (some 4)),
        (h.hashAll [.tower, .towered, .tower]).2) ∧
      (∃ x h' u', h.checkedHash .towered = .ok (x, h') ∧ unlimited.checkedHash .towered = .ok (x, u')) ∧
      (structural (some 3) .towered ≠ structural none .towered) ∧
      ∃ e, full.checkedHashAll [.towered, .towered] = .error e := by
  have houter : Term.towered ∈ Vocabulary.towers := Vocabulary.mem_ofTerms List.mem_cons_self
  have hinner : Term.tower ∈ Vocabulary.towers :=
    Vocabulary.mem_of_mem_children (Vocabulary.mem_of_mem_children houter List.mem_cons_self)
      List.mem_cons_self
  have hlimit : ∀ t ∈ Vocabulary.towers, t.height + 1 < wordLimit :=
    show ∀ t ∈ Term.subtermsAll [.towered], _ by decide
  have hroomy : Roomy (some 4) := by
    rintro _ ⟨⟩
    decide
  have hfull : ¬ Roomy (some (wordLimit - 2)) := fun hm => absurd (hm _ rfl) (by decide)
  have hreached (m : Option Nat) : Reached .towers m (.ofMaxHeight m) := .new
  obtain ⟨hall, hone, -⟩ := (hreached (some 4)).hash_within_words hlimit
  obtain ⟨-, -, htwice⟩ := (hreached (some (wordLimit - 2))).hash_within_words hlimit
  refine ⟨hall hroomy _ ?_, hone hroomy _ houter ?_ _ .new, by decide +kernel, htwice hfull _ houter⟩
  · simp [houter, hinner]
  · rintro _ ⟨⟩
    decide

theorem checkedHashAll_overflows :
    let x := Term.app 0 (.constant "x" .int) []
    let twice (m : Option Nat) := ((ofMaxHeight m).checkedHashAll [x, x]).map Prod.fst
    twice (some (wordLimit - 1)) = .error ⟨wordLimit - 1, 2⟩ ∧
      twice (some (wordLimit - 3)) = .ok [structural none x, structural none x] ∧
      twice none = .ok [structural none x, structural none x] := by
  decide +kernel

end Hasher

end CoreReuse
