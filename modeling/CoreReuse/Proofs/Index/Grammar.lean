import CoreReuse.Proofs.Index.Kinds
import CoreReuse.Proofs.Texts
import Mathlib.Data.List.Forall2

namespace CoreReuse

open Text

namespace FlatKind

inductive Sized : String → (UInt64 → FlatKind) → IndexError → Prop where
  | random : Sized "random" random .zeroSampleSize
  | bloom : Sized "bloom" bloom .zeroBloomWidth

inductive Spells : FlatKind → List Char → Prop where
  | list {text : List Char} : Padded "list".toList text → Spells list text
  | sized {name : String} {make : UInt64 → FlatKind} {e : IndexError} {n : UInt64}
      {before parameter digits : List Char} : Sized name make e → Padded name.toList before →
      Padded digits parameter → Numeral n.toNat digits → n ≠ 0 →
      Spells (make n) (before ++ ':' :: parameter)

/-- What is wrong with a text that is a text for no kind. -/
inductive Faulty : List Char → IndexError → Prop where
  | zero {name : String} {make : UInt64 → FlatKind} {e : IndexError}
      {before parameter digits : List Char} : Sized name make e → Padded name.toList before →
      Padded digits parameter → Numeral 0 digits → Faulty (before ++ ':' :: parameter) e
  | parameter {name : String} {make : UInt64 → FlatKind} {e : IndexError}
      {before parameter : List Char} : Sized name make e → Padded name.toList before →
      (∀ (n : UInt64) (digits : List Char), Padded digits parameter → ¬Numeral n.toNat digits) →
      Faulty (before ++ ':' :: parameter) (.invalidParameter (String.ofList (before ++ ':' :: parameter)))
  | missing {name : String} {make : UInt64 → FlatKind} {e : IndexError} {text : List Char} :
      Sized name make e → Padded name.toList text → Faulty text (.invalidParameter (String.ofList text))
  | superfluous {before parameter : List Char} : Padded "list".toList before →
      Faulty (before ++ ':' :: parameter) (.invalidParameter (String.ofList (before ++ ':' :: parameter)))
  | unknown {text : List Char} : ':' ∉ text → (∀ k : FlatKind, ¬Padded k.name.toList text) →
      Faulty text (.unknown (String.ofList text))
  | unknownSized {before parameter : List Char} : ':' ∉ before →
      (∀ k : FlatKind, ¬Padded k.name.toList before) →
      Faulty (before ++ ':' :: parameter) (.unknown (String.ofList (before ++ ':' :: parameter)))

variable {name : String} {make : UInt64 → FlatKind} {e : IndexError} {n : UInt64} {k : FlatKind}
variable {text before parameter digits : List Char}

theorem Sized.validate (h : Sized name make e) (n : UInt64) :
    (make n).validate = if n = 0 then .error e else .ok () := by
  cases h <;> rfl

theorem Sized.name_eq (h : Sized name make e) (n : UInt64) : (make n).name = name := by
  cases h <;> rfl

theorem name_mem (k : FlatKind) : k.name ∈ ["list", "random", "bloom"] := by
  cases k <;> simp [FlatKind.name]

theorem isBlank_name (k : FlatKind) : ∀ c ∈ k.name.toList, isBlank c = false := by
  have hnames : ∀ name ∈ ["list", "random", "bloom"], name.toList.any isBlank = false := by decide
  simpa using hnames k.name (name_mem k)

theorem colon_notMem_of_padded (h : Padded k.name.toList text) : ':' ∉ text := by
  obtain ⟨before, after, hb, ha, rfl⟩ := h
  have hblank : isBlank ':' = false := by decide
  have hnames : ∀ name ∈ ["list", "random", "bloom"], ':' ∉ name.toList := by decide
  have hname := hnames k.name (name_mem k)
  simp only [List.mem_append, not_or]
  refine ⟨⟨fun hc => ?_, hname⟩, fun hc => ?_⟩
  · exact absurd (hb _ hc) (by simp [hblank])
  · exact absurd (ha _ hc) (by simp [hblank])

theorem ofList_trim_eq_iff : String.ofList (trim text) = k.name ↔ Padded k.name.toList text := by
  rw [← trim_eq_iff (isBlank_name k), ← String.toList_inj, String.toList_ofList]

theorem parse_of_notMem (h : ':' ∉ text) : parse text = match String.ofList (trim text) with
    | "list" => .ok list
    | "random" | "bloom" => .error (.invalidParameter (String.ofList text))
    | _ => .error (.unknown (String.ofList text)) := by
  have hsplit := splitOnce_eq_none.mpr h
  unfold parse
  generalize splitOnce ':' text = split at hsplit
  obtain rfl := hsplit
  rfl

theorem parse_append (h : ':' ∉ before) : parse (before ++ ':' :: parameter) =
    match String.ofList (trim before) with
    | "random" => ofParameter (before ++ ':' :: parameter) random parameter
    | "bloom" => ofParameter (before ++ ':' :: parameter) bloom parameter
    | "list" => .error (.invalidParameter (String.ofList (before ++ ':' :: parameter)))
    | _ => .error (.unknown (String.ofList (before ++ ':' :: parameter))) := by
  have hsplit : splitOnce ':' (before ++ ':' :: parameter) = some (before, parameter) := splitOnce_append h
  unfold parse
  generalize splitOnce ':' (before ++ ':' :: parameter) = split at hsplit
  obtain rfl := hsplit
  rfl

theorem Sized.parse (h : Sized name make e) (hb : Padded name.toList before) :
    parse (before ++ ':' :: parameter) = ofParameter (before ++ ':' :: parameter) make parameter := by
  rw [← h.name_eq 0] at hb
  rw [parse_append (colon_notMem_of_padded hb), ofList_trim_eq_iff.mpr hb, h.name_eq]
  cases h <;> rfl

theorem Spells.parse (h : Spells k text) : parse text = .ok k := by
  cases h with
  | list h =>
    rw [parse_of_notMem (colon_notMem_of_padded (k := .list) h), (ofList_trim_eq_iff (k := .list)).mpr h]
    rfl
  | sized hs hb hp hn hne =>
    rw [hs.parse hb, ofParameter, word?_trim_eq_some_iff.mpr ⟨_, hp, hn⟩]
    simp only [hs.validate, if_neg hne]
    rfl

theorem Spells.validate (h : Spells k text) : k.validate = .ok () := by
  cases h with
  | list => rfl
  | sized hs _ _ _ hne => rw [hs.validate, if_neg hne]

theorem Faulty.parse (h : Faulty text e) : parse text = .error e := by
  cases h with
  | zero hs hb hp hn =>
    rw [hs.parse hb, ofParameter, (word?_trim_eq_some_iff (w := 0)).mpr ⟨_, hp, hn⟩]
    simp only [hs.validate, if_pos]
    rfl
  | @parameter _ _ _ _ parameter hs hb hp =>
    have hnone : word? (trim parameter) = none := by
      apply Option.eq_none_iff_forall_ne_some.mpr
      intro n hn
      obtain ⟨digits, hpadded, hdigits⟩ := word?_trim_eq_some_iff.mp hn
      exact hp n digits hpadded hdigits
    rw [hs.parse hb, ofParameter, hnone]
    rfl
  | missing hs hb =>
    rw [← hs.name_eq 0] at hb
    rw [parse_of_notMem (colon_notMem_of_padded hb), ofList_trim_eq_iff.mpr hb, hs.name_eq]
    cases hs <;> rfl
  | superfluous hb =>
    rw [parse_append (colon_notMem_of_padded (k := .list) hb), (ofList_trim_eq_iff (k := .list)).mpr hb]
    rfl
  | unknown hc hb =>
    have hne : ∀ k : FlatKind, String.ofList (trim text) ≠ k.name :=
      fun k h => hb k (ofList_trim_eq_iff.mp h)
    rw [parse_of_notMem hc]
    split
    · next h => exact absurd h (hne .list)
    · next h => exact absurd h (hne (.random 0))
    · next h => exact absurd h (hne (.bloom 0))
    · rfl
  | @unknownSized before _ hc hb =>
    have hne : ∀ k : FlatKind, String.ofList (trim before) ≠ k.name :=
      fun k h => hb k (ofList_trim_eq_iff.mp h)
    rw [parse_append hc]
    split
    · next h => exact absurd h (hne (.random 0))
    · next h => exact absurd h (hne (.bloom 0))
    · next h => exact absurd h (hne .list)
    · rfl

theorem sized_or_eq_list (k : FlatKind) : k.name = "list" ∨ ∃ make e, Sized k.name make e := by
  cases k with
  | list => exact .inl rfl
  | random _ => exact .inr ⟨_, _, .random⟩
  | bloom _ => exact .inr ⟨_, _, .bloom⟩

theorem spells_or_faulty_of_sized (hs : Sized name make e) (hb : Padded name.toList before) :
    (∃ k, Spells k (before ++ ':' :: parameter)) ∨ ∃ e, Faulty (before ++ ':' :: parameter) e := by
  by_cases hp : ∃ (n : UInt64) (digits : List Char), Padded digits parameter ∧ Numeral n.toNat digits
  · obtain ⟨n, digits, hpadded, hn⟩ := hp
    by_cases hz : n = 0
    · subst hz
      exact .inr ⟨_, .zero hs hb hpadded hn⟩
    · exact .inl ⟨_, .sized hs hb hpadded hn hz⟩
  · refine .inr ⟨_, .parameter hs hb fun n digits hpadded hn => hp ⟨n, digits, hpadded, hn⟩⟩

theorem spells_or_faulty (text : List Char) : (∃ k, Spells k text) ∨ ∃ e, Faulty text e := by
  cases hsplit : splitOnce ':' text with
  | none =>
    have hc := splitOnce_eq_none.mp hsplit
    by_cases hk : ∃ k : FlatKind, Padded k.name.toList text
    · obtain ⟨k, hb⟩ := hk
      rcases sized_or_eq_list k with h | ⟨make, e, hs⟩
      · exact .inl ⟨_, .list (h ▸ hb)⟩
      · exact .inr ⟨_, .missing hs hb⟩
    · exact .inr ⟨_, .unknown hc fun k hb => hk ⟨k, hb⟩⟩
  | some split =>
    obtain ⟨before, parameter⟩ := split
    obtain rfl := eq_of_splitOnce hsplit
    by_cases hk : ∃ k : FlatKind, Padded k.name.toList before
    · obtain ⟨k, hb⟩ := hk
      rcases sized_or_eq_list k with h | ⟨make, e, hs⟩
      · exact .inr ⟨_, .superfluous (h ▸ hb)⟩
      · exact spells_or_faulty_of_sized hs hb
    · exact .inr ⟨_, .unknownSized (notMem_of_splitOnce hsplit) fun k hb => hk ⟨k, hb⟩⟩

theorem parse_eq_ok_iff : parse text = .ok k ↔ Spells k text := by
  refine ⟨fun h => ?_, Spells.parse⟩
  rcases spells_or_faulty text with ⟨k', hk⟩ | ⟨e, he⟩
  · obtain rfl := Except.ok.inj (h.symm.trans hk.parse)
    exact hk
  · cases h.symm.trans he.parse

theorem parse_eq_error_iff : parse text = .error e ↔ Faulty text e := by
  refine ⟨fun h => ?_, Faulty.parse⟩
  rcases spells_or_faulty text with ⟨k, hk⟩ | ⟨e', he⟩
  · cases h.symm.trans hk.parse
  · obtain rfl := Except.error.inj (h.symm.trans he.parse)
    exact he

end FlatKind

section Pieces

variable {α β ε : Type} {f : α → Except ε β} {as : List α} {bs : List β} {e : ε}

theorem mapM_eq_ok_iff : as.mapM f = .ok bs ↔ List.Forall₂ (fun b a => f a = .ok b) bs as := by
  induction as generalizing bs with
  | nil =>
    rw [List.mapM_nil, List.forall₂_nil_right_iff]
    exact ⟨fun h => (Except.ok.inj h).symm, fun h => congrArg Except.ok h.symm⟩
  | cons a as ih =>
    rw [List.mapM_cons, List.forall₂_cons_right_iff]
    constructor
    · intro h
      cases hb : f a with
      | error e =>
        rw [hb] at h
        cases h
      | ok b =>
        cases hbs : as.mapM f with
        | error e =>
          rw [hb, hbs] at h
          cases h
        | ok bs' =>
          rw [hb, hbs] at h
          exact ⟨b, bs', rfl, ih.mp hbs, (Except.ok.inj h).symm⟩
    · rintro ⟨b, bs', hb, hbs, rfl⟩
      rw [hb, ih.mpr hbs]
      rfl

theorem mapM_eq_error_iff : as.mapM f = .error e ↔ ∃ before a after, as = before ++ a :: after ∧
    (∀ a ∈ before, ∃ b, f a = .ok b) ∧ f a = .error e := by
  induction as with
  | nil =>
    rw [List.mapM_nil]
    exact iff_of_false nofun (by simp)
  | cons a as ih =>
    rw [List.mapM_cons]
    constructor
    · intro h
      cases hb : f a with
      | error e' =>
        rw [hb] at h
        obtain rfl := Except.error.inj (show Except.error e' = Except.error e from h)
        exact ⟨[], a, as, rfl, nofun, hb⟩
      | ok b =>
        cases hbs : as.mapM f with
        | error e' =>
          rw [hb, hbs] at h
          obtain ⟨before, a', after, rfl, hbefore, ha'⟩ := ih.mp (hbs.trans h)
          exact ⟨a :: before, a', after, rfl, List.forall_mem_cons.mpr ⟨⟨b, hb⟩, hbefore⟩, ha'⟩
        | ok bs =>
          rw [hb, hbs] at h
          cases h
    · rintro ⟨before, a', after, has, hbefore, ha'⟩
      cases before with
      | nil =>
        obtain ⟨rfl, rfl⟩ := List.cons.inj has
        rw [ha']
        rfl
      | cons b before =>
        obtain ⟨rfl, rfl⟩ := List.cons.inj has
        obtain ⟨⟨b, hb⟩, hbefore⟩ := List.forall_mem_cons.mp hbefore
        rw [hb, ih.mpr ⟨before, a', after, rfl, hbefore, ha'⟩]
        rfl

end Pieces

namespace IndexKind

variable {s : String} {kind : IndexKind} {e : IndexError}

theorem ne_nil_of_mapM_splitOn {ks : List FlatKind} {cs : List Char}
    (h : (cs.splitOn '/').mapM FlatKind.parse = .ok ks) : ks ≠ [] := by
  rintro rfl
  exact List.splitOn_ne_nil '/' cs (List.forall₂_nil_left_iff.mp (mapM_eq_ok_iff.mp h))

theorem parse_eq : parse s = (s.toList.splitOn '/').mapM FlatKind.parse >>= fun
    | first :: rest => .ok (ofLevels first rest)
    | [] => .error (.unknown s) := by
  rw [parse, pieces_eq_splitOn]
  rfl

theorem parse_eq_ok_iff : parse s = .ok kind ↔ ∃ first rest,
    List.Forall₂ FlatKind.Spells (first :: rest) (s.toList.splitOn '/') ∧ kind = ofLevels first rest := by
  have hspells : ∀ ks, (s.toList.splitOn '/').mapM FlatKind.parse = .ok ks ↔
      List.Forall₂ FlatKind.Spells ks (s.toList.splitOn '/') := by
    simp only [mapM_eq_ok_iff, FlatKind.parse_eq_ok_iff, implies_true]
  rw [parse_eq]
  constructor
  · intro h
    cases hks : (s.toList.splitOn '/').mapM FlatKind.parse with
    | error e =>
      rw [hks] at h
      cases h
    | ok ks =>
      rw [hks] at h
      cases ks with
      | nil => cases h
      | cons first rest => exact ⟨first, rest, (hspells _).mp hks, (Except.ok.inj h).symm⟩
  · rintro ⟨first, rest, h, rfl⟩
    rw [(hspells _).mpr h]
    rfl

theorem parse_eq_error_iff : parse s = .error e ↔ ∃ before piece after,
    s.toList.splitOn '/' = before ++ piece :: after ∧ (∀ p ∈ before, ∃ k, FlatKind.Spells k p) ∧
      FlatKind.Faulty piece e := by
  simp only [← FlatKind.parse_eq_ok_iff, ← FlatKind.parse_eq_error_iff, ← mapM_eq_error_iff]
  rw [parse_eq]
  cases hks : (s.toList.splitOn '/').mapM FlatKind.parse with
  | error e' =>
    exact ⟨fun h => congrArg Except.error (Except.error.inj h),
      fun h => congrArg Except.error (Except.error.inj h)⟩
  | ok ks =>
    obtain ⟨first, rest, rfl⟩ := List.exists_cons_of_ne_nil (ne_nil_of_mapM_splitOn hks)
    exact iff_of_false nofun nofun

theorem validate_of_parse (h : parse s = .ok kind) : kind.validate = .ok () := by
  obtain ⟨first, rest, hspells, rfl⟩ := parse_eq_ok_iff.mp h
  have hboth := hspells.imp fun k text (h : FlatKind.Spells k text) => And.intro h.validate h
  exact validate_ofLevels ((List.forall₂_and_left _ _).mp hboth).1

theorem parse_ofList_of_notMem {cs : List Char} (h : '/' ∉ cs) :
    parse (String.ofList cs) = FlatKind.parse cs >>= fun k => .ok (flat k) := by
  rw [parse_eq, String.toList_ofList, List.splitOn_eq_singleton h, List.mapM_cons, List.mapM_nil]
  cases FlatKind.parse cs <;> rfl

theorem parse_ofList_append {outer inner : List Char} (h : '/' ∉ outer) :
    parse (String.ofList (outer ++ '/' :: inner)) = FlatKind.parse outer >>= fun k =>
      parse (String.ofList inner) >>= fun kind => .ok (composite (flat k) kind) := by
  rw [parse_eq, parse_eq, String.toList_ofList, String.toList_ofList,
    List.splitOn_append_cons_self_of_not_mem h, List.mapM_cons]
  cases FlatKind.parse outer with
  | error e => rfl
  | ok k =>
    cases hks : (inner.splitOn '/').mapM FlatKind.parse with
    | error e => rfl
    | ok ks =>
      obtain ⟨first, rest, rfl⟩ := List.exists_cons_of_ne_nil (ne_nil_of_mapM_splitOn hks)
      rfl

def descend (s : List Char) : Except IndexError IndexKind :=
  match _h : splitOnce '/' s with
  | none => return flat (← FlatKind.parse s)
  | some (outer, inner) => do
    let kind := composite (← descend outer) (← descend inner)
    kind.validate
    return kind
termination_by s.length
decreasing_by
  · exact (length_lt_of_splitOnce _h).1
  · exact (length_lt_of_splitOnce _h).2

theorem descend_eq (s : List Char) : descend s = parse (String.ofList s) := by
  fun_induction descend s with
  | case1 s h =>
    rw [parse_ofList_of_notMem (splitOnce_eq_none.mp h)]
    rfl
  | case2 s outer inner h ihouter ihinner =>
    have houter := notMem_of_splitOnce h
    rw [eq_of_splitOnce h, parse_ofList_append houter, ihouter, ihinner, parse_ofList_of_notMem houter]
    cases hk : FlatKind.parse outer with
    | error e => rfl
    | ok k =>
      cases hinner : parse (String.ofList inner) with
      | error e => rfl
      | ok kind =>
        have hvalid : (composite (flat k) kind).validate = .ok () := by
          rw [validate_composite_flat, (FlatKind.parse_eq_ok_iff.mp hk).validate]
          exact validate_of_parse hinner
        change ((composite (flat k) kind).validate >>= fun _ => .ok (composite (flat k) kind)) = _
        rw [hvalid]
        rfl

/-- A text is read exactly if each of its pieces is a text for a flat kind, as the chain of these kinds.
Otherwise the leftmost piece that is not says what is wrong, in its own words. Reading from the outside
in gives the same. -/
theorem parse_spelled (s : String) :
    (∀ kind, parse s = .ok kind ↔ ∃ first rest,
        List.Forall₂ FlatKind.Spells (first :: rest) (s.toList.splitOn '/') ∧
          kind = ofLevels first rest) ∧
      (∀ e, parse s = .error e ↔ ∃ before piece after,
        s.toList.splitOn '/' = before ++ piece :: after ∧ (∀ p ∈ before, ∃ k, FlatKind.Spells k p) ∧
          FlatKind.Faulty piece e) ∧
      parse s = descend s.toList := by
  refine ⟨fun kind => parse_eq_ok_iff, fun e => parse_eq_error_iff, ?_⟩
  rw [descend_eq, String.ofList_toList]

example : parse " bloom : +064 / random /trie" = .error (.invalidParameter " random ") := by
  decide +kernel

end IndexKind

end CoreReuse
