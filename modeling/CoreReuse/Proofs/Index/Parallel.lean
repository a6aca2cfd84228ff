import CoreReuse.Proofs.Index.Filling
import CoreReuse.Proofs.Variants

namespace CoreReuse

variable {m : Option Nat} {seed : UInt64} {k : FlatKind} {rest : List FlatKind} {key : Key}
variable {hs hs' : List UInt64}

namespace Bits

theorem eq_of_listed_eq {a b : Bits} (hw : a.width = b.width) (hl : a.listed = b.listed)
    (hi : a.inverted = b.inverted) : a = b := by
  cases a
  cases b
  obtain rfl := hw
  obtain rfl := hl
  obtain rfl := hi
  rfl

theorem ofMembers_congr {width : Nat} {as bs : List Nat} (h : ∀ i, i ∈ as ↔ i ∈ bs) :
    ofMembers width as = ofMembers width bs := by
  have hsub : ∀ {as bs : List Nat}, (∀ i ∈ as, i ∈ bs) →
      (ofMembers width as).listed.Sublist (ofMembers width bs).listed := by
    intro as bs h
    rw [sublist_iff_subset (ofMembers width as).ascending (ofMembers width bs).ascending]
    intro i hi
    rw [mem_listed_ofMembers] at hi ⊢
    exact ⟨h i hi.1, hi.2⟩
  exact eq_of_listed_eq rfl ((hsub fun i => (h i).mp).antisymm (hsub fun i => (h i).mpr)) rfl

theorem ofHashes_perm {width : UInt64} (h : hs.Perm hs') : ofHashes width hs = ofHashes width hs' :=
  ofMembers_congr fun _ => (h.map _).mem_iff

end Bits

theorem wholeDigest_perm (h : hs.Perm hs') : wholeDigest hs = wholeDigest hs' := by
  have hsorted : ∀ hs : List UInt64, (hs.mergeSort (· ≤ ·)).Pairwise (· ≤ ·) := by
    intro hs
    have hp : (hs.mergeSort (· ≤ ·)).Pairwise fun a b => decide (a ≤ b) = true := by
      apply List.pairwise_mergeSort
      · intro a b c hab hbc
        rw [decide_eq_true_iff] at hab hbc ⊢
        exact UInt64.le_trans hab hbc
      · intro a b
        rw [Bool.or_eq_true, decide_eq_true_iff, decide_eq_true_iff]
        exact UInt64.le_total a b
    simpa only [decide_eq_true_iff] using hp
  have hp := (List.mergeSort_perm hs (· ≤ ·)).trans (h.trans (List.mergeSort_perm hs' (· ≤ ·)).symm)
  rw [wholeDigest, wholeDigest,
    hp.eq_of_pairwise (fun _ _ _ _ => UInt64.le_antisymm) (hsorted hs) (hsorted hs')]

theorem FlatKind.keyOf_perm (h : hs.Perm hs') : k.keyOf hs = k.keyOf hs' := by
  cases k with
  | list => rfl
  | random candidates => rfl
  | bloom nbits => exact congrArg Key.bits (Bits.ofHashes_perm h)

theorem FlatKind.queryKeyOf_perm (h : hs.Perm hs') : k.queryKeyOf hs = k.queryKeyOf hs' := by
  cases k with
  | list => rfl
  | random candidates => exact congrArg Key.digest (wholeDigest_perm h)
  | bloom nbits => exact congrArg (fun bs => Key.bits bs.complement) (Bits.ofHashes_perm h)

namespace FlatKind

variable {α β : Type} {S : α → β → Prop} {es : List (Key × α)} {es' : List (Key × β)}

theorem getElem?_rel {as : List α} {bs : List β} (h : List.Forall₂ S as bs) (i : Nat) :
    Option.Rel S as[i]? bs[i]? := by
  induction h generalizing i with
  | nil => exact .none
  | cons hab _ ih =>
    cases i with
    | zero => exact .some hab
    | succ i => exact ih i

def Matched (S : α → β → Prop) : List (Key × α) → List (Key × β) → Prop :=
  List.Forall₂ fun e e' => e.1 = e'.1 ∧ S e.2 e'.2

theorem Matched.selectAmong_eq (h : Matched S es es') :
    k.selectAmong seed key es = k.selectAmong seed key es' := by
  have hkeys : es.map (·.1) = es'.map (·.1) := by
    induction h with
    | nil => rfl
    | cons h _ ih => rw [List.map_cons, List.map_cons, h.1, ih]
  rw [selectAmong, selectAmong, hkeys]

theorem Matched.file (h : Matched S es es') (key : Key) {a : α} {b : β} (hab : S a b) :
    Matched S (k.file key a es) (k.file key b es') :=
  List.rel_append h (.cons ⟨rfl, hab⟩ .nil)

theorem Matched.offered (h : Matched S es es') :
    List.Forall₂ S (k.offered seed key es) (k.offered seed key es') := by
  have hvalues : List.Forall₂ S (es.map (·.2)) (es'.map (·.2)) := by
    rw [List.forall₂_map_left_iff, List.forall₂_map_right_iff]
    exact h.imp fun _ _ => And.right
  unfold FlatKind.offered
  rw [h.selectAmong_eq]
  have hsame : List.Forall₂ (· = ·) (k.selectAmong seed key es') (k.selectAmong seed key es') :=
    List.forall₂_refl _
  apply List.rel_filterMap _ hsame
  rintro i _ rfl
  simp only [List.getElem?_toArray]
  exact getElem?_rel hvalues i

end FlatKind

namespace Store

theorem keyOf_perm (h : hs.Perm hs') : keyOf k rest hs = keyOf k rest hs' := by
  induction rest generalizing k with
  | nil => exact FlatKind.keyOf_perm h
  | cons next rest ih => exact congrArg₂ Key.pair (FlatKind.keyOf_perm h) ih

theorem queryKeyOf_perm (h : hs.Perm hs') : queryKeyOf k rest hs = queryKeyOf k rest hs' := by
  induction rest generalizing k with
  | nil => exact FlatKind.queryKeyOf_perm h
  | cons next rest ih => exact congrArg₂ Key.pair (FlatKind.queryKeyOf_perm h) ih

def Alike (R : ClauseSet → ClauseSet → Prop) : (rest : List FlatKind) → Store rest → Store rest → Prop
  | [], es, es' => FlatKind.Matched R es es'
  | _ :: rest, (count, inners), (count', inners') =>
    count = count' ∧ FlatKind.Matched (Alike R rest) inners inners'

variable {R : ClauseSet → ClauseSet → Prop} {s s' : Store rest} {core core' : ClauseSet}

theorem alike_empty : Alike R rest (empty rest) (empty rest) := by
  cases rest with
  | nil => exact .nil
  | cons next rest => exact ⟨rfl, .nil⟩

theorem Alike.insert (h : Alike R rest s s') (key : Key) (hcore : R core core') :
    Alike R rest (insert seed k rest key core s) (insert seed k rest key core' s') := by
  induction rest generalizing k key with
  | nil => exact FlatKind.Matched.file h key hcore
  | cons next rest ih =>
    obtain ⟨count, inners⟩ := s
    obtain ⟨count', inners'⟩ := s'
    obtain ⟨rfl, h⟩ := h
    simp only [Store.insert, h.selectAmong_eq]
    split
    · exact ⟨rfl, h.file key.split.1 (ih alike_empty key.split.2)⟩
    · refine ⟨rfl, ?_⟩
      rw [FlatKind.Matched, List.forall₂_iff_get]
      refine ⟨by rw [List.length_mapIdx, List.length_mapIdx, h.length_eq], fun i hi hi' => ?_⟩
      rw [List.length_mapIdx] at hi hi'
      obtain ⟨hkey, hstore⟩ := h.get hi hi'
      rw [List.get_eq_getElem, List.get_eq_getElem, List.getElem_mapIdx, List.getElem_mapIdx]
      split
      · exact ⟨hkey, ih hstore key.split.2⟩
      · exact ⟨hkey, hstore⟩

theorem Alike.candidates (h : Alike R rest s s') (key : Key) :
    List.Forall₂ R (candidates seed k rest key s) (candidates seed k rest key s') := by
  induction rest generalizing k key with
  | nil => exact FlatKind.Matched.offered h
  | cons next rest ih =>
    obtain ⟨count, inners⟩ := s
    obtain ⟨count', inners'⟩ := s'
    exact List.rel_flatMap h.2.offered fun s s' hs => ih hs key.split.2

theorem alike_ofCores {cores cores' : List ClauseSet}
    (h : List.Forall₂ (fun c c' => (c'.hashes m).Perm (c.hashes m) ∧ R c c') cores cores') :
    Alike R rest (ofCores seed k rest m cores) (ofCores seed k rest m cores') := by
  have hfold : ∀ s s' : Store rest, Alike R rest s s' →
      Alike R rest (cores.foldl (put seed k rest m) s) (cores'.foldl (put seed k rest m) s') := by
    induction h with
    | nil => exact fun _ _ hs => hs
    | cons hc _ ih =>
      intro s s' hs
      apply ih
      rw [put, put, keyOf_perm hc.1]
      exact hs.insert _ hc.2
  exact hfold _ _ alike_empty

end Store

end CoreReuse
