import CoreReuse.Index.Basic
import CoreReuse.Proofs.Index.Stores
import Mathlib.Data.List.Induction

namespace CoreReuse

variable {m : Option Nat} {seed : UInt64} {k : FlatKind} {rest : List FlatKind}
variable {c core : ClauseSet} {cores : List ClauseSet}

namespace Store

def put (seed : UInt64) (k : FlatKind) (rest : List FlatKind) (m : Option Nat) (s : Store rest)
    (core : ClauseSet) : Store rest :=
  insert seed k rest (keyOf k rest (core.hashes m)) core s

def ofCores (seed : UInt64) (k : FlatKind) (rest : List FlatKind) (m : Option Nat)
    (cores : List ClauseSet) : Store rest :=
  cores.foldl (put seed k rest m) (empty rest)

theorem ofCores_concat :
    ofCores seed k rest m (cores ++ [core]) = put seed k rest m (ofCores seed k rest m cores) core := by
  rw [ofCores, List.foldl_append]
  rfl

theorem filed_ofCores (hv : ∀ l ∈ k :: rest, l.validate = .ok ()) (cores : List ClauseSet) :
    Filed m k rest (ofCores seed k rest m cores) := by
  induction cores using List.reverseRecOn with
  | nil => exact filed_empty
  | append_singleton cores core ih =>
    rw [ofCores_concat]
    exact ih.insert hv

theorem atMost_ofCores (cores : List ClauseSet) :
    AtMost cores.length rest (ofCores seed k rest m cores) := by
  induction cores using List.reverseRecOn with
  | nil => exact atMost_empty
  | append_singleton cores core ih =>
    rw [ofCores_concat, List.length_append]
    exact ih.insert

theorem mem_contents_ofCores (hv : ∀ l ∈ k :: rest, l.validate = .ok ()) :
    c ∈ contents rest (ofCores seed k rest m cores) ↔ c ∈ cores := by
  induction cores using List.reverseRecOn with
  | nil => simp [ofCores]
  | append_singleton cores core ih =>
    rw [ofCores_concat, put, mem_contents_insert (filed_ofCores hv cores), ih, List.mem_append,
      List.mem_singleton, or_comm]

theorem size_insert (key : Key) (s : Store rest) :
    size rest (insert seed k rest key core s) = size rest s + 1 := by
  cases rest with
  | nil => simp [size, insert, FlatKind.file]
  | cons next rest =>
    obtain ⟨count, inners⟩ := s
    simp only [insert]
    split
    · rfl
    · rfl

theorem size_ofCores (cores : List ClauseSet) : size rest (ofCores seed k rest m cores) = cores.length := by
  induction cores using List.reverseRecOn with
  | nil => cases rest <;> rfl
  | append_singleton cores core ih =>
    rw [ofCores_concat, put, size_insert, ih, List.length_append]
    rfl

def leaves : (rest : List FlatKind) → Store rest → List (List ClauseSet)
  | [], entries => [List.map Prod.snd entries]
  | _ :: rest, (_, inners) => inners.flatMap fun e => leaves rest e.2

theorem eq_nil_of_mem_leaves_empty {leaf : List ClauseSet} (h : leaf ∈ leaves rest (empty rest)) :
    leaf = [] := by
  cases rest with
  | nil => exact List.mem_singleton.mp h
  | cons next rest => exact nomatch h

theorem exists_leaf_of_mem_leaves_put {s : Store rest} {leaf : List ClauseSet}
    (h : leaf ∈ leaves rest (put seed k rest m s core)) :
    ∃ before, (before = [] ∨ before ∈ leaves rest s) ∧ (leaf = before ∨ leaf = before ++ [core]) := by
  induction rest generalizing k with
  | nil =>
    refine ⟨List.map Prod.snd s, .inr List.mem_cons_self, .inr ?_⟩
    simpa [leaves, put, insert, FlatKind.file] using h
  | cons next rest ih =>
    obtain ⟨count, inners⟩ := s
    obtain ⟨e, he, hleaf⟩ := List.mem_flatMap.mp h
    have hin : ∀ e ∈ inners, ∀ l ∈ leaves rest e.2, l ∈ leaves (next :: rest) (count, inners) :=
      fun e he l hl => List.mem_flatMap.mpr ⟨e, he, hl⟩
    rw [keyOf] at he
    rcases mem_insert_cases he with he | ⟨i, e₀, hi, -, rfl⟩ | ⟨-, rfl⟩
    · exact ⟨leaf, .inr (hin e he leaf hleaf), .inl rfl⟩
    · obtain ⟨before, hbefore, hl⟩ := ih hleaf
      exact ⟨before, hbefore.imp_right (hin e₀ (List.mem_of_getElem? hi) before), hl⟩
    · obtain ⟨before, hbefore, hl⟩ := ih hleaf
      exact ⟨before, .inl (hbefore.elim id eq_nil_of_mem_leaves_empty), hl⟩

theorem sublist_of_mem_leaves_ofCores {leaf : List ClauseSet}
    (h : leaf ∈ leaves rest (ofCores seed k rest m cores)) : leaf.Sublist cores := by
  induction cores using List.reverseRecOn generalizing leaf with
  | nil => rw [eq_nil_of_mem_leaves_empty h]
  | append_singleton cores core ih =>
    rw [ofCores_concat] at h
    obtain ⟨before, hbefore, hl⟩ := exists_leaf_of_mem_leaves_put h
    have hsub : before.Sublist cores := by
      rcases hbefore with rfl | hbefore
      · exact List.nil_sublist cores
      · exact ih hbefore
    rcases hl with rfl | rfl
    · exact hsub.trans (List.sublist_append_left cores [core])
    · exact hsub.append (List.Sublist.refl [core])

theorem contents_ofCores_flat (h : rest = []) : contents rest (ofCores seed k rest m cores) = cores := by
  subst h
  induction cores using List.reverseRecOn with
  | nil => rfl
  | append_singleton cores core ih =>
    rw [ofCores_concat]
    simp only [contents, put, insert, FlatKind.file, List.map_append] at ih ⊢
    rw [ih]
    rfl

section Insert

variable {next : FlatKind} {key : Key} {count : Nat} {inners : List (Key × Store rest)} {i : Nat}

theorem getElem?_insert {s : Store rest} (h : (inners.map (·.2))[i]? = some s) :
    ((insert seed k (next :: rest) key core (count, inners)).2.map (·.2))[i]? =
      some (if i ∈ k.selectAmong seed (k.lookupKey key.split.1) inners then
        insert seed next rest key.split.2 core s else s) := by
  rw [List.getElem?_map, Option.map_eq_some_iff] at h ⊢
  obtain ⟨e, he, rfl⟩ := h
  have hi := (List.getElem?_eq_some_iff.mp he).1
  rw [insert]
  split
  · next hnil =>
    refine ⟨e, ?_, by simp [List.isEmpty_iff.mp hnil]⟩
    rw [FlatKind.file, List.getElem?_append_left hi, he]
  · refine ⟨_, by rw [List.getElem?_mapIdx, he]; rfl, ?_⟩
    simp only [List.contains_iff_mem]
    split
    · rfl
    · rfl

end Insert

end Store

theorem IndexKind.build_cases {kind : IndexKind} {seed : UInt64} {index : Index}
    (h : kind.build seed = .ok index) :
    kind.validate = .ok () ∧ index = ⟨seed, kind.levels.1, kind.levels.2, .empty kind.levels.2⟩ := by
  unfold build at h
  cases hv : kind.validate with
  | error e =>
    rw [hv] at h
    cases h
  | ok u =>
    rw [hv] at h
    cases h
    exact ⟨rfl, rfl⟩

def Index.ofCores (seed : UInt64) (k : FlatKind) (rest : List FlatKind) (m : Option Nat)
    (cores : List ClauseSet) : Index :=
  ⟨seed, k, rest, Store.ofCores seed k rest m cores⟩

end CoreReuse
