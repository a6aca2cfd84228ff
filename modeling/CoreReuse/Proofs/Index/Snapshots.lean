import CoreReuse.Index.Counted
import CoreReuse.Proofs.Index.Filling

namespace CoreReuse

namespace Visit

variable {γ σ : Type}

def left (openAt : σ → γ) (within : σ → γ → List ClauseSet) (inners : List σ) (v : Visit γ) :
    List ClauseSet :=
  (v.current.elim [] fun (i, c) => inners[i]?.elim [] fun s => within s c) ++
    v.pending.flatMap fun i => inners[i]?.elim [] fun s => within s (openAt s)

def Takes (pull : σ → γ → Option ClauseSet × γ) (within : σ → γ → List ClauseSet) : Prop :=
  ∀ s c, (pull s c).1 = (within s c).head? ∧ within s (pull s c).2 = (within s c).tail

structure Sits (P : σ → γ → Prop) (inners : List σ) (v : Visit γ) : Prop where
  pending : ∀ i ∈ v.pending, i < inners.length
  current : ∀ i c, v.current = some (i, c) → ∃ s, inners[i]? = some s ∧ P s c

variable {openAt : σ → γ} {pull : σ → γ → Option ClauseSet × γ} {within : σ → γ → List ClauseSet}
variable {P : σ → γ → Prop} {inners inners' : List σ} {v : Visit γ}

theorem Takes.cases (h : Takes pull within) (s : σ) (c : γ) :
    (∃ c', pull s c = (none, c') ∧ within s c = []) ∨
      ∃ core c', pull s c = (some core, c') ∧ within s c = core :: within s c' := by
  obtain ⟨h1, h2⟩ := h s c
  rcases hp : pull s c with ⟨_ | core, c'⟩ <;> rw [hp] at h1 h2
  · exact .inl ⟨c', rfl, List.head?_eq_none_iff.mp h1.symm⟩
  · obtain ⟨cores, hl⟩ := List.head?_eq_some_iff.mp h1.symm
    rw [hl, List.tail_cons] at h2
    exact .inr ⟨core, c', rfl, by rw [hl, ← h2]⟩

theorem advance_takes (openAt : σ → γ) (inners : List σ) (h : Takes pull within) (key : Key) (pending : List Nat) :
    (advance key openAt pull inners pending).1 =
        (left openAt within inners ⟨pending, key, none⟩).head? ∧
      left openAt within inners (advance key openAt pull inners pending).2 =
        (left openAt within inners ⟨pending, key, none⟩).tail := by
  induction pending with
  | nil => exact ⟨rfl, rfl⟩
  | cons i pending ih =>
    simp only [advance]
    cases hi : inners[i]? with
    | none => simpa [left, hi] using ih
    | some s =>
      rcases h.cases s (openAt s) with ⟨c, hp, hl⟩ | ⟨core, c, hp, hl⟩
      · simpa [left, hi, hp, hl] using ih
      · simp [left, hi, hp, hl]

theorem next_takes (openAt : σ → γ) (inners : List σ) (h : Takes pull within) (v : Visit γ) :
    (next openAt pull inners v).1 = (left openAt within inners v).head? ∧
      left openAt within inners (next openAt pull inners v).2 =
        (left openAt within inners v).tail := by
  obtain ⟨pending, key, current⟩ := v
  have ha := advance_takes openAt inners h key pending
  rcases current with _ | ⟨i, c⟩
  · exact ha
  · simp only [next]
    cases hi : inners[i]? with
    | none => simpa [left, hi] using ha
    | some s =>
      rcases h.cases s c with ⟨c', hp, hl⟩ | ⟨core, c', hp, hl⟩
      · simpa [left, hi, hp, hl] using ha
      · simp [left, hi, hp, hl]

theorem key_advance (key : Key) (pending : List Nat) :
    (advance key openAt pull inners pending).2.key = key := by
  induction pending with
  | nil => rfl
  | cons i pending ih =>
    simp only [advance]
    split
    · exact ih
    · split
      · rfl
      · exact ih

theorem key_next : (next openAt pull inners v).2.key = v.key := by
  simp only [next]
  split
  · exact key_advance _ _
  · split
    · exact key_advance _ _
    · split
      · rfl
      · exact key_advance _ _

theorem sits_advance (ho : ∀ s, P s (openAt s)) (hp : ∀ s c, P s c → P s (pull s c).2) (key : Key)
    {pending : List Nat} (h : ∀ i ∈ pending, i < inners.length) :
    Sits P inners (advance key openAt pull inners pending).2 := by
  induction pending with
  | nil => exact ⟨nofun, nofun⟩
  | cons i pending ih =>
    obtain ⟨-, hpending⟩ := List.forall_mem_cons.mp h
    simp only [advance]
    cases hi : inners[i]? with
    | none => exact ih hpending
    | some s =>
      have hs := hp s (openAt s) (ho s)
      rcases hr : pull s (openAt s) with ⟨_ | core, c⟩ <;> rw [hr] at hs <;> simp only [hr]
      · exact ih hpending
      · refine ⟨hpending, ?_⟩
        rintro _ _ ⟨⟩
        exact ⟨s, hi, hs⟩

theorem Sits.next (h : Sits P inners v) (ho : ∀ s, P s (openAt s))
    (hp : ∀ s c, P s c → P s (pull s c).2) : Sits P inners (next openAt pull inners v).2 := by
  have ha := sits_advance ho hp v.key h.pending
  obtain ⟨pending, key, current⟩ := v
  rcases current with _ | ⟨i, c⟩
  · exact ha
  · obtain ⟨s, hi, hc⟩ := h.current i c rfl
    have hs := hp s c hc
    simp only [Visit.next, hi]
    rcases hr : pull s c with ⟨_ | core, c'⟩ <;> rw [hr] at hs <;> simp only
    · exact ha
    · refine ⟨h.pending, ?_⟩
      rintro _ _ ⟨⟩
      exact ⟨s, hi, hs⟩

theorem left_congr (hp : ∀ i ∈ v.pending, inners'[i]? = inners[i]?)
    (hc : ∀ i c, v.current = some (i, c) →
      (inners'[i]?.elim [] fun s => within s c) = inners[i]?.elim [] fun s => within s c) :
    left openAt within inners' v = left openAt within inners v := by
  unfold left
  congr 1
  · rcases hv : v.current with _ | ⟨i, c⟩
    · rfl
    · exact hc i c hv
  · apply List.flatMap_congr
    intro i hi
    rw [hp i hi]

end Visit

variable {seed : UInt64} {k : FlatKind} {rest : List FlatKind} {key : Key} {core : ClauseSet}

theorem FlatKind.flatMap_offered {α β : Type} {entries : List (Key × α)} (f : α → List β) :
    (k.offered seed key entries).flatMap f =
      (k.selectAmong seed key entries).flatMap fun i => (entries.map (·.2))[i]?.elim [] f := by
  rw [offered]
  induction k.selectAmong seed key entries with
  | nil => rfl
  | cons i is ih =>
    rw [List.filterMap_cons, List.flatMap_cons, ← ih, List.getElem?_toArray]
    cases (entries.map (·.2))[i]? with
    | none => rfl
    | some a => rfl

namespace Cursor

def remaining (seed : UInt64) : (rest : List FlatKind) → Store rest → Cursor rest → List ClauseSet
  | [], _, cores => cores
  | next :: rest, (_, inners), visit =>
    Visit.left (openAt seed next rest (Visit.key visit)) (remaining seed rest) (inners.map (·.2)) visit

theorem pull_takes (rest : List FlatKind) : Visit.Takes (pull seed rest) (remaining seed rest) := by
  induction rest with
  | nil =>
    intro s cores
    cases cores with
    | nil => exact ⟨rfl, rfl⟩
    | cons core cores => exact ⟨rfl, rfl⟩
  | cons next rest ih =>
    rintro ⟨count, inners⟩ (v : Visit (Cursor rest))
    obtain ⟨h1, h2⟩ := Visit.next_takes (openAt seed next rest v.key) (inners.map (·.2)) ih v
    refine ⟨h1, ?_⟩
    simp only [remaining, pull]
    rw [Visit.key_next]
    exact h2

theorem remaining_openAt (key : Key) (s : Store rest) :
    remaining seed rest s (openAt seed k rest key s) = Store.candidates seed k rest key s := by
  induction rest generalizing k key with
  | nil => rfl
  | cons next rest ih =>
    obtain ⟨count, inners⟩ := s
    rw [Store.candidates, FlatKind.flatMap_offered]
    apply List.flatMap_congr
    intro i _
    cases (inners.map (·.2))[i]? with
    | none => rfl
    | some s => exact ih key.split.2 s

def Sits : (rest : List FlatKind) → Store rest → Cursor rest → Prop
  | [], _, _ => True
  | _ :: rest, (_, inners), visit => Visit.Sits (Sits rest) (inners.map (·.2)) visit

section Cons

variable {next : FlatKind} {s : Store (next :: rest)} {v : Cursor (next :: rest)}

theorem remaining_cons : remaining seed (next :: rest) s v =
    Visit.left (openAt seed next rest (Visit.key v)) (remaining seed rest) (s.2.map (·.2)) v := rfl

theorem sits_cons : Sits (next :: rest) s v ↔ Visit.Sits (Sits rest) (s.2.map (·.2)) v := Iff.rfl

end Cons

theorem sits_openAt (key : Key) (s : Store rest) : Sits rest s (openAt seed k rest key s) := by
  cases rest with
  | nil => trivial
  | cons next rest =>
    refine ⟨fun i hi => ?_, nofun⟩
    rw [List.length_map]
    exact FlatKind.lt_of_mem_selectAmong hi

theorem Sits.pull {s : Store rest} {c : Cursor rest} (h : Sits rest s c) :
    Sits rest s (pull seed rest s c).2 := by
  induction rest with
  | nil => trivial
  | cons next rest ih => exact Visit.Sits.next h (sits_openAt _) fun s c => ih

def Spared (seed : UInt64) (k : FlatKind) : (rest : List FlatKind) → Key → Store rest → Cursor rest → Prop
  | [], _, _, _ => True
  | next :: rest, key, (_, inners), visit =>
    let offered := k.selectAmong seed (k.lookupKey key.split.1) inners
    (∀ i ∈ Visit.pending visit, i ∉ offered) ∧
      ∀ i c s, Visit.current visit = some (i, c) → i ∈ offered →
        (inners.map (·.2))[i]? = some s → Spared seed next rest key.split.2 s c

theorem sits_insert {s : Store rest} {c : Cursor rest} (h : Sits rest s c) :
    Sits rest (Store.insert seed k rest key core s) c := by
  induction rest generalizing k key with
  | nil => trivial
  | cons next rest ih =>
    obtain ⟨count, inners⟩ := s
    refine sits_cons.mpr ⟨fun i hi => ?_, fun i c' hc => ?_⟩
    · have hs := List.getElem?_eq_getElem (h.pending i hi)
      exact (List.getElem?_eq_some_iff.mp (Store.getElem?_insert hs)).1
    · obtain ⟨s, hi, hs⟩ := h.current i c' hc
      refine ⟨_, Store.getElem?_insert hi, ?_⟩
      split
      · exact ih hs
      · exact hs

theorem remaining_insert {s : Store rest} {c : Cursor rest} (hs : Sits rest s c)
    (h : Spared seed k rest key s c) :
    remaining seed rest (Store.insert seed k rest key core s) c = remaining seed rest s c := by
  induction rest generalizing k key with
  | nil => rfl
  | cons next rest ih =>
    obtain ⟨count, inners⟩ := s
    obtain ⟨hpending, hcurrent⟩ := h
    rw [remaining_cons, remaining_cons]
    apply Visit.left_congr
    · intro i hi
      have hi' := List.getElem?_eq_getElem (hs.pending i hi)
      rw [Store.getElem?_insert hi', if_neg (hpending i hi), hi']
    · intro i c' hc
      obtain ⟨s, hi, hs'⟩ := hs.current i c' hc
      rw [Store.getElem?_insert hi, hi]
      by_cases ho : i ∈ k.selectAmong seed (k.lookupKey key.split.1) inners
      · rw [if_pos ho]
        exact ih hs' (hcurrent i c' s hc ho hi)
      · rw [if_neg ho]

end Cursor

end CoreReuse
