import CoreReuse.Proofs.Variables
import CoreReuse.Proofs.Vocabulary
import Mathlib.Data.List.Forall2
import Mathlib.Data.List.Nodup

namespace CoreReuse

namespace Term

mutual

def erase : Term → Term
  | .app _ f as => .app 0 f (eraseAll as)
  | .quantified _ q bs b => .quantified 0 q bs (erase b)
  | .lambda _ is b => .lambda 0 is (erase b)
  | .literal _ ty x => .literal 0 ty x

def eraseAll : List Term → List Term
  | [] => []
  | t :: ts => erase t :: eraseAll ts

end

mutual

def size : Term → Nat
  | .app _ _ as => sizes as + 1
  | .quantified _ _ _ b => size b + 1
  | .lambda _ _ b => size b + 1
  | .literal _ _ _ => 1

def sizes : List Term → Nat
  | [] => 0
  | t :: ts => size t + sizes ts

end

mutual

def renumber (k : Nat) : Term → Term
  | .app _ f as => .app k f (renumberAll (k + 1) as)
  | .quantified _ q bs b => .quantified k q bs (renumber (k + 1) b)
  | .lambda _ is b => .lambda k is (renumber (k + 1) b)
  | .literal _ ty x => .literal k ty x

def renumberAll (k : Nat) : List Term → List Term
  | [] => []
  | t :: ts => renumber k t :: renumberAll (k + t.size) ts

end

mutual

def subterms : Term → List Term
  | .app n f as => .app n f as :: subtermsAll as
  | .quantified n q bs b => .quantified n q bs b :: subterms b
  | .lambda n is b => .lambda n is b :: subterms b
  | .literal n ty x => [.literal n ty x]

def subtermsAll : List Term → List Term
  | [] => []
  | t :: ts => subterms t ++ subtermsAll ts

end

theorem eraseAll_eq_map (ts : List Term) : eraseAll ts = ts.map erase := by
  induction ts with
  | nil => rfl
  | cons t ts ih => rw [eraseAll, ih, List.map_cons]

theorem sames_iff {ss ts : List Term} :
    sames ss ts = true ↔ List.Forall₂ (fun s t => same s t = true) ss ts := by
  induction ss generalizing ts with
  | nil => cases ts <;> simp [sames]
  | cons s ss ih => cases ts <;> simp [sames, ih]

theorem map_eq_map_iff_forall₂ {α β : Type} {f g : α → β} {xs ys : List α} :
    xs.map f = ys.map g ↔ List.Forall₂ (fun x y => f x = g y) xs ys := by
  rw [← List.forall₂_eq_eq_eq, List.forall₂_map_left_iff, List.forall₂_map_right_iff]

theorem same_iff_erase_eq {s t : Term} : same s t = true ↔ s.erase = t.erase := by
  induction s generalizing t with
  | app n f as ih =>
    cases t with
    | app n' g bs =>
      simp only [same, erase, Bool.and_eq_true, beq_iff_eq, sames_iff, app.injEq, true_and,
        eraseAll_eq_map, map_eq_map_iff_forall₂]
      refine and_congr_right fun _ => ?_
      simp only [List.forall₂_iff_zip]
      refine and_congr_right fun _ => ⟨fun h a b hab => ?_, fun h a b hab => ?_⟩
      · exact (ih a (List.of_mem_zip hab).1).mp (h hab)
      · exact (ih a (List.of_mem_zip hab).1).mpr (h hab)
    | _ => simp [same, erase]
  | quantified n q bs b ih =>
    cases t with
    | quantified => simp [same, erase, ih, and_assoc]
    | _ => simp [same, erase]
  | lambda n is b ih =>
    cases t with
    | lambda => simp [same, erase, ih]
    | _ => simp [same, erase]
  | literal n ty x =>
    cases t with
    | literal => simp [same, erase]
    | _ => simp [same, erase]

theorem each_erase {P : Term → Prop} (hP : ∀ t : Term, P t.erase ↔ P t) {t : Term} :
    Each P t.erase ↔ Each P t := by
  induction t with
  | app n f as ih =>
    rw [each_app, ← hP (.app n f as), erase, each_app, eraseAll_eq_map, List.forall_mem_map]
    exact and_congr_right fun _ => forall₂_congr ih
  | quantified n q bs b ih => exact and_congr (hP (.quantified n q bs b)) ih
  | lambda n is b ih => exact and_congr (hP (.lambda n is b)) ih
  | literal n ty x => exact hP (.literal n ty x)

mutual

theorem erase_renumber : ∀ (t : Term) (k : Nat), (t.renumber k).erase = t.erase
  | .app _ f as, k => by rw [renumber, erase, erase, eraseAll_renumberAll as]
  | .quantified _ q bs b, k => by rw [renumber, erase, erase, erase_renumber b]
  | .lambda _ is b, k => by rw [renumber, erase, erase, erase_renumber b]
  | .literal _ _ _, _ => rfl

theorem eraseAll_renumberAll : ∀ (ts : List Term) (k : Nat), eraseAll (renumberAll k ts) = eraseAll ts
  | [], _ => rfl
  | t :: ts, k => by rw [renumberAll, eraseAll, eraseAll, erase_renumber t, eraseAll_renumberAll ts]

end

mutual

theorem nodes_renumber : ∀ (t : Term) (k : Nat),
    (t.renumber k).subterms.map node = List.range' k t.size
  | .app _ f as, k => by
    rw [renumber, subterms, size, List.map_cons, nodes_renumberAll as, List.range'_succ]
    rfl
  | .quantified _ q bs b, k => by
    rw [renumber, subterms, size, List.map_cons, nodes_renumber b, List.range'_succ]
    rfl
  | .lambda _ is b, k => by
    rw [renumber, subterms, size, List.map_cons, nodes_renumber b, List.range'_succ]
    rfl
  | .literal _ _ _, _ => rfl

theorem nodes_renumberAll : ∀ (ts : List Term) (k : Nat),
    (subtermsAll (renumberAll k ts)).map node = List.range' k (sizes ts)
  | [], _ => rfl
  | t :: ts, k => by
    rw [renumberAll, subtermsAll, sizes, List.map_append, nodes_renumber t, nodes_renumberAll ts,
      List.range'_append_1]

end

theorem mem_subterms_self (t : Term) : t ∈ t.subterms := by
  cases t <;> simp [subterms]

theorem mem_subtermsAll {s : Term} {ts : List Term} : s ∈ subtermsAll ts ↔ ∃ t ∈ ts, s ∈ t.subterms := by
  induction ts with
  | nil => simp [subtermsAll]
  | cons t ts ih => simp [subtermsAll, ih]

theorem mem_subterms_of_mem_children {s t u : Term} (ht : t ∈ u.subterms) (hs : s ∈ t.children) :
    s ∈ u.subterms := by
  induction u with
  | app n f as ih =>
    rcases List.mem_cons.mp ht with rfl | ht
    · exact List.mem_cons_of_mem _ (mem_subtermsAll.mpr ⟨s, hs, mem_subterms_self s⟩)
    · obtain ⟨a, ha, ht⟩ := mem_subtermsAll.mp ht
      exact List.mem_cons_of_mem _ (mem_subtermsAll.mpr ⟨a, ha, ih a ha ht⟩)
  | quantified n q bs b ih =>
    rcases List.mem_cons.mp ht with rfl | ht
    · rw [List.mem_singleton.mp hs]
      exact List.mem_cons_of_mem _ (mem_subterms_self b)
    · exact List.mem_cons_of_mem _ (ih ht)
  | lambda n is b ih =>
    rcases List.mem_cons.mp ht with rfl | ht
    · rw [List.mem_singleton.mp hs]
      exact List.mem_cons_of_mem _ (mem_subterms_self b)
    · exact List.mem_cons_of_mem _ (ih ht)
  | literal n ty x =>
    rw [List.mem_singleton.mp ht] at hs
    cases hs

end Term

namespace Vocabulary

open Term

variable {V : Vocabulary} {s t u : Term}

theorem mem_of_mem_subterms (ht : t ∈ V) (hs : s ∈ t.subterms) : s ∈ V := by
  induction t with
  | app n f as ih =>
    rcases List.mem_cons.mp hs with rfl | hs
    · exact ht
    · obtain ⟨a, ha, hs⟩ := mem_subtermsAll.mp hs
      exact ih a ha (args_app ht a ha) hs
  | quantified n q bs b ih =>
    rcases List.mem_cons.mp hs with rfl | hs
    · exact ht
    · exact ih (body_quantified ht) hs
  | lambda n is b ih =>
    rcases List.mem_cons.mp hs with rfl | hs
    · exact ht
    · exact ih (body_lambda ht) hs
  | literal n ty x => rwa [List.mem_singleton.mp hs]

def ofTerms (ts : List Term) (h : ((subtermsAll ts).map node).Nodup) : Vocabulary where
  Has s := s ∈ subtermsAll ts
  child {s t} ht hs := by
    obtain ⟨u, hu, ht⟩ := mem_subtermsAll.mp ht
    exact mem_subtermsAll.mpr ⟨u, hu, mem_subterms_of_mem_children ht hs⟩
  unique ha hb hn := List.inj_on_of_nodup_map h ha hb hn

theorem mem_ofTerms {ts : List Term} {h : ((subtermsAll ts).map node).Nodup} (ht : t ∈ ts) :
    t ∈ ofTerms ts h :=
  mem_subtermsAll.mpr ⟨t, ht, mem_subterms_self t⟩

def pair (ht : t ∈ V) (hu : (u.subterms.map node).Nodup)
    (hd : ∀ a ∈ t.subterms, ∀ b ∈ u.subterms, a.node ≠ b.node) : Vocabulary where
  Has s := s ∈ t.subterms ∨ s ∈ u.subterms
  child h hs := h.imp (mem_subterms_of_mem_children · hs) (mem_subterms_of_mem_children · hs)
  unique {a b} ha hb h := by
    rcases ha with ha | ha <;> rcases hb with hb | hb
    · exact eq_of_node_eq (mem_of_mem_subterms ht ha) (mem_of_mem_subterms ht hb) h
    · exact absurd h (hd a ha b hb)
    · exact absurd h.symm (hd b hb a ha)
    · exact List.inj_on_of_nodup_map hu ha hb h

theorem exists_node_lt (ts : List Term) : ∃ k : Nat, ∀ t ∈ ts, t.node < k := by
  induction ts with
  | nil => exact ⟨0, by simp⟩
  | cons t ts ih =>
    obtain ⟨k, hk⟩ := ih
    refine ⟨max k (t.node + 1), List.forall_mem_cons.mpr ⟨?_, fun u hu => ?_⟩⟩
    · exact Nat.lt_of_lt_of_le (Nat.lt_succ_self t.node) (Nat.le_max_right _ _)
    · exact Nat.lt_of_lt_of_le (hk u hu) (Nat.le_max_left _ _)

theorem exists_mem_of_erase_eq (ht : t ∈ V) (u : Term) :
    ∃ (W : Vocabulary) (c : Term), c.erase = u.erase ∧ t ∈ W ∧ c ∈ W := by
  obtain ⟨k, hk⟩ := exists_node_lt t.subterms
  have hn := nodes_renumber u k
  have hu : ((u.renumber k).subterms.map node).Nodup := hn ▸ List.nodup_range'
  have hd : ∀ a ∈ t.subterms, ∀ b ∈ (u.renumber k).subterms, a.node ≠ b.node := by
    intro a ha b hb h
    have hm : b.node ∈ List.range' k u.size := hn ▸ List.mem_map_of_mem hb
    have h1 := (List.mem_range'_1.mp hm).1
    rw [← h] at h1
    exact absurd (hk a ha) (Nat.not_lt.mpr h1)
  exact ⟨pair ht hu hd, u.renumber k, erase_renumber u k, .inl (mem_subterms_self t),
    .inr (mem_subterms_self _)⟩

end Vocabulary

end CoreReuse
