import CoreReuse.Proofs.Growth
import CoreReuse.Proofs.Histories
import Mathlib.Data.Finset.Card

namespace CoreReuse

open Term

variable {V : Vocabulary} {h : Hasher} {s : Traversal} {t c : Term} {ts path : List Term}
  {log : List NodeId}

theorem Term.mem_subtermsAll_of_mem_children (ht : t ∈ subtermsAll ts) (hc : c ∈ t.children) :
    c ∈ subtermsAll ts := by
  obtain ⟨u, hu, ht⟩ := mem_subtermsAll.mp ht
  exact mem_subtermsAll.mpr ⟨u, hu, mem_subterms_of_mem_children ht hc⟩

namespace Vocabulary

theorem mem_of_mem_subtermsAll (hts : ∀ t ∈ ts, t ∈ V) (hc : c ∈ subtermsAll ts) : c ∈ V := by
  obtain ⟨t, ht, hc⟩ := mem_subtermsAll.mp hc
  exact mem_of_mem_subterms (hts t ht) hc

def filter (V : Vocabulary) (P : Term → Prop) (hP : ∀ t ∈ V, P t → ∀ c ∈ t.children, P c) :
    Vocabulary where
  Has t := t ∈ V ∧ P t
  child ht hc := ⟨mem_of_mem_children ht.1 hc, hP _ ht.1 ht.2 _ hc⟩
  unique hs ht hn := eq_of_node_eq hs.1 ht.1 hn

def ofNodes (ss : List Term) (hc : ∀ t ∈ ss, t.children ⊆ ss) (hn : (ss.map node).Nodup) :
    Vocabulary where
  Has t := t ∈ ss
  child ht hs := hc _ ht hs
  unique hs ht := List.inj_on_of_nodup_map hn hs ht

end Vocabulary

namespace Traversal

def opened (s : Traversal) : List NodeId :=
  (s.step.stack.take (s.step.stack.length - s.stack.length)).map Frame.node

def openedIn : Nat → Traversal → List NodeId
  | 0, _ => []
  | k + 1, s => s.opened ++ openedIn k s.step

end Traversal

namespace Hasher

def opened (h : Hasher) (rounds : Nat) (t : Term) : List NodeId :=
  match h.lookup? 1 t.node with
  | (some _, _) => []
  | (none, looked) => t.node :: (Traversal.start t looked).openedIn rounds

/-- A hasher without a bound, the terms it has hashed since it was cleared, and the nodes it has looked
into for them. -/
inductive Since : Hasher → List Term → List NodeId → Prop where
  | new : Since unlimited [] []
  | hash {h : Hasher} {ts : List Term} {log : List NodeId} {t : Term} {k : Nat} :
    Since h ts log → 2 * t.size ≤ k → Since (h.hash t).2 (ts ++ [t]) (log ++ h.opened k t)
  | clear {h : Hasher} {ts : List Term} {log : List NodeId} : Since h ts log → Since h.clear [] []

structure Tallies (V : Vocabulary) (ts : List Term) (log : List NodeId) (path : List Term)
    (h : Hasher) : Prop where
  unlimited : h.maxHeight = none
  split : ∀ n, n ∈ log ↔ n ∈ h.memo ∨ n ∈ path.map node
  nodup : log.Nodup
  closed : ∀ u ∈ V, u.node ∈ h.memo → ∀ c ∈ u.children, c.node ∈ h.memo
  known : ∀ n ∈ h.memo, ∃ s ∈ subtermsAll ts, s.node = n
  within : path ⊆ subtermsAll ts
  heights : path.Pairwise (·.height < ·.height)

theorem mem_remember {n k : NodeId} {f : Fingerprint} : k ∈ (h.remember n f).memo ↔ n = k ∨ k ∈ h.memo := by
  rw [remember, Std.TreeMap.mem_insert, Std.LawfulEqCmp.compare_eq_iff_eq]

theorem tallies_empty (hu : h.maxHeight = none) (hm : h.memo = ∅) : h.Tallies V [] [] [] where
  unlimited := hu
  split n := by simp [hm]
  nodup := .nil
  closed u _ hn := by simp [hm] at hn
  known n hn := by simp [hm] at hn
  within := List.nil_subset _
  heights := .nil

namespace Tallies

theorem append (hk : h.Tallies V ts log []) (us : List Term) : h.Tallies V (ts ++ us) log [] where
  __ := hk
  known n hn := by
    obtain ⟨s, hs, hsn⟩ := hk.known n hn
    obtain ⟨t, ht, hs⟩ := mem_subtermsAll.mp hs
    exact ⟨s, mem_subtermsAll.mpr ⟨t, List.mem_append_left us ht, hs⟩, hsn⟩
  within := List.nil_subset _

theorem not_mem_path (hk : h.Tallies V ts log path) (hts : ∀ t ∈ ts, t ∈ V) (hc : c ∈ V)
    (hlow : ∀ u ∈ path, c.height < u.height) : c.node ∉ path.map node := by
  intro hn
  obtain ⟨u, hu, hn⟩ := List.mem_map.mp hn
  obtain rfl := V.eq_of_node_eq (Vocabulary.mem_of_mem_subtermsAll hts (hk.within hu)) hc hn
  exact Nat.lt_irrefl _ (hlow u hu)

theorem height_lt (hk : h.Tallies V ts log (t :: path)) (hc : c ∈ t.children) :
    ∀ u ∈ t :: path, c.height < u.height := by
  have hct := height_lt_of_mem_children hc
  have hheights := (List.pairwise_cons.mp hk.heights).1
  exact List.forall_mem_cons.mpr ⟨hct, fun u hu => hct.trans (hheights u hu)⟩

theorem push (hk : h.Tallies V ts log path) (hts : ∀ t ∈ ts, t ∈ V) (hc : c ∈ subtermsAll ts)
    (hm : c.node ∉ h.memo) (hlow : ∀ u ∈ path, c.height < u.height) :
    h.Tallies V ts (log ++ [c.node]) (c :: path) := by
  have hnew : c.node ∉ log := by
    rw [hk.split]
    exact not_or_intro hm (hk.not_mem_path hts (Vocabulary.mem_of_mem_subtermsAll hts hc) hlow)
  exact {
    unlimited := hk.unlimited
    split := fun n => by
      rw [List.mem_append, hk.split, List.mem_singleton, List.map_cons, List.mem_cons, or_assoc,
        or_comm (a := n = c.node)]
    nodup := List.nodup_append.mpr ⟨hk.nodup, List.nodup_singleton _, by grind⟩
    closed := hk.closed
    known := hk.known
    within := List.cons_subset.mpr ⟨hc, hk.within⟩
    heights := List.pairwise_cons.mpr ⟨hlow, hk.heights⟩ }

theorem pop (hk : h.Tallies V ts log (t :: path)) (hts : ∀ t ∈ ts, t ∈ V)
    (hc : ∀ c ∈ t.children, c.node ∈ log) (f : Fingerprint) :
    (h.remember t.node f).Tallies V ts log path := by
  obtain ⟨hwithin, hbelow⟩ := List.cons_subset.mp hk.within
  have ht : t ∈ V := Vocabulary.mem_of_mem_subtermsAll hts hwithin
  -- The children have been looked into and are too low to be on the path, so they are remembered.
  have hchildren : ∀ c ∈ t.children, c.node ∈ h.memo := by
    intro c hct
    refine ((hk.split c.node).mp (hc c hct)).resolve_right ?_
    exact hk.not_mem_path hts (Vocabulary.mem_of_mem_children ht hct) (hk.height_lt hct)
  exact {
    unlimited := hk.unlimited
    split := fun n => by
      rw [hk.split, mem_remember, List.map_cons, List.mem_cons]
      grind
    nodup := hk.nodup
    closed := fun u hu hn c hcu => by
      refine mem_remember.mpr (.inr ?_)
      rcases mem_remember.mp hn with hn | hn
      · obtain rfl := V.eq_of_node_eq ht hu hn
        exact hchildren c hcu
      · exact hk.closed u hu hn c hcu
    known := fun n hn => by
      rcases mem_remember.mp hn with rfl | hn
      · exact ⟨t, hwithin, rfl⟩
      · exact hk.known n hn
    within := hbelow
    heights := hk.heights.tail }

end Tallies

end Hasher

namespace Frame

structure Sees (log : List NodeId) (f : Frame) (t : Term) : Prop where
  node_eq : f.node = t.node
  full : f.gathered.full = true
  rest : f.rest ⊆ t.children
  seen : ∀ c ∈ t.children, c ∈ f.rest ∨ c.node ∈ log

variable {f : Frame} {more : List NodeId}

theorem sees_ofTerm (log : List NodeId) (t : Term) : (ofTerm t).Sees log t :=
  ⟨rfl, rfl, List.Subset.refl _, fun _ hc => .inl hc⟩

theorem Sees.receive (hf : f.Sees log t) {returned : Option Subtree}
    (hr : ∀ r, returned = some r → r.full = true) : (f.receive returned).Sees log t where
  node_eq := hf.node_eq
  full := by
    cases returned with
    | none => exact hf.full
    | some r => exact Bool.and_eq_true_iff.mpr ⟨hf.full, hr r rfl⟩
  rest := hf.rest
  seen := hf.seen

theorem Sees.mono (hf : f.Sees log t) (hsub : log ⊆ more) : f.Sees more t where
  __ := hf
  seen c hc := (hf.seen c hc).imp_right fun hn => hsub hn

theorem Sees.next (hf : f.Sees log t) {rest : List Term} (hrest : f.rest = c :: rest)
    (hc : c.node ∈ log) : ({ f with rest } : Frame).Sees log t where
  node_eq := hf.node_eq
  full := hf.full
  rest := (List.cons_subset.mp (hrest ▸ hf.rest)).2
  seen d hd := by
    rcases hf.seen d hd with hd | hd
    · rw [hrest] at hd
      rcases List.mem_cons.mp hd with rfl | hd
      · exact .inr hc
      · exact .inl hd
    · exact .inr hd

end Frame

namespace Traversal

structure Tallies (V : Vocabulary) (ts : List Term) (log : List NodeId) (path : List Term)
    (s : Traversal) : Prop where
  hasher : s.hasher.Tallies V ts log path
  returned : ∀ r, s.returned = some r → r.full = true
  frames : List.Forall₂ (Frame.Sees log) s.stack path

theorem tallies_start (hk : h.Tallies V ts log []) (hts : ∀ t ∈ ts, t ∈ V) (ht : t ∈ subtermsAll ts)
    (hm : t.node ∉ h.memo) : (start t h).Tallies V ts (log ++ [t.node]) [t] where
  hasher := hk.push hts ht hm nofun
  returned := nofun
  frames := .cons (Frame.sees_ofTerm _ t) .nil

inductive Round (frame : Frame) (below : List Frame) (h : Hasher) : Traversal → List NodeId → Prop where
  | leave : frame.rest = [] → Round frame below h
      ⟨below, some frame.gathered, h.remember frame.node ⟨frame.gathered.hash, frame.gathered.height⟩⟩ []
  | skip {c : Term} {rest : List Term} {f : Fingerprint} : frame.rest = c :: rest → c.node ∈ h.memo →
      Round frame below h ⟨{ frame with rest } :: below, some (.ofFingerprint f), h⟩ []
  | look {c : Term} {rest : List Term} : frame.rest = c :: rest → c.node ∉ h.memo →
      Round frame below h ⟨.ofTerm c :: { frame with rest } :: below, none, h⟩ [c.node]

theorem round_step {top : Frame} {below : List Frame} {returned : Option Subtree} (hu : h.maxHeight = none)
    (hfull : (top.receive returned).gathered.full = true) :
    Round (top.receive returned) below h (step ⟨top :: below, returned, h⟩)
      (opened ⟨top :: below, returned, h⟩) := by
  cases hrest : (top.receive returned).rest with
  | nil =>
    simp only [opened, step, hrest, Hasher.finish, hfull, if_true, List.length_cons]
    simpa using Round.leave hrest
  | cons c rest =>
    cases hf : h.memo[c.node]? with
    | none =>
      have hm : c.node ∉ h.memo := by simpa using hf
      simp only [opened, step, hrest, enter, Hasher.lookup?_of_none hf, hu, Hash.expands_none, if_true,
        List.length_cons]
      simpa [Frame.ofTerm] using Round.look hrest hm
    | some f =>
      have hm : c.node ∈ h.memo := by grind
      simp only [opened, step, hrest, enter, Hasher.lookup?_unbounded hf hu, List.length_cons]
      simpa using Round.skip hrest hm

theorem Tallies.step (hk : s.Tallies V ts log path) (hts : ∀ t ∈ ts, t ∈ V) :
    ∃ path', s.step.Tallies V ts (log ++ s.opened) path' := by
  obtain ⟨stack, returned, h⟩ := s
  cases hk.frames with
  | nil => exact ⟨[], by simpa [opened, Traversal.step] using hk⟩
  | @cons top t below path htop hbelow =>
    have hframe := htop.receive hk.returned
    have hround : Round _ below h _ _ := round_step hk.hasher.unlimited hframe.full
    generalize Traversal.step _ = s', opened _ = new at hround ⊢
    -- Only a child that is looked into makes the log longer, and leaving a node moves it into memory.
    cases hround with
    | leave hrest =>
      have hseen : ∀ c ∈ t.children, c.node ∈ log := fun c hc =>
        (hframe.seen c hc).resolve_left (by simp [hrest])
      rw [List.append_nil, hframe.node_eq]
      exact ⟨path, hk.hasher.pop hts hseen _, by rintro _ ⟨⟩; exact hframe.full, hbelow⟩
    | skip hrest hm =>
      have hc := (hk.hasher.split _).mpr (.inl hm)
      rw [List.append_nil]
      exact ⟨t :: path, hk.hasher, by rintro _ ⟨⟩; rfl, .cons (hframe.next hrest hc) hbelow⟩
    | @look c _ hrest hm =>
      have hct := hframe.rest (hrest ▸ List.mem_cons_self)
      have hwithin := mem_subtermsAll_of_mem_children (hk.hasher.within List.mem_cons_self) hct
      have hpush := hk.hasher.push hts hwithin hm (hk.hasher.height_lt hct)
      have hmore := List.subset_append_left log [c.node]
      refine ⟨c :: t :: path, hpush, by rintro _ ⟨⟩, ?_⟩
      refine .cons (Frame.sees_ofTerm _ c) (.cons ?_ (hbelow.imp fun _ _ hf => hf.mono hmore))
      exact (hframe.mono hmore).next hrest (by simp)

theorem Tallies.iterate (hk : s.Tallies V ts log path) (hts : ∀ t ∈ ts, t ∈ V) (k : Nat) :
    ∃ path', (Traversal.step^[k] s).Tallies V ts (log ++ s.openedIn k) path' := by
  induction k generalizing s log path with
  | zero => exact ⟨path, by simpa [openedIn] using hk⟩
  | succ k ih =>
    obtain ⟨path', hk'⟩ := hk.step hts
    rw [openedIn, ← List.append_assoc]
    exact ih hk'

end Traversal

namespace Hasher

structure Tallied (V : Vocabulary) (ts : List Term) (log : List NodeId) (h : Hasher) : Prop where
  tallies : h.Tallies V ts log []
  roots : ∀ t ∈ ts, t.node ∈ log

namespace Tallied

theorem mem_iff (hk : h.Tallied V ts log) (n : NodeId) : n ∈ log ↔ n ∈ h.memo := by
  simp [hk.tallies.split]

theorem hash_hit (hk : h.Tallied V ts log) (hm : t.node ∈ h.memo) : h.Tallied V (ts ++ [t]) log where
  tallies := hk.tallies.append [t]
  roots := List.forall_mem_append.mpr
    ⟨hk.roots, List.forall_mem_singleton.mpr ((hk.mem_iff t.node).mpr hm)⟩

theorem exists_iterate (hk : h.Tallied V ts log) (hts : ∀ s ∈ ts ++ [t], s ∈ V) (hm : t.node ∉ h.memo)
    (k : Nat) : ∃ path, (Traversal.step^[k] (.start t h)).Tallies V (ts ++ [t])
      (log ++ t.node :: (Traversal.start t h).openedIn k) path := by
  have ht : t ∈ subtermsAll (ts ++ [t]) :=
    mem_subtermsAll.mpr ⟨t, List.mem_append_right ts List.mem_cons_self, mem_subterms_self t⟩
  have hrun := (Traversal.tallies_start (hk.tallies.append [t]) hts ht hm).iterate hts k
  rwa [List.append_assoc, List.singleton_append] at hrun

theorem hash_miss (hk : h.Tallied V ts log) (hts : ∀ s ∈ ts ++ [t], s ∈ V) (hm : t.node ∉ h.memo) {k : Nat}
    {done : Subtree} {h' : Hasher} (hend : Traversal.step^[k] (.start t h) = ⟨[], some done, h'⟩) :
    h'.Tallied V (ts ++ [t]) (log ++ t.node :: (Traversal.start t h).openedIn k) := by
  obtain ⟨path, hrun⟩ := hk.exists_iterate hts hm k
  rw [hend] at hrun
  obtain rfl := List.forall₂_nil_left_iff.mp hrun.frames
  refine ⟨hrun.hasher, List.forall_mem_append.mpr ⟨fun s hs => ?_, List.forall_mem_singleton.mpr ?_⟩⟩
  · exact List.mem_append_left _ (hk.roots s hs)
  · exact List.mem_append_right _ List.mem_cons_self

theorem hash (hk : h.Tallied V ts log) (hts : ∀ s ∈ ts ++ [t], s ∈ V) {k : Nat} (hrounds : 2 * t.size ≤ k) :
    (h.hash t).2.Tallied V (ts ++ [t]) (log ++ h.opened k t) := by
  have hloops := h.loops_hash t
  unfold Loops at hloops
  unfold opened
  cases hf : h.memo[t.node]? with
  | none =>
    rw [lookup?_of_none hf] at hloops ⊢
    obtain ⟨done, -, hend⟩ := hloops
    exact hk.hash_miss hts (by simpa using hf) (hend k hrounds)
  | some f =>
    rw [lookup?_unbounded hf hk.tallies.unlimited] at hloops ⊢
    obtain ⟨-, hsame⟩ := hloops
    rw [hsame, List.append_nil]
    exact hk.hash_hit (by grind)

theorem mem_memo_iff (hk : h.Tallied V ts log) (hts : ∀ t ∈ ts, t ∈ V) (n : NodeId) :
    n ∈ h.memo ↔ ∃ s ∈ subtermsAll ts, s.node = n := by
  refine ⟨hk.tallies.known n, ?_⟩
  rintro ⟨s, hs, rfl⟩
  obtain ⟨t, ht, hs⟩ := mem_subtermsAll.mp hs
  -- With the nodes below it, each remembered node is in the vocabulary of those that are remembered.
  have hroot : t ∈ V ∧ t.node ∈ h.memo := ⟨hts t ht, (hk.mem_iff t.node).mp (hk.roots t ht)⟩
  exact (Vocabulary.mem_of_mem_subterms (V := V.filter _ hk.tallies.closed) hroot hs).2

end Tallied

theorem Since.maxHeight_eq (hr : h.Since ts log) : h.maxHeight = none := by
  induction hr with
  | new => rfl
  | hash hr _ ih => exact (hash_grows _ _).maxHeight_eq.trans ih
  | clear hr ih => exact ih

theorem Since.tallied (hr : h.Since ts log) (hts : ∀ t ∈ ts, t ∈ V) : h.Tallied V ts log := by
  induction hr with
  | new => exact ⟨tallies_empty rfl rfl, nofun⟩
  | hash hr hk ih => exact (ih fun s hs => hts s (List.mem_append_left _ hs)).hash hts hk
  | clear hr ih => exact ⟨tallies_empty hr.maxHeight_eq rfl, nofun⟩

theorem Tallied.memoSize_eq (hk : h.Tallied V ts log) (hts : ∀ t ∈ ts, t ∈ V) :
    h.memoSize = ((subtermsAll ts).map node).toFinset.card := by
  have hkeys : h.memo.keys.toFinset = ((subtermsAll ts).map node).toFinset := by
    ext n
    rw [List.mem_toFinset, List.mem_toFinset, List.mem_map, Std.TreeMap.mem_keys, hk.mem_memo_iff hts]
  have hnodup : h.memo.keys.Nodup := h.memo.distinct_keys.imp fun hne heq => hne (by simp [heq])
  rw [← hkeys, List.toFinset_card_of_nodup hnodup, Std.TreeMap.length_keys, memoSize]

theorem Tallied.not_mem_of_opened (hk : h.Tallied V ts log) (hts : ∀ s ∈ ts, s ∈ V) (ht : t ∈ V) (k : Nat) :
    (∀ n ∈ h.opened k t, n ∉ h.memo) ∧ (t.node ∉ h.memo →
      ∀ n ∈ (Traversal.step^[k] (.start t h)).opened, n ∉ (Traversal.step^[k] (.start t h)).hasher.memo) := by
  have hts' : ∀ s ∈ ts ++ [t], s ∈ V := List.forall_mem_append.mpr ⟨hts, List.forall_mem_singleton.mpr ht⟩
  constructor
  · intro n hn
    unfold opened at hn
    cases hf : h.memo[t.node]? with
    | none =>
      rw [lookup?_of_none hf] at hn
      obtain ⟨path, hrun⟩ := hk.exists_iterate hts' (by simpa using hf) k
      rw [← hk.mem_iff]
      exact fun hlog => (List.nodup_append.mp hrun.hasher.nodup).2.2 n hlog n hn rfl
    | some f =>
      rw [lookup?_unbounded hf hk.tallies.unlimited] at hn
      cases hn
  · intro hm n hn hmemo
    obtain ⟨path, hrun⟩ := hk.exists_iterate hts' hm k
    obtain ⟨path', hnext⟩ := hrun.step hts'
    have hlog := (hrun.hasher.split n).mpr (.inl hmemo)
    exact (List.nodup_append.mp hnext.hasher.nodup).2.2 n hlog n hn rfl

theorem Since.memoizes_once (hr : h.Since ts log) (hts : ∀ t ∈ ts, t ∈ V) :
    (∀ n, n ∈ h.memo ↔ ∃ s ∈ subtermsAll ts, s.node = n) ∧
    h.memoSize = ((subtermsAll ts).map node).toFinset.card ∧
    log.Nodup ∧ (∀ n, n ∈ log ↔ n ∈ h.memo) ∧
    ∀ t ∈ V, ∀ k, (∀ n ∈ h.opened k t, n ∉ h.memo) ∧ (t.node ∉ h.memo →
      ∀ n ∈ (Traversal.step^[k] (.start t h)).opened,
        n ∉ (Traversal.step^[k] (.start t h)).hasher.memo) := by
  have hk := hr.tallied hts
  exact ⟨hk.mem_memo_iff hts, hk.memoSize_eq hts, hk.tallies.nodup, hk.mem_iff,
    fun t ht k => hk.not_mem_of_opened hts ht k⟩

end Hasher

def Term.doubled : Term := .app 3 ⟨"h", [.int, .int], .int, none⟩ [.tower, .tower]

def Vocabulary.doubles : Vocabulary :=
  .ofNodes (.doubled :: Term.tower.subterms)
    (by simp [doubled, tower, subterms, subtermsAll, children]) (by decide)

theorem Hasher.Since.memoizes_once_doubled :
    let cleared := (unlimited.hash .towered).2.clear
    let warm := (cleared.hash .doubled).2
    (warm.hash .tower).2.memoSize = 4 ∧ (subtermsAll [.doubled, .tower]).length = 10 ∧
      cleared.opened 14 .doubled = [3, 2, 1, 0] ∧ warm.opened 6 .tower = [] := by
  have hcleared : (unlimited.hash .towered).2.clear.Since [] [] :=
    .clear (.hash .new (Nat.le_refl _))
  have hdoubled := hcleared.hash (t := .doubled) (k := 14) (by decide)
  have htower := hdoubled.hash (t := .tower) (k := 6) (by decide)
  have hts : ∀ t ∈ [Term.doubled, .tower], t ∈ Vocabulary.doubles :=
    List.forall_mem_cons.mpr ⟨List.mem_cons_self, List.forall_mem_singleton.mpr
      (List.mem_cons_of_mem _ (mem_subterms_self _))⟩
  obtain ⟨-, hsize, -⟩ := htower.memoizes_once hts
  exact ⟨hsize.trans (by decide), by decide, by decide +kernel, by decide +kernel⟩

end CoreReuse
