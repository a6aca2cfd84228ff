import CoreReuse.Interrupt
import Mathlib.Data.Nat.Find
import Mathlib.Order.Monotone.Defs

namespace CoreReuse

structure Clock where
  now : Nat
  readings : Nat := 0

def Clock.read (c : Clock) : Nat × Clock := (c.now, { c with readings := c.readings + 1 })

namespace Interrupt

variable {i : Interrupt} {now d n : Nat}

def consult (i : Interrupt) (clock : Clock) : Bool × Interrupt × Clock :=
  if i.expired || i.token.isCancelled then
    (true, i, clock)
  else
    match i.deadline with
    | .none => (false, i, clock)
    | some deadline =>
      let next := { i with polls := i.polls + 1 }
      if i.polls % clockInterval = 0 then
        let (now, clock) := clock.read
        if deadline ≤ now then (true, { next with expired := true }, clock) else (false, next, clock)
      else (false, next, clock)

theorem consult_eq (i : Interrupt) (clock : Clock) :
    i.consult clock = ((i.poll clock.now).1, (i.poll clock.now).2,
      if i.readsClock then clock.read.2 else clock) := by
  obtain ⟨token, deadline, polls, expired⟩ := i
  cases hc : expired || token.isCancelled with
  | true =>
    have hr : readsClock ⟨token, deadline, polls, expired⟩ = false := by
      rcases Bool.or_eq_true_iff.mp hc with h | h <;> simp [readsClock, h]
    simp only [consult, poll, hc, hr, if_true, Bool.false_eq_true, if_false]
  | false =>
    obtain ⟨rfl, ht⟩ := Bool.or_eq_false_iff.mp hc
    cases deadline with
    | none => simp [consult, poll, readsClock, ht]
    | some d =>
      by_cases hp : polls % clockInterval = 0
      · by_cases hd : d ≤ clock.now <;> simp [consult, poll, readsClock, ht, hp, hd, Clock.read]
      · simp [consult, poll, readsClock, ht, hp]

theorem expired_of_fired (h : (i.poll now).1 = true) (ht : i.token.isCancelled = false) :
    (i.poll now).2.expired = true := by
  unfold poll at h ⊢
  split at h
  · next hc =>
    rw [if_pos hc]
    simpa [ht] using hc
  · next hc =>
    rw [if_neg hc]
    split at h
    · cases h
    · split at h
      · next hd _ hp => simp [hp]
      · cases h

def silent (token : Token) (deadline : Option Nat) (n : Nat) : Interrupt :=
  { token, deadline, polls := UInt32.ofNat n }

theorem ofNat_mod_clockInterval : UInt32.ofNat n % clockInterval = 0 ↔ 64 ∣ n := by
  -- The length of a period divides the number of words, so a count that starts anew keeps in step.
  rw [← UInt32.toNat_inj, UInt32.toNat_mod, UInt32.toNat_ofNat']
  change n % 2 ^ 32 % 64 = 0 ↔ _
  rw [Nat.mod_mod_of_dvd n (by decide), Nat.dvd_iff_mod_eq_zero]

variable {token : Token}

theorem poll_silent (ht : token.isCancelled = false) :
    (silent token (some d) n).poll now =
      if 64 ∣ n ∧ d ≤ now then (true, { silent token (some d) (n + 1) with expired := true })
      else (false, silent token (some d) (n + 1)) := by
  have hn : UInt32.ofNat n + 1 = UInt32.ofNat (n + 1) := (UInt32.ofNat_add n 1).symm
  simp only [poll, silent, ht, Bool.or_false, Bool.false_eq_true, if_false, hn, ofNat_mod_clockInterval,
    Bool.and_eq_true, decide_eq_true_eq]

theorem readsClock_silent (ht : token.isCancelled = false) :
    (silent token (some d) n).readsClock = true ↔ 64 ∣ n := by
  rw [← ofNat_mod_clockInterval]
  simp [readsClock, silent, ht]

end Interrupt

/-- When the polls of an interrupt come, and the token as each of them finds it. Time does not go back,
and a token that is cancelled stays so. -/
structure Course where
  now : Nat → Nat
  forward : Monotone now
  token : Nat → Token
  stays : ∀ n, (token n).isCancelled = true → (token (n + 1)).isCancelled = true

namespace Course

open Interrupt

variable (c : Course) (deadline : Option Nat)

def before : Nat → Interrupt
  | 0 => { token := c.token 0, deadline }
  | n + 1 => { ((before n).poll (c.now n)).2 with token := c.token (n + 1) }

def fires (n : Nat) : Bool := ((c.before deadline n).poll (c.now n)).1

def readings : Nat → Nat
  | 0 => 0
  | n + 1 => ((c.before deadline n).consult ⟨c.now n, readings n⟩).2.2.readings

def Reads (n : Nat) : Prop := c.readings deadline (n + 1) = c.readings deadline n + 1

variable {c deadline} {m n d : Nat}

theorem cancelled_of_le (h : m ≤ n) (hm : (c.token m).isCancelled = true) :
    (c.token n).isCancelled = true := by
  induction h with
  | refl => exact hm
  | step _ ih => exact c.stays _ ih

theorem not_cancelled_of_le (h : m ≤ n) (hn : (c.token n).isCancelled = false) :
    (c.token m).isCancelled = false := by
  by_contra hm
  rw [cancelled_of_le h (by simpa using hm)] at hn
  cases hn

theorem token_before : (c.before deadline n).token = c.token n := by
  cases n <;> rfl

theorem fires_of_cancelled (h : (c.token n).isCancelled = true) : c.fires deadline n = true := by
  rw [fires, poll_of_cancelled (token_before ▸ h)]

theorem not_cancelled_of_not_fires (h : c.fires deadline n = false) :
    (c.token n).isCancelled = false := by
  by_contra hn
  rw [fires_of_cancelled (by simpa using hn)] at h
  cases h

theorem reads_iff : c.Reads deadline n ↔ (c.before deadline n).readsClock = true := by
  rw [Reads, readings, consult_eq]
  cases (c.before deadline n).readsClock <;> simp [Clock.read]

theorem expired_before_succ (h : c.fires deadline n = true) (ht : (c.token n).isCancelled = false) :
    (c.before deadline (n + 1)).expired = true :=
  expired_of_fired h (token_before ▸ ht)

theorem fires_succ (h : c.fires deadline n = true) : c.fires deadline (n + 1) = true := by
  -- A poll that has fired leaves its mark on the token or on the interrupt.
  cases ht : (c.token n).isCancelled with
  | true => exact fires_of_cancelled (c.stays n ht)
  | false => rw [fires, poll_of_expired (expired_before_succ h ht)]

theorem fires_of_le (hmn : m ≤ n) (h : c.fires deadline m = true) : c.fires deadline n = true := by
  induction hmn with
  | refl => exact h
  | step _ ih => exact fires_succ ih

theorem before_of_silent (h : ∀ k < n, c.fires (some d) k = false) :
    c.before (some d) n = silent (c.token n) (some d) n := by
  induction n with
  | zero => rfl
  | succ n ih =>
    have hn := h n (Nat.lt_succ_self n)
    have ht := not_cancelled_of_not_fires hn
    have hb := ih fun k hk => h k (Nat.lt_succ_of_lt hk)
    rw [fires, hb, poll_silent ht] at hn
    rw [before, hb, poll_silent ht]
    split at hn
    · cases hn
    · next hp =>
      rw [if_neg hp]
      rfl

theorem silent_or_fired (c : Course) (deadline : Option Nat) (n : Nat) :
    (∀ k < n, c.fires deadline k = false) ∨ ∃ k < n, c.fires deadline k = true := by
  by_cases h : ∃ k < n, c.fires deadline k = true
  · exact .inr h
  · exact .inl fun k hk => by simpa using fun hf => h ⟨k, hk, hf⟩

theorem reads_iff_of_not_cancelled (ht : (c.token n).isCancelled = false) :
    c.Reads (some d) n ↔ 64 ∣ n ∧ ∀ k < n, c.fires (some d) k = false := by
  rw [reads_iff]
  rcases silent_or_fired c (some d) n with h | ⟨k, hk, hf⟩
  · rw [before_of_silent h, readsClock_silent ht, and_iff_left h]
  · obtain ⟨n, rfl⟩ := Nat.exists_eq_succ_of_ne_zero (Nat.ne_zero_of_lt hk)
    have he := expired_before_succ (fires_of_le (Nat.le_of_lt_succ hk) hf)
      (not_cancelled_of_le (Nat.le_succ n) ht)
    refine iff_of_false (by simp [readsClock, he]) fun hn => ?_
    rw [hn.2 k hk] at hf
    cases hf

theorem fires_of_silent (ht : (c.token n).isCancelled = false) (h : ∀ k < n, c.fires (some d) k = false) :
    c.fires (some d) n = true ↔ 64 ∣ n ∧ d ≤ c.now n := by
  rw [fires, before_of_silent h, poll_silent ht]
  split
  · next hp => exact iff_of_true rfl hp
  · next hp => exact iff_of_false Bool.false_ne_true hp

theorem fires_iff (ht : (c.token n).isCancelled = false) :
    c.fires (some d) n = true ↔ ∃ m ≤ n, 64 ∣ m ∧ c.Reads (some d) m ∧ d ≤ c.now m := by
  constructor
  · intro hf
    -- The first poll that fires is the one that sees the deadline passed.
    have hex : ∃ m, c.fires (some d) m = true := ⟨n, hf⟩
    have hle : Nat.find hex ≤ n := Nat.find_min' hex hf
    have hsilent : ∀ k < Nat.find hex, c.fires (some d) k = false :=
      fun k hk => by simpa using Nat.find_min hex hk
    have hm := not_cancelled_of_le hle ht
    obtain ⟨hdvd, hd⟩ := (fires_of_silent hm hsilent).mp (Nat.find_spec hex)
    exact ⟨_, hle, hdvd, (reads_iff_of_not_cancelled hm).mpr ⟨hdvd, hsilent⟩, hd⟩
  · rintro ⟨m, hle, -, hr, hd⟩
    have hm := not_cancelled_of_le hle ht
    obtain ⟨hdvd, hsilent⟩ := (reads_iff_of_not_cancelled hm).mp hr
    exact fires_of_le hle ((fires_of_silent hm hsilent).mpr ⟨hdvd, hd⟩)

theorem fires_of_passed (hd : d ≤ c.now m) (hmn : m + 63 ≤ n) : c.fires (some d) n = true := by
  -- The clock would be read by this poll, which comes in between.
  let k := 64 * ((m + 63) / 64)
  have hk : m ≤ k ∧ k ≤ n := by omega
  refine fires_of_le hk.2 ?_
  cases ht : (c.token k).isCancelled with
  | true => exact fires_of_cancelled ht
  | false =>
    rcases silent_or_fired c (some d) k with h | ⟨j, hj, hf⟩
    · exact (fires_of_silent ht h).mpr ⟨Nat.dvd_mul_right 64 _, hd.trans (c.forward hk.1)⟩
    · exact fires_of_le hj.le hf

/-- An interrupt with a deadline, polled as often as one likes. Unless the token was cancelled, the clock
is read by every 64th poll up to the first that fires, and a poll fires exactly if one of these has
read a time at or past the deadline by then. So no more than 63 polls go by unfired once the deadline
has passed. What has fired stays fired, and no poll goes by once the token is cancelled. -/
theorem polls_periodically (c : Course) (d : Nat) :
    (∀ i clock, (consult i clock).1 = (i.poll clock.now).1 ∧
      (consult i clock).2.1 = (i.poll clock.now).2) ∧
    (∀ n, (c.token n).isCancelled = false →
      (c.Reads (some d) n ↔ 64 ∣ n ∧ ∀ k < n, c.fires (some d) k = false) ∧
      (c.fires (some d) n = true ↔ ∃ m ≤ n, 64 ∣ m ∧ c.Reads (some d) m ∧ d ≤ c.now m)) ∧
    (∀ m n, d ≤ c.now m → m + 63 ≤ n → c.fires (some d) n = true) ∧
    (∀ m n, m ≤ n → c.fires (some d) m = true → c.fires (some d) n = true) ∧
    ∀ deadline m n, m ≤ n → (c.token m).isCancelled = true → c.fires deadline n = true := by
  refine ⟨fun i clock => ?_, fun n ht => ⟨reads_iff_of_not_cancelled ht, fires_iff ht⟩,
    fun m n => fires_of_passed, fun m n => fires_of_le, fun deadline m n hmn hm => ?_⟩
  · rw [consult_eq]
    exact ⟨rfl, rfl⟩
  · exact fires_of_cancelled (cancelled_of_le hmn hm)

def ticking : Course where
  now := id
  forward := monotone_id
  token _ := {}
  stays _ := id

theorem polls_past_wrap :
    ticking.fires (some 4294967297) 4294967359 = false ∧
      ticking.Reads (some 4294967297) 4294967360 ∧
      ticking.fires (some 4294967297) 4294967360 = true := by
  obtain ⟨-, hlive, -⟩ := ticking.polls_periodically 4294967297
  have hsilent : ∀ k < 4294967360, ticking.fires (some 4294967297) k = false := by
    intro k hk
    by_contra hf
    obtain ⟨m, hm, hdvd, -, hd⟩ := (hlive k rfl).2.mp (by simpa using hf)
    change 4294967297 ≤ m at hd
    omega
  have hreads := (hlive 4294967360 rfl).1.mpr ⟨by decide, hsilent⟩
  exact ⟨hsilent _ (by decide), hreads,
    (hlive 4294967360 rfl).2.mpr ⟨_, le_rfl, by decide, hreads, show 4294967297 ≤ 4294967360 by decide⟩⟩

end Course

end CoreReuse
