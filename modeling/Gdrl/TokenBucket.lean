import Mathlib.Algebra.BigOperators.Intervals
import Mathlib.Algebra.BigOperators.Ring.Finset
import Mathlib.Data.Rat.Floor
import Mathlib.Tactic.Linarith
import Mathlib.Tactic.Ring
import Mathlib.Tactic.Positivity

/-!
# Token bucket

`TokenBucket.call` is `token_bucket.lua` over exact rationals : one atomic decision on
what the key holds. `run` is a sequence of calls on one key that starts absent and does
not expire.

The bound is a potential argument. `level` is what the bucket holds before a call, and
`level_step` says what one call does to it : it pays one token for an allowed call and
gains at most what the clock's advance past its running maximum (`peak`) is worth.
`sum_le_of_step` adds the calls up.
-/

open Finset

namespace Gdrl

/-- What a limiter script returns. -/
structure Reply where
  allowed : Bool
  remaining : ℤ
  retryAfterMs : ℤ
  deriving DecidableEq, Repr

/-- A sum of gains is paid by the potential at the start and the credits on the way. -/
theorem sum_le_of_step {φ gain credit : ℕ → ℚ} {m n : ℕ} (hmn : m ≤ n)
    (h : ∀ i, m ≤ i → φ (i + 1) + gain i ≤ φ i + credit i) :
    φ n + ∑ i ∈ Ico m n, gain i ≤ φ m + ∑ i ∈ Ico m n, credit i := by
  induction n, hmn using Nat.le_induction with
  | base => simp
  | succ n hmn ih =>
    rw [sum_Ico_succ_top hmn, sum_Ico_succ_top hmn]
    linarith [h n hmn]

/-- The hash at a bucket's key. -/
structure Bucket where
  tokens : ℚ
  lastRefillMs : ℤ
  deriving DecidableEq

namespace TokenBucket

/-- The arguments of one call. -/
structure Call where
  limit : ℤ
  burst : ℤ
  nowMs : ℤ
  deriving DecidableEq

/-- Time to refill for. A clock that went backward counts as no time. -/
def elapsedMs (c : Call) (data : Option Bucket) : ℤ :=
  let elapsed := c.nowMs - (data.elim c.nowMs Bucket.lastRefillMs)
  if elapsed < 0 then 0 else elapsed

/-- The tokens after the refill. A fresh bucket starts full. -/
def refill (c : Call) (data : Option Bucket) : ℚ :=
  let tokens : ℚ := data.elim (c.burst : ℚ) Bucket.tokens
  if 0 < c.limit then min c.burst (tokens + elapsedMs c data * c.limit / 60000) else tokens

/-- `last_refill_ms` after the call. It never moves backward. -/
def newRefillMs (c : Call) (data : Option Bucket) : ℤ :=
  let last := data.elim c.nowMs Bucket.lastRefillMs
  if last < c.nowMs then c.nowMs else last

/-- `token_bucket.lua` -/
def call (c : Call) (data : Option Bucket) : Reply × Bucket :=
  let tokens := refill c data
  if 1 ≤ tokens then
    (⟨true, ⌊tokens - 1⌋, 0⟩, ⟨tokens - 1, newRefillMs c data⟩)
  else
    (⟨false, ⌊tokens⌋, if 0 < c.limit then ⌈(1 - tokens) * 60000 / c.limit⌉ else -1⟩,
      ⟨tokens, newRefillMs c data⟩)

/-! ## One call -/

@[simp] theorem call_allowed (c : Call) (data : Option Bucket) :
    (call c data).1.allowed = decide (1 ≤ refill c data) := by
  unfold call
  dsimp only
  split_ifs with h <;> simp [h]

@[simp] theorem call_lastRefillMs (c : Call) (data : Option Bucket) :
    (call c data).2.lastRefillMs = newRefillMs c data := by
  unfold call
  dsimp only
  split_ifs <;> rfl

/-- The cost of a call in tokens. -/
def cost (c : Call) (data : Option Bucket) : ℚ := if (call c data).1.allowed then 1 else 0

theorem call_tokens (c : Call) (data : Option Bucket) :
    (call c data).2.tokens = refill c data - cost c data := by
  rw [cost, call_allowed]
  by_cases h : 1 ≤ refill c data <;> simp [call, h]

theorem elapsedMs_some (c : Call) (b : Bucket) :
    elapsedMs c (some b) = max 0 (c.nowMs - b.lastRefillMs) := by
  simp only [elapsedMs, Option.elim_some]
  split_ifs <;> omega

theorem newRefillMs_none (c : Call) : newRefillMs c none = c.nowMs := if_neg (lt_irrefl _)

theorem newRefillMs_some (c : Call) (b : Bucket) :
    newRefillMs c (some b) = max b.lastRefillMs c.nowMs := by
  simp only [newRefillMs, Option.elim_some]
  split_ifs <;> omega

theorem elapsedMs_nonneg (c : Call) (data : Option Bucket) : 0 ≤ elapsedMs c data := by
  unfold elapsedMs
  dsimp only
  split_ifs with h
  · exact le_rfl
  · exact not_lt.mp h

/-- What the refill may add. -/
def accrued (c : Call) (data : Option Bucket) : ℚ := elapsedMs c data * c.limit / 60000

theorem accrued_nonneg {c : Call} (hl : 0 ≤ c.limit) (data : Option Bucket) :
    0 ≤ accrued c data := by
  have h1 : (0 : ℚ) ≤ elapsedMs c data := by exact_mod_cast elapsedMs_nonneg c data
  have h2 : (0 : ℚ) ≤ c.limit := by exact_mod_cast hl
  unfold accrued
  positivity

theorem refill_nonneg {c : Call} (hl : 0 ≤ c.limit) (hb : 0 ≤ c.burst) {data : Option Bucket}
    (hd : ∀ b ∈ data, 0 ≤ b.tokens) : 0 ≤ refill c data := by
  have hburst : (0 : ℚ) ≤ c.burst := by exact_mod_cast hb
  have htokens : (0 : ℚ) ≤ data.elim (c.burst : ℚ) Bucket.tokens := by
    cases data with
    | none => exact hburst
    | some b => exact hd b rfl
  unfold refill
  dsimp only
  split_ifs
  · exact le_min hburst (add_nonneg htokens (accrued_nonneg hl data))
  · exact htokens

/-- A call never leaves a negative balance. -/
theorem call_tokens_nonneg {c : Call} (hl : 0 ≤ c.limit) (hb : 0 ≤ c.burst) {data : Option Bucket}
    (hd : ∀ b ∈ data, 0 ≤ b.tokens) : 0 ≤ (call c data).2.tokens := by
  have h := refill_nonneg hl hb hd
  rw [call_tokens, cost, call_allowed]
  split_ifs with h1
  · linarith [of_decide_eq_true h1]
  · linarith

theorem refill_le_accrued {c : Call} (hl : 0 ≤ c.limit) (data : Option Bucket) :
    refill c data ≤ data.elim (c.burst : ℚ) Bucket.tokens + accrued c data := by
  unfold refill
  dsimp only
  split_ifs
  · exact min_le_right _ _
  · exact le_add_of_nonneg_right (accrued_nonneg hl data)

theorem refill_le_burst {c : Call} (hl : 0 < c.limit) (data : Option Bucket) :
    refill c data ≤ c.burst := by
  unfold refill
  dsimp only
  rw [if_pos hl]
  exact min_le_left _ _

/-! ## Runs -/

variable (cs : ℕ → Call)

/-- What the key holds before call `n`. It is absent at first. -/
def run : ℕ → Option Bucket
  | 0 => none
  | n + 1 => some (call (cs n) (run n)).2

/-- Whether call `n` is allowed. -/
def allowed (n : ℕ) : Bool := (call (cs n) (run cs n)).1.allowed

/-- The running maximum of the clock. -/
def peak : ℕ → ℤ
  | 0 => (cs 0).nowMs
  | n + 1 => max (peak n) (cs (n + 1)).nowMs

/-- What call `n` may add to the bucket : the clock's advance past its running maximum at
the rate of the call. -/
def credit : ℕ → ℚ
  | 0 => 0
  | n + 1 => (max 0 ((cs (n + 1)).nowMs - peak cs n) : ℤ) * (cs (n + 1)).limit / 60000

/-- The potential : what the bucket holds before call `n`, a fresh bucket being full. -/
def level (n : ℕ) : ℚ := (run cs n).elim ((cs 0).burst : ℚ) Bucket.tokens

/-- The stored refill time is the running maximum of the clock. -/
theorem newRefillMs_eq_peak (n : ℕ) : newRefillMs (cs n) (run cs n) = peak cs n := by
  cases n with
  | zero => exact newRefillMs_none _
  | succ n =>
    have hlast : (call (cs n) (run cs n)).2.lastRefillMs = peak cs n :=
      (call_lastRefillMs _ _).trans (newRefillMs_eq_peak n)
    rw [run, newRefillMs_some, hlast, peak]

theorem accrued_eq_credit (n : ℕ) : accrued (cs n) (run cs n) = credit cs n := by
  cases n with
  | zero => simp [accrued, elapsedMs, run, credit]
  | succ n =>
    have hlast : (call (cs n) (run cs n)).2.lastRefillMs = peak cs n :=
      (call_lastRefillMs _ _).trans (newRefillMs_eq_peak cs n)
    have helapsed : elapsedMs (cs (n + 1)) (run cs (n + 1)) =
        max 0 ((cs (n + 1)).nowMs - peak cs n) := by
      rw [run, elapsedMs_some, hlast]
    rw [accrued, helapsed, credit]

/-- One call pays for itself out of the level and its credit. -/
theorem level_step {n : ℕ} (hl : 0 ≤ (cs n).limit) :
    level cs (n + 1) + cost (cs n) (run cs n) ≤ level cs n + credit cs n := by
  have hlevel : level cs (n + 1) = refill (cs n) (run cs n) - cost (cs n) (run cs n) :=
    call_tokens _ _
  have hburst : (run cs n).elim ((cs n).burst : ℚ) Bucket.tokens = level cs n := by
    cases n <;> rfl
  have hrefill := refill_le_accrued hl (run cs n)
  rw [accrued_eq_credit, hburst] at hrefill
  linarith

theorem level_nonneg (hl : ∀ n, 0 ≤ (cs n).limit) (hb : ∀ n, 0 ≤ (cs n).burst) (n : ℕ) :
    0 ≤ level cs n := by
  induction n with
  | zero =>
    show (0 : ℚ) ≤ (cs 0).burst
    exact_mod_cast hb 0
  | succ n ih =>
    refine call_tokens_nonneg (hl n) (hb n) fun b hb => ?_
    have : level cs n = b.tokens := by rw [level, Option.mem_def.mp hb, Option.elim_some]
    exact this ▸ ih

/-- How many calls from `m` on and before `n` are allowed. -/
def allowedCount (m n : ℕ) : ℕ := ((Ico m n).filter fun i => allowed cs i).card

theorem allowedCount_eq_sum (m n : ℕ) :
    (allowedCount cs m n : ℚ) = ∑ i ∈ Ico m n, cost (cs i) (run cs i) := by
  rw [allowedCount, card_filter, Nat.cast_sum]
  exact sum_congr rfl fun i _ => by rw [cost, allowed, Nat.cast_ite, Nat.cast_one, Nat.cast_zero]

theorem credit_succ (n : ℕ) :
    credit cs (n + 1) = (peak cs (n + 1) - peak cs n : ℤ) * (cs (n + 1)).limit / 60000 := by
  have hmax : max 0 ((cs (n + 1)).nowMs - peak cs n) = peak cs (n + 1) - peak cs n := by
    rw [peak]
    omega
  rw [credit, hmax]

/-- At a constant limit the credits of a segment are worth the growth of the peak. -/
theorem sum_credit {limit : ℤ} (hlimit : ∀ n, (cs n).limit = limit) {i j : ℕ} (hij : i ≤ j) :
    ∑ n ∈ Ico (i + 1) (j + 1), credit cs n =
      (limit : ℚ) * (peak cs j - peak cs i : ℤ) / 60000 := by
  induction j, hij using Nat.le_induction with
  | base => simp
  | succ j hij ih =>
    rw [sum_Ico_succ_top (by omega), ih, credit_succ, hlimit]
    push_cast
    ring

/-- The first allowed call of a segment is paid out of a bucket no fuller than `burst`. -/
theorem level_succ_le {limit burst : ℤ} (hl : 0 < limit) (hlimit : ∀ n, (cs n).limit = limit)
    (hburst : ∀ n, (cs n).burst = burst) (i : ℕ) :
    level cs (i + 1) + cost (cs i) (run cs i) ≤ burst := by
  have hlevel : level cs (i + 1) = refill (cs i) (run cs i) - cost (cs i) (run cs i) :=
    call_tokens _ _
  have hrefill := refill_le_burst ((hlimit i).symm ▸ hl : 0 < (cs i).limit) (run cs i)
  rw [hburst] at hrefill
  linarith

/-- The bound over any segment of a run at a constant policy. -/
theorem allowedCount_segment {limit burst : ℤ} (hl : 0 < limit) (hb : 0 ≤ burst)
    (hlimit : ∀ n, (cs n).limit = limit) (hburst : ∀ n, (cs n).burst = burst) {i j : ℕ}
    (hij : i ≤ j) :
    (allowedCount cs i (j + 1) : ℚ) ≤ burst + limit * (peak cs j - peak cs i : ℤ) / 60000 := by
  have hstep := @sum_le_of_step (level cs) _ _ _ _ (show i + 1 ≤ j + 1 by omega) fun n _ =>
    level_step cs ((hlimit n).symm ▸ hl.le : 0 ≤ (cs n).limit)
  have hfirst := level_succ_le cs hl hlimit hburst i
  have hend := level_nonneg cs (fun n => (hlimit n).symm ▸ hl.le)
    (fun n => (hburst n).symm ▸ hb) (j + 1)
  rw [sum_credit cs hlimit hij] at hstep
  rw [allowedCount_eq_sum, sum_eq_sum_Ico_succ_bot (by omega)]
  linarith

/-- **Token bucket bound.** In every run of calls on one key, at any limits, bursts and
clocks, the stored tokens stay non-negative, the refill time never decreases, and the
allowed calls are paid by the first burst and the credits. At a constant policy every
segment is bounded by the burst and the growth of the peak. -/
theorem run_bound (hl : ∀ n, 0 ≤ (cs n).limit) (hb : ∀ n, 0 ≤ (cs n).burst) :
    (∀ n, ∀ b ∈ run cs n, 0 ≤ b.tokens) ∧
    (∀ n, ∀ b ∈ run cs n, ∀ b' ∈ run cs (n + 1), b.lastRefillMs ≤ b'.lastRefillMs) ∧
    (∀ n, (allowedCount cs 0 n : ℚ) ≤ (cs 0).burst + ∑ i ∈ range n, credit cs i) ∧
    ∀ limit burst : ℤ, 0 < limit → (∀ n, (cs n).limit = limit) → (∀ n, (cs n).burst = burst) →
      ∀ i j, i ≤ j →
        (allowedCount cs i (j + 1) : ℚ) ≤ burst + limit * (peak cs j - peak cs i : ℤ) / 60000 := by
  refine ⟨fun n b hn => ?_, fun n b hn b' hn' => ?_, fun n => ?_, ?_⟩
  · have : level cs n = b.tokens := by rw [level, Option.mem_def.mp hn, Option.elim_some]
    exact this ▸ level_nonneg cs hl hb n
  · obtain rfl : (call (cs n) (run cs n)).2 = b' := Option.some.inj hn'
    rw [call_lastRefillMs, Option.mem_def.mp hn, newRefillMs_some]
    exact le_max_left _ _
  · have hstep := @sum_le_of_step (level cs) _ _ _ _ (Nat.zero_le n) fun i _ => level_step cs (hl i)
    have hend := level_nonneg cs hl hb n
    rw [← allowedCount_eq_sum, ← range_eq_Ico, show level cs 0 = (cs 0).burst from rfl] at hstep
    linarith
  · intro limit burst hlpos hlimit hburst i j hij
    exact allowedCount_segment cs hlpos (hburst 0 ▸ hb 0) hlimit hburst hij

/-- One call a second at one request a second. -/
theorem run_bound_everySecond :
    let cs : ℕ → Call := fun n => ⟨60, 1, 1000 * n⟩
    (allowedCount cs 0 4 : ℚ) ≤ 1 + ∑ i ∈ range 4, credit cs i ∧
    (allowedCount cs 1 (3 + 1) : ℚ) ≤ 1 + 60 * (peak cs 3 - peak cs 1 : ℤ) / 60000 := by
  have h := run_bound (fun n => ⟨60, 1, 1000 * n⟩) (fun _ => (by decide : (0 : ℤ) ≤ 60))
    (fun _ => (by decide : (0 : ℤ) ≤ 1))
  exact ⟨h.2.2.1 4, h.2.2.2 60 1 (by decide) (fun _ => rfl) (fun _ => rfl) 1 3 (by decide)⟩

end TokenBucket

end Gdrl
