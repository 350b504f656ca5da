import Gdrl.Anomaly
import Mathlib.Algebra.Order.Archimedean.Basic
import Mathlib.Data.Nat.Nth

/-!
# Forecasts behind an overload

When the rates of a series have come down to `c`, its forecasts need not come down with
them. Forecasts made before are still queued, and the smoothed value comes down only at the
ticks that smooth, which may be hours apart. A series owes its high forecasts (`Owes`) :
one for each queued one, and one for each smoothing step until the smoothed value is below
`d`. No tick adds to that, and so all but a bounded number of forecasts are below `d`
(`forecasts_cool_down`).
-/

namespace Gdrl

/-! ## Budgets -/

section Budgets

variable {p : ℕ → Prop} [DecidablePred p]

/-- A budget bounds how often something happens, with no bound on when : `B n k` says that it
happens at most `k` times from step `n` on. -/
theorem count_le_of_budget {B : ℕ → ℕ → Prop}
    (hstep : ∀ n k, B n k → (¬ p n ∧ B (n + 1) k) ∨ ∃ j, k = j + 1 ∧ B (n + 1) j) {k : ℕ}
    (h : B 0 k) (n : ℕ) : Nat.count p n ≤ k := by
  suffices hleft : ∃ j, Nat.count p n + j ≤ k ∧ B n j from by
    obtain ⟨j, hj, -⟩ := hleft
    omega
  induction n with
  | zero => exact ⟨k, by rw [Nat.count_zero, Nat.zero_add], h⟩
  | succ n ih =>
    obtain ⟨j, hj, hB⟩ := ih
    rw [Nat.count_succ]
    rcases hstep n j hB with ⟨hnot, hB'⟩ | ⟨i, rfl, hB'⟩
    · exact ⟨j, by rwa [if_neg hnot], hB'⟩
    · refine ⟨i, ?_, hB'⟩
      split_ifs <;> omega

/-- What has a bounded count has a last time. -/
theorem exists_last_of_count_le {k : ℕ} (h : ∀ n, Nat.count p n ≤ k) :
    ∃ N, ∀ n, N ≤ n → ¬ p n := by
  by_contra hnot
  push Not at hnot
  have hinf : (Set.ofPred p).Infinite := Set.infinite_of_forall_exists_gt fun N => by
    obtain ⟨n, hn, hp⟩ := hnot (N + 1)
    exact ⟨n, hp, hn⟩
  have hcount := h (Nat.nth p (k + 1))
  rw [Nat.count_nth_of_infinite hinf] at hcount
  omega

end Budgets

open Predictor HoltWinters

/-! ## Smoothing -/

namespace Predictor

/-- One smoothing step of a value that may stay at or above `d` for `j` more of them. -/
theorem smooth_cools {alpha c d prev x : ℚ} (h0 : 0 ≤ alpha) (h1 : alpha ≤ 1) (hcd : c < d)
    (hx : x ≤ c) {j : ℕ} (h : (1 - alpha) ^ j * (prev - c) < d - c) :
    (smooth alpha prev x < d ∧ (1 - alpha) ^ j * (smooth alpha prev x - c) < d - c) ∨
      ∃ i, j = i + 1 ∧ (1 - alpha) ^ i * (smooth alpha prev x - c) < d - c := by
  have h1' : 0 ≤ 1 - alpha := sub_nonneg.mpr h1
  rcases le_or_gt (smooth alpha prev x) c with hle | hgt
  · have hneg : (1 - alpha) ^ j * (smooth alpha prev x - c) ≤ 0 :=
      mul_nonpos_of_nonneg_of_nonpos (pow_nonneg h1' j) (sub_nonpos.mpr hle)
    exact Or.inl ⟨hle.trans_lt hcd, by linarith⟩
  · -- a value above `c` is smoothed from one that is further above
    have hstep : smooth alpha prev x - c ≤ (1 - alpha) * (prev - c) := by
      unfold smooth at hgt ⊢
      split_ifs at hgt ⊢ with hprev
      · have hax := mul_le_mul_of_nonneg_left hx h0
        linarith
      · exact absurd hx (not_le.mpr hgt)
    cases j with
    | zero =>
      have hle : (1 - alpha) * (prev - c) ≤ prev - c := by
        have hpos : 0 ≤ prev - c := by
          by_contra hneg
          have := mul_nonpos_of_nonneg_of_nonpos h1' (not_le.mp hneg).le
          linarith
        have := mul_le_mul_of_nonneg_right (sub_le_self 1 h0) hpos
        linarith
      rw [pow_zero, one_mul] at h ⊢
      exact Or.inl ⟨by linarith, by linarith⟩
    | succ i =>
      refine Or.inr ⟨i, rfl, ?_⟩
      calc (1 - alpha) ^ i * (smooth alpha prev x - c)
          ≤ (1 - alpha) ^ i * ((1 - alpha) * (prev - c)) :=
            mul_le_mul_of_nonneg_left hstep (pow_nonneg h1' i)
        _ = (1 - alpha) ^ (i + 1) * (prev - c) := by rw [pow_succ, mul_assoc]
        _ < d - c := h

end Predictor

namespace HoltWinters.Series

variable {p : Params} {c d : ℚ} {s : Series p}

/-- At most `k` forecasts of `d` or more are to come while rates and fits stay within `c`. -/
def Owes (c d : ℚ) (k : ℕ) (s : Series p) : Prop :=
  ∃ j, s.hwCache.countP (c < ·) + j ≤ k ∧ (1 - p.alpha) ^ j * (s.ewma - c) < d - c

/-- A fit within `c` clears the queue of what is above. -/
theorem countP_refreshed_le {m : Models p} {x : ℚ} (hc : 0 ≤ c)
    (hfit : ∀ fs, s.fitted m x = some fs → ∀ v ∈ fs.val, v ≤ c) :
    (s.refreshed m x).countP (c < ·) ≤ s.hwCache.countP (c < ·) := by
  unfold refreshed
  cases hf : s.fitted m x with
  | none => exact le_rfl
  | some fs =>
    have hzero : (fs.val.map (max 0)).countP (c < ·) = 0 := by
      rw [List.countP_eq_zero]
      intro v hv
      obtain ⟨w, hw, rfl⟩ := List.mem_map.mp hv
      simpa using ⟨hc, hfit fs hf w hw⟩
    rw [hzero]
    exact Nat.zero_le _

theorem last_append_le {n : ℕ} (h : History n) {x : ℚ} (hc : 0 ≤ c) (hx : x ≤ c) :
    (h.append x).last ≤ c := by
  rcases Nat.eq_zero_or_pos n with rfl | hn
  · have hnil : (h.append x).val = [] := List.length_eq_zero_iff.mp (Nat.le_zero.mp (h.append x).2)
    rw [History.last, hnil]
    exact hc
  · rwa [History.last_append hn]

/-- A tick forecasts less than `d` and owes no more, or it owes one less. -/
theorem Owes.update (h0 : 0 ≤ p.alpha) (h1 : p.alpha ≤ 1) (hc : 0 ≤ c) (hcd : c < d) {k : ℕ}
    (h : s.Owes c d k) {m : Models p} {x : ℚ} (hx : x ≤ c)
    (hfit : ∀ fs, s.fitted m x = some fs → ∀ v ∈ fs.val, v ≤ c) :
    (s.predicted m x < d ∧ (s.update m x).2.Owes c d k) ∨
      ∃ i, k = i + 1 ∧ (s.update m x).2.Owes c d i := by
  obtain ⟨j, hj, hewma⟩ := h
  have hsmooth := smooth_cools h0 h1 hcd (last_append_le s.history hc hx) hewma
  have hqueue := countP_refreshed_le hc hfit
  cases s.effect m x with
  | short _ hpred hsame hnew =>
    rw [← hpred] at hsmooth
    unfold Owes
    rw [hsame, hnew]
    rcases hsmooth with ⟨hlt, hnext⟩ | ⟨i, rfl, hnext⟩
    · exact Or.inl ⟨hlt, j, hj, hnext⟩
    · exact Or.inr ⟨k - 1, by omega, i, by omega, hnext⟩
  | cached v cache _ hr hpred hrest hnew =>
    unfold Owes
    rw [hpred, hrest, hnew]
    rw [hr, List.countP_cons] at hqueue
    by_cases hv : c < v
    · rw [if_pos (by simpa using hv)] at hqueue
      exact Or.inr ⟨k - 1, by omega, j, by omega, hewma⟩
    · exact Or.inl ⟨(not_lt.mp hv).trans_lt hcd, j, by omega, hewma⟩
  | empty _ _ hpred hnil hnew =>
    rw [← hpred] at hsmooth
    unfold Owes
    rw [hnil, hnew, List.countP_nil]
    rcases hsmooth with ⟨hlt, hnext⟩ | ⟨i, rfl, hnext⟩
    · exact Or.inl ⟨hlt, j, by omega, hnext⟩
    · exact Or.inr ⟨k - 1, by omega, i, by omega, hnext⟩

/-- The queue is finite, and smoothing comes as near to `c` as needed. -/
theorem exists_owes (h0 : 0 < p.alpha) (hcd : c < d) (s : Series p) :
    ∃ k, s.Owes c d k := by
  have hdc : 0 < d - c := sub_pos.mpr hcd
  suffices hj : ∃ j, (1 - p.alpha) ^ j * (s.ewma - c) < d - c from by
    obtain ⟨j, hj⟩ := hj
    exact ⟨_, j, le_rfl, hj⟩
  rcases le_or_gt (s.ewma - c) 0 with hle | hgt
  · exact ⟨0, by rw [pow_zero, one_mul]; exact hle.trans_lt hdc⟩
  · obtain ⟨j, hj⟩ := exists_pow_lt_of_lt_one (div_pos hdc hgt) (sub_lt_self 1 h0)
    exact ⟨j, (lt_div_iff₀ hgt).mp hj⟩

end HoltWinters.Series

namespace HoltWintersPredictor

variable {p : Params} {hs : List Warmth} {us : ℕ → Tick p} {r : Region} {t : Tier} {c d : ℚ}
  {m : ℕ}

/-- From tick `m` on neither the rates of a series nor its fits exceed `c`. -/
structure Calm (hs : List Warmth) (us : ℕ → Tick p) (r : Region) (t : Tier) (c : ℚ) (m : ℕ) :
    Prop where
  rates : ∀ n, m ≤ n → observed us r t n ≤ c
  fits : ∀ n, m ≤ n → ∀ fs, fits hs us r t n = some fs → ∀ v ∈ fs.val, v ≤ c

theorem count_forecasts_le (h0 : 0 ≤ p.alpha) (h1 : p.alpha ≤ 1) (hc : 0 ≤ c) (hcd : c < d)
    (hcalm : Calm hs us r t c m) {k : ℕ} (h : (before hs us m r t).Owes c d k) (n : ℕ) :
    Nat.count (fun i => d ≤ forecast hs us r t (m + i)) n ≤ k := by
  refine count_le_of_budget (B := fun i k => (before hs us (m + i) r t).Owes c d k) ?_ h n
  intro i k hi
  have hm : m ≤ m + i := Nat.le_add_right m i
  have hstep := hi.update h0 h1 hc hcd (hcalm.rates _ hm) (hcalm.fits _ hm)
  rwa [← not_le] at hstep

/-- With a smoothing factor that is not zero, from some tick on all forecasts are below `d`. -/
theorem exists_cool (h0 : 0 < p.alpha) (h1 : p.alpha ≤ 1) (hc : 0 ≤ c) (hcd : c < d)
    (hcalm : Calm hs us r t c m) : ∃ N, ∀ n, N ≤ n → forecast hs us r t n < d := by
  obtain ⟨k, hk⟩ := Series.exists_owes h0 hcd (before hs us m r t)
  obtain ⟨N, hN⟩ := exists_last_of_count_le (count_forecasts_le h0.le h1 hc hcd hcalm hk)
  refine ⟨m + N, fun n hn => ?_⟩
  obtain ⟨i, rfl⟩ := Nat.exists_eq_add_of_le ((Nat.le_add_right m N).trans hn)
  exact not_le.mp (hN i (Nat.le_of_add_le_add_left hn))

/-- A region behind an overload. -/
def overloadWarmth : Warmth := ⟨[(str "us/free", [80, 80])], List.nodup_singleton _⟩

def overloadForecasts : Forecasts sampleParams := ⟨[80, 80, 80, 80, 80], rfl⟩

/-- The overload ends with tick 0, whose fit expects more of it. No later fit succeeds. -/
def overloadTicks (n : ℕ) : Tick sampleParams :=
  ⟨fun _ _ => some (if n = 0 then 80 else 10),
    fun _ _ => ⟨fun _ => if n = 0 then some overloadForecasts else none, fun _ _ => false⟩⟩

theorem calm_overloadTicks (hs : List Warmth) (r : Region) (t : Tier) :
    Calm hs overloadTicks r t 10 1 where
  rates n hn := by
    have hne : n ≠ 0 := by omega
    exact (if_neg hne).le
  fits n hn fs hfit := by
    have hne : n ≠ 0 := by omega
    unfold HoltWintersPredictor.fits Series.fitted at hfit
    split_ifs at hfit
    exact absurd ((if_neg hne).symm.trans hfit) (by simp)

end HoltWintersPredictor

end Gdrl
