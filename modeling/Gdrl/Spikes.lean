import Gdrl.Forecasts
import Mathlib.Tactic.Linarith
import Mathlib.Tactic.Ring

/-!
# Spikes

A rate is a spike if it is more than twice the forecast for its tick, which is the value
that `EWMAPredictor` holds from the tick before. `update` compares the rate with twice the
new value, into which it has just folded the rate. What it flags is a spike, but it flags
no spike from `alpha = 1 / 2` on, and below only those that are high enough (`spike_iff`).
-/

namespace Gdrl

namespace Predictor

/-- The key of a series. -/
def seriesKey (r : Region) (t : Tier) : Str := r.name ++ 47 :: t.name

theorem seriesOf_seriesKey (r : Region) (t : Tier) : seriesOf (seriesKey r t) = some (r, t) := by
  cases r <;> cases t <;> decide

theorem eq_seriesKey_of_seriesOf {key : Str} {r : Region} {t : Tier}
    (h : seriesOf key = some (r, t)) : key = seriesKey r t := by
  have hspan : (key.span (· ≠ 47)).1 ++ (key.span (· ≠ 47)).2 = key := by
    rw [List.span_eq_takeWhile_dropWhile, List.takeWhile_append_dropWhile]
  have hslash : ∀ c ∈ (key.span (· ≠ 47)).2.head?, c = 47 := by
    rw [List.span_eq_takeWhile_dropWhile]
    intro c hc
    have := List.head?_dropWhile_not (· ≠ 47) key
    rw [Option.mem_def.mp hc] at this
    simpa using this
  unfold seriesOf at h
  split at h
  · cases h
  · rename_i region c tier hs
    rw [hs] at hspan hslash
    obtain rfl : c = 47 := hslash c rfl
    split at h
    · rename_i r' t' hr ht
      obtain ⟨rfl, rfl⟩ := Prod.mk.inj (Option.some.inj h)
      have ht : t'.name = tier := by simpa using List.find?_some ht
      rw [seriesKey, Region.name_of_ofName hr, ht]
      exact hspan.symm
    · cases h

theorem seriesOf_eq_some {key : Str} {r : Region} {t : Tier} :
    seriesOf key = some (r, t) ↔ key = seriesKey r t :=
  ⟨eq_seriesKey_of_seriesOf, fun h => h ▸ seriesOf_seriesKey r t⟩

section Positive

variable {alpha : ℚ} (h0 : 0 < alpha) (h1 : alpha < 1)

include h0 h1

theorem average_pos {prev x : ℚ} (hprev : 0 < prev) (hx : 0 < x) :
    0 < alpha * x + (1 - alpha) * prev :=
  add_pos (mul_pos h0 hx) (mul_pos (sub_pos.mpr h1) hprev)

theorem smooth_pos {prev x : ℚ} (hprev : 0 < prev) (hx : 0 < x) : 0 < smooth alpha prev x := by
  rw [smooth, if_pos hprev]
  exact average_pos h0 h1 hprev hx

/-- A series of positive values smooths to a positive one. -/
theorem seed_pos {series : List ℚ} (hne : series ≠ []) (hpos : ∀ x ∈ series, 0 < x) :
    ∃ ewma, seed alpha series = some ewma ∧ 0 < ewma := by
  obtain ⟨x, xs, rfl⟩ := List.exists_cons_of_ne_nil hne
  refine ⟨_, rfl, ?_⟩
  rw [List.forall_mem_cons] at hpos
  exact List.foldlRecOn xs _ hpos.1 fun ewma hewma val hval =>
    average_pos h0 h1 hewma (hpos.2 val hval)

end Positive

end Predictor

open Predictor

namespace EWMAPredictor

theorem warmItem_apply (alpha : ℚ) (s : EWMAPredictor) (e : Str × List ℚ) (r : Region) (t : Tier) :
    warmItem alpha s e r t =
      if e.1 = seriesKey r t then (seed alpha e.2).getD (s r t) else s r t := by
  unfold warmItem
  cases hkey : seriesOf e.1 with
  | none =>
    have hne : e.1 ≠ seriesKey r t := by
      intro h
      rw [seriesOf_eq_some.mpr h] at hkey
      cases hkey
    rw [if_neg hne]
  | some k =>
    obtain ⟨r', t'⟩ := k
    have hsame : e.1 = seriesKey r t ↔ r = r' ∧ t = t' := by
      rw [← seriesOf_eq_some, hkey, Option.some.injEq, Prod.mk.injEq, eq_comm, @eq_comm _ t']
    cases seed alpha e.2 with
    | none => exact (ite_self _).symm
    | some ewma => exact if_congr hsame.symm rfl rfl

/-- What a warm-up makes of one region and tier. -/
theorem warmUp_apply (alpha : ℚ) (s : EWMAPredictor) (history : Warmth) (r : Region) (t : Tier) :
    warmUp alpha s history r t =
      ((history.get? (seriesKey r t)).bind (seed alpha)).getD (s r t) := by
  obtain ⟨l, hl⟩ := history
  rw [warmUp, Dict.get?]
  dsimp only
  induction l generalizing s with
  | nil => rfl
  | cons e l ih =>
    obtain ⟨key, series⟩ := e
    rw [List.map_cons, List.nodup_cons] at hl
    rw [List.foldl_cons, ih _ hl.2, warmItem_apply, Dict.lookup_cons_eq]
    by_cases hkey : key = seriesKey r t
    · -- the key does not come again
      rw [Dict.lookup_of_notMem (hkey ▸ hl.1), if_pos hkey, if_pos hkey.symm]
      rfl
    · rw [if_neg hkey, if_neg (Ne.symm hkey)]

section Spikes

variable {alpha : ℚ} (h0 : 0 < alpha) (h1 : alpha < 1) {history : Warmth} {r : Region} {t : Tier}
  {series : List ℚ} (hseries : history.get? (seriesKey r t) = some series) (hne : series ≠ [])
  (hpos : ∀ x ∈ series, 0 < x) {fs : ℕ → Observed} (hfs : ∀ n, 0 < current (fs n) r t)

include h0 h1 hseries hne hpos hfs

/-- Behind the warm-up every value held is positive. -/
theorem before_pos (n : ℕ) : 0 < before alpha [history] fs n r t := by
  induction n with
  | zero =>
    obtain ⟨ewma, hseed, hewma⟩ := seed_pos h0 h1 hne hpos
    show 0 < warmUp alpha new history r t
    rw [warmUp_apply, hseries, Option.bind_some, hseed]
    exact hewma
  | succ n ih => exact smooth_pos h0 h1 ih (hfs n)

/-- What the flag of a tick tests. -/
theorem isSpike_iff (n : ℕ) :
    ((update alpha (before alpha [history] fs n) (fs n)).1 r t).isSpike = true ↔
      2 * (1 - alpha) * before alpha [history] fs n r t <
        (1 - 2 * alpha) * current (fs n) r t := by
  have hheld := before_pos h0 h1 hseries hne hpos hfs n
  have hnew := smooth_pos h0 h1 hheld (hfs n)
  have hflag : ((update alpha (before alpha [history] fs n) (fs n)).1 r t).isSpike = true ↔
      2 * predicted alpha (before alpha [history] fs n) (fs n) r t < current (fs n) r t := by
    simp only [update, decide_eq_true_eq, and_iff_right_iff_imp]
    exact fun _ => hnew
  rw [hflag, predicted, smooth, if_pos hheld]
  constructor
  · intro h
    linarith
  · intro h
    linarith

end Spikes

/-- **The spike flag.** Behind a warm-up with positive rates, `update` flags exactly the
rates above twice the value held, unless the rate of the tick is above it but not so far
that it is above twice the new value as well. -/
theorem spike_iff {alpha : ℚ} (h0 : 0 < alpha) (h1 : alpha < 1) {history : Warmth} {r : Region}
    {t : Tier} {series : List ℚ} (hseries : history.get? (seriesKey r t) = some series)
    (hne : series ≠ []) (hpos : ∀ x ∈ series, 0 < x) {fs : ℕ → Observed}
    (hfs : ∀ n, 0 < current (fs n) r t) (n : ℕ) :
    let held := before alpha [history] fs n r t
    let x := current (fs n) r t
    (((update alpha (before alpha [history] fs n) (fs n)).1 r t).isSpike = true ↔ 2 * held < x) ↔
      x ≤ 2 * held ∨ 2 * (1 - alpha) * held < (1 - 2 * alpha) * x := by
  intro held x
  have hx : 0 < x := hfs n
  rw [isSpike_iff h0 h1 hseries hne hpos hfs n]
  -- a flag is always a spike
  have hspike : 2 * (1 - alpha) * held < (1 - 2 * alpha) * x → 2 * held < x := by
    intro h
    have : (1 - alpha) * (2 * held) < (1 - alpha) * x := by
      linarith [mul_pos h0 hx]
    exact lt_of_mul_lt_mul_left this (sub_pos.mpr h1).le
  constructor
  · intro h
    by_cases hle : x ≤ 2 * held
    · exact Or.inl hle
    · exact Or.inr (h.mpr (not_le.mp hle))
  · rintro (hle | h)
    · exact ⟨hspike, fun hlt => absurd hlt (not_lt.mpr hle)⟩
    · exact ⟨hspike, fun _ => h⟩

/-- A warm-up with one value. -/
def tenWarmth : Warmth := ⟨[(str "us/free", [10])], List.nodup_singleton _⟩

/-- A rate far above twice the value held. -/
theorem spike_iff_sample :
    let held := before (3 / 10) [tenWarmth] (fun _ _ _ => some 100) 0 .us .free
    held = 10 ∧
    ((((update (3 / 10) (before (3 / 10) [tenWarmth] (fun _ _ _ => some 100) 0)
        fun _ _ => some 100).1 .us .free).isSpike = true ↔ 2 * held < 100) ↔
      100 ≤ 2 * held ∨ 2 * (1 - 3 / 10) * held < (1 - 2 * (3 / 10)) * 100) :=
  ⟨by decide +kernel, spike_iff (by norm_num) (by norm_num)
    (show tenWarmth.get? (seriesKey .us .free) = some [10] by decide) (by simp) (by simp)
    (fun _ => by norm_num [current]) 0⟩

/-- After a warm-up at 10, a rate of 25 is more than twice the value held and no spike. -/
theorem not_spike :
    let held := before (3 / 10) [tenWarmth] (fun _ _ _ => some 25) 0 .us .free
    held = 10 ∧ 2 * held < 25 ∧
    ((update (3 / 10) (before (3 / 10) [tenWarmth] (fun _ _ _ => some 25) 0)
      fun _ _ => some 25).1 .us .free).isSpike = false := by
  decide +kernel

end EWMAPredictor

end Gdrl
