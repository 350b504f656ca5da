import Gdrl.Forecasts

/-!
# The smoothed value behind a forecast

`HoltWintersPredictor` smooths only where it has no forecast. The observations of the
ticks that it takes a forecast in are missing from its smoothed value, while
`EWMAPredictor` smooths at every tick. When the forecasts run out, the two agree exactly
as long as the missing observations make no difference (`fallback_agrees_iff`).
-/

namespace Gdrl

open Predictor HoltWinters

namespace HoltWinters.Series

variable {p : Params}

/-- A tick without a forecast to take. -/
def fallsBack (m : Models p) (s : Series p) (x : ℚ) : Bool :=
  !decide (s.Full x) || (s.refreshed m x).isEmpty

theorem predicted_of_fallsBack {m : Models p} {s : Series p} {x : ℚ} (h : s.fallsBack m x = true) :
    s.predicted m x = smooth p.alpha s.ewma (s.history.append x).last ∧
      (s.update m x).2.ewma = s.predicted m x := by
  cases effect m s x with
  | short _ hpred _ hewma => exact ⟨hpred, hewma⟩
  | cached v cache hfull hr => simp [fallsBack, hfull, hr] at h
  | empty _ _ hpred _ hewma => exact ⟨hpred, hewma⟩

/-- A forecast taken leaves the smoothed value. -/
theorem ewma_of_not_fallsBack {m : Models p} {s : Series p} {x : ℚ}
    (h : s.fallsBack m x = false) : (s.update m x).2.ewma = s.ewma := by
  cases effect m s x with
  | short hfull => simp [fallsBack, hfull] at h
  | cached v cache _ _ _ _ hewma => exact hewma
  | empty hfull hr => simp [fallsBack, hr] at h

end HoltWinters.Series

namespace HoltWintersPredictor

variable {p : Params}

/-- Both predictors start from the same smoothed value. -/
theorem warmed_ewma (hs : List Warmth) (r : Region) (t : Tier) :
    (warmed (p := p) hs r t).ewma =
      hs.foldl (EWMAPredictor.warmUp p.alpha) EWMAPredictor.new r t := by
  let R : HoltWintersPredictor p → EWMAPredictor → Prop := fun s e => ∀ r t, (s r t).ewma = e r t
  have hitem : ∀ i s e, R s e → R (warmItem s i) (EWMAPredictor.warmItem p.alpha e i) := by
    intro i s e h r t
    unfold warmItem EWMAPredictor.warmItem Series.warm setSeries
    cases seriesOf i.1 with
    | none => exact h r t
    | some k =>
      cases seed p.alpha i.2 with
      | none =>
        dsimp only
        split_ifs with hk
        · obtain ⟨rfl, rfl⟩ := hk
          exact h _ _
        · exact h r t
      | some ewma =>
        dsimp only
        split_ifs
        · rfl
        · exact h r t
  suffices h : R (warmed hs) (hs.foldl (EWMAPredictor.warmUp p.alpha) EWMAPredictor.new) from h r t
  refine List.foldl_rel (fun _ _ => rfl) fun w _ s e h => ?_
  exact List.foldl_rel h fun i _ s e h => hitem i s e h

section

variable (hs : List Warmth) (us : ℕ → Tick p) (r : Region) (t : Tier)

/-- The observation of tick `n`. -/
def observed (n : ℕ) : ℚ := current (us n).features r t

/-- Tick `n` falls back to smoothing. -/
def fallsBack (n : ℕ) : Bool :=
  (before hs us n r t).fallsBack ((us n).models r t) (observed us r t n)

/-- The forecast of tick `n` before it is rounded. -/
def forecast (n : ℕ) : ℚ :=
  (before hs us n r t).predicted ((us n).models r t) (observed us r t n)

/-- The observations since the last EWMA step before tick `n`. A forecast was taken in
their ticks. -/
def skipped : ℕ → List ℚ
  | 0 => []
  | n + 1 => if fallsBack hs us r t n then [] else skipped n ++ [observed us r t n]

/-- The smoothed value of `EWMAPredictor` before tick `n`. -/
def plain (n : ℕ) : ℚ := EWMAPredictor.before p.alpha hs (fun n => (us n).features) n r t

/-- The skipped observations make no difference to the EWMA step of tick `n`. -/
def SkipsNothing (n : ℕ) : Prop :=
  let s := before hs us n r t
  let x := observed us r t n
  smooth p.alpha s.ewma (s.history.append x).last =
    smooth p.alpha ((skipped hs us r t n).foldl (smooth p.alpha) s.ewma) x

/-- The forecasts agree wherever there was a fallback before tick `n`. -/
def AgreesBefore (n : ℕ) : Prop :=
  ∀ m < n, fallsBack hs us r t m = true →
    forecast hs us r t m =
      EWMAPredictor.predicted p.alpha (EWMAPredictor.before p.alpha hs (fun n => (us n).features) m)
        (us m).features r t

/-- As long as they agree, the plain value is the other one with the skipped observations
smoothed into it. -/
theorem plain_eq {n : ℕ} (h : AgreesBefore hs us r t n) :
    plain hs us r t n =
      (skipped hs us r t n).foldl (smooth p.alpha) (before hs us n r t).ewma := by
  induction n with
  | zero => exact (warmed_ewma hs r t).symm
  | succ n ih =>
    have hplain : plain hs us r t (n + 1) =
        smooth p.alpha (plain hs us r t n) (observed us r t n) := rfl
    rw [skipped]
    cases hback : fallsBack hs us r t n with
    | true =>
      rw [if_pos rfl, List.foldl_nil, hplain]
      have hagree := h n (Nat.lt_succ_self n) hback
      exact hagree.symm.trans (Series.predicted_of_fallsBack hback).2.symm
    | false =>
      rw [if_neg Bool.false_ne_true, List.foldl_concat, hplain,
        ih fun m hm => h m (Nat.lt_succ_of_lt hm)]
      exact congrArg (fun e => smooth p.alpha (List.foldl (smooth p.alpha) e _) _)
        (Series.ewma_of_not_fallsBack hback).symm

/-- **The fallback.** For every warm-up, all observations and every pattern of fits, the two
predictors have the same forecast at all ticks that fall back, up to any tick, if and only if
at all of these the skipped observations make no difference. -/
theorem fallback_agrees_iff (n : ℕ) :
    AgreesBefore hs us r t n ↔
      ∀ m < n, fallsBack hs us r t m = true → SkipsNothing hs us r t m := by
  induction n with
  | zero =>
    exact iff_of_true (fun m hm => absurd hm m.not_lt_zero) fun m hm => absurd hm m.not_lt_zero
  | succ n ih =>
    unfold AgreesBefore at ih ⊢
    rw [Nat.forall_lt_succ_right, Nat.forall_lt_succ_right, ← ih]
    refine and_congr_right fun hagree => imp_congr_right fun hback => ?_
    rw [SkipsNothing, ← plain_eq hs us r t hagree]
    exact Eq.congr_left (Series.predicted_of_fallsBack hback).1

end

/-- A calm half hour of warm-up, in steps of half a minute. -/
def calmWarmth : Warmth := ⟨[(str "us/free", List.replicate 60 10)], List.nodup_singleton _⟩

/-- Five ticks of a burst, for which the fit has forecasts, and the calm behind it, where the
next fit raises. -/
def burstTicks (n : ℕ) : Tick .default :=
  ⟨fun _ _ => some (if n < 5 then 100 else 10),
    fun _ _ => ⟨fun _ => if n = 0 then some ⟨List.replicate 5 10, rfl⟩ else none,
      fun _ _ => false⟩⟩

/-- The burst is missing from the fallback. -/
theorem not_agrees : fallsBack [calmWarmth] burstTicks .us .free 5 = true ∧
    forecast [calmWarmth] burstTicks .us .free 5 = 10 ∧
    plain [calmWarmth] burstTicks .us .free 6 = 6241159 / 100000 ∧
    ¬ AgreesBefore [calmWarmth] burstTicks .us .free 6 := by
  have hback : fallsBack [calmWarmth] burstTicks .us .free 5 = true := by decide +kernel
  have hforecast : forecast [calmWarmth] burstTicks .us .free 5 = 10 := by decide +kernel
  have hplain : plain [calmWarmth] burstTicks .us .free 6 = 6241159 / 100000 := by
    decide +kernel
  refine ⟨hback, hforecast, hplain, fun h => ?_⟩
  have hagree : _ = plain [calmWarmth] burstTicks .us .free 6 := h 5 (by decide) hback
  rw [hforecast, hplain] at hagree
  exact absurd hagree (by decide +kernel)

end HoltWintersPredictor

end Gdrl
