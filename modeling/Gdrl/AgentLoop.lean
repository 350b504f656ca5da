import Gdrl.Cooling
import Gdrl.Throttle

/-!
# The agent's loop

Each tick of `agent_loop` hands what the predictor makes of the features to the decider.
The features and the top users of a tick, what the libraries answer, and the time are its
inputs.

Without load there is no throttle : a region whose rates and fits stay within 60 % of its
capacity, or 80 % if no rate is flagged, never gets a policy (`never_throttles`). And an
overload has an end : when the rates and the fits have come down to where they round to
less than half the capacity, the decider sooner or later restores the region and leaves
it alone, and its gateway goes back to its static policy (`settles`).
-/

namespace Gdrl

open Predictor HoltWinters

theorem Loop.Synced.get_eq_none {a : Agent} {r : Region} (h : Synced (a.view r)) {t : ℚ}
    (ht : (a.state r).writtenAt + 300 ≤ t) : (a.redis r).get t (Store.redisKey r .free) = none := by
  rcases h.written with ⟨-, hnone⟩ | ⟨raw, hentry, -⟩
  · change a.redis r (Store.redisKey r .free) = none at hnone
    rw [Strings.get, hnone]
    rfl
  · exact (Strings.get_eq hentry t).trans (if_neg (not_lt.mpr ht))

/-! ## Rounded forecasts -/

namespace Predictor

theorem den_mul_natAbs {x : ℚ} (hx : 0 ≤ x) : (x.num.natAbs : ℚ) = x * x.den := by
  rw [Rat.mul_den_eq_num, Nat.cast_natAbs, abs_of_nonneg (Rat.num_nonneg.mpr hx)]

/-- `round` does not pass a number of two digits. -/
theorem round2_le {x : ℚ} {m : ℕ} (h : x ≤ m / 100) : round2 x ≤ m / 100 := by
  unfold round2
  split_ifs with hx
  · have := Nat.cast_nonneg (α := ℚ) (roundHalfEven (x.num.natAbs * 100) x.den)
    have := Nat.cast_nonneg (α := ℚ) m
    linarith
  · have hnum : x.num.natAbs * 100 ≤ m * x.den := by
      have hden : (0 : ℚ) < x.den := Nat.cast_pos.mpr x.pos
      have hle := mul_le_mul_of_nonneg_right h hden.le
      rw [← den_mul_natAbs (not_lt.mp hx)] at hle
      rw [← Nat.cast_le (α := ℚ)]
      push_cast
      linarith
    have hround := Nat.cast_le (α := ℚ).mpr (roundHalfEven_le x.pos hnum)
    linarith

/-- What is nearer to the number before does not round to a number of two digits. -/
theorem round2_lt {x : ℚ} {m : ℕ} (hm : 0 < m) (h : x < (2 * m - 1) / 200) :
    round2 x < m / 100 := by
  have hpos : (0 : ℚ) < m := Nat.cast_pos.mpr hm
  unfold round2
  split_ifs with hx
  · have := Nat.cast_nonneg (α := ℚ) (roundHalfEven (x.num.natAbs * 100) x.den)
    linarith
  · have hnum : 2 * (x.num.natAbs * 100) + x.den < 2 * m * x.den := by
      have hden : (0 : ℚ) < x.den := Nat.cast_pos.mpr x.pos
      have hlt := mul_lt_mul_of_pos_right h hden
      rw [← den_mul_natAbs (not_lt.mp hx)] at hlt
      rw [← Nat.cast_lt (α := ℚ)]
      push_cast
      linarith
    have hround := Nat.cast_lt (α := ℚ).mpr (roundHalfEven_lt hnum)
    linarith

end Predictor

/-! ## The loop -/

namespace AgentLoop

/-- What a tick is given. -/
structure Input (p : Params) where
  tick : HoltWinters.Tick p
  topUsers : Region → List (Tier × Str × ℚ)
  now : ℚ

end AgentLoop

/-- The agent between two ticks. -/
structure AgentLoop (p : Params) where
  predictor : HoltWintersPredictor p
  decider : Agent

namespace AgentLoop

variable {p : Params}

/-- Before the first tick. -/
def start (history : Warmth) (t₀ : ℚ) : AgentLoop p :=
  ⟨HoltWintersPredictor.new.warmUp history, .new t₀⟩

/-- A prediction as the decider takes it. `text` prints with one decimal. -/
def forDecider (text : ℚ → Str) (pred : Predictor.Prediction) : Prediction :=
  ⟨some pred.rps, text pred.rps, pred.anomaly⟩

variable (W : Writer) (text : ℚ → Str)

/-- One tick of `agent_loop`. -/
def step (s : AgentLoop p) (x : Input p) : AgentLoop p :=
  let (predictions, predictor) := s.predictor.update x.tick
  ⟨predictor, s.decider.decide W (fun r => some (forDecider text (predictions r .free))) x.topUsers
    x.now⟩

variable (history : Warmth) (t₀ : ℚ) (xs : ℕ → Input p)

/-- `agent_loop` before tick `n`. -/
def run : ℕ → AgentLoop p
  | 0 => start history t₀
  | n + 1 => (run n).step W text (xs n)

/-- The ticks as the predictor takes them. -/
abbrev ticks : ℕ → HoltWinters.Tick p := fun n => (xs n).tick

theorem run_predictor (n : ℕ) :
    (run W text history t₀ xs n).predictor =
      HoltWintersPredictor.before [history] (ticks xs) n := by
  induction n with
  | zero => rfl
  | succ n ih =>
    show ((run W text history t₀ xs n).predictor.update (xs n).tick).2 = _
    rw [ih]
    rfl

/-- What the predictor says about a region's free tier at tick `n`. -/
def predictionAt (r : Region) (n : ℕ) : Predictor.Prediction :=
  ((HoltWintersPredictor.before [history] (ticks xs) n).update (xs n).tick).1 r .free

theorem rps_predictionAt (r : Region) (n : ℕ) :
    (predictionAt history xs r n).rps =
      round2 (HoltWintersPredictor.forecast [history] (ticks xs) r .free n) := rfl

theorem run_succ_decider (n : ℕ) :
    (run W text history t₀ xs (n + 1)).decider = (run W text history t₀ xs n).decider.decide W
      (fun r => some (forDecider text (predictionAt history xs r n))) (xs n).topUsers
      (xs n).now := by
  show ((run W text history t₀ xs n).step W text (xs n)).decider = _
  rw [step, run_predictor]
  rfl

/-- What the decider remembers is what it has written, as in the control loop. -/
theorem synced (n : ℕ) (r : Region) :
    Loop.Synced ((run W text history t₀ xs n).decider.view r) := by
  induction n with
  | zero => exact ⟨rfl, Or.inl ⟨rfl, rfl⟩⟩
  | succ n ih =>
    rw [run_succ_decider]
    exact ih.effect (Agent.decide_effect W _ _ _ _ r ih.limit_cases)

/-- What a tick does to a region. -/
theorem effect (n : ℕ) (r : Region) :
    Agent.CapacityEffect (some (forDecider text (predictionAt history xs r n))) (xs n).now
      ((run W text history t₀ xs n).decider.view r)
      ((run W text history t₀ xs (n + 1)).decider.view r) := by
  rw [run_succ_decider]
  exact Agent.decide_effect W (fun r => some (forDecider text (predictionAt history xs r n)))
    (xs n).topUsers (xs n).now _ r (synced W text history t₀ xs n r).limit_cases

variable {W text history t₀ xs} {r : Region}

/-! ## No throttle without load -/

theorem spike_forDecider {pred : Predictor.Prediction} :
    (forDecider text pred).spike = true ↔ (if pred.anomaly then 36 else 48) < pred.rps := by
  rw [Prediction.spike, forDecider, Option.any_some]
  exact decide_eq_true_iff

/-- **No throttle without load.** If the rates that a region's free tier has seen before tick
`n` are between 0 and `b`, no fit before has forecast more, and `b` is at most 48, and at
most 36 if a rate was flagged, the decider has never written the region's policy. -/
theorem never_throttles (h0 : 0 ≤ p.alpha) (h1 : p.alpha ≤ 1) {b : ℚ} {n : ℕ}
    (hseen : ∀ x ∈ HoltWintersPredictor.seen [history] (ticks xs) r .free n, x ∈ Set.Icc 0 b)
    (hfits : ∀ i < n, ∀ fs, HoltWintersPredictor.fits [history] (ticks xs) r .free i = some fs →
      ∀ v ∈ fs.val, v ≤ b)
    (hb : b ≤ 48) (hflag : b ≤ 36 ∨ ∀ i < n, (predictionAt history xs r i).anomaly = false) :
    (run W text history t₀ xs n).decider.view r = (⟨100, t₀, false⟩, none) := by
  induction n with
  | zero => rfl
  | succ n ih =>
    rw [HoltWintersPredictor.seen_succ, List.forall_mem_append, List.forall_mem_singleton] at hseen
    have hb0 : 0 ≤ b := hseen.2.1.trans hseen.2.2
    have hwithin := HoltWintersPredictor.before_within h0 h1 hb0 n hseen.1
      fun i hi => hfits i (Nat.lt_succ_of_lt hi)
    have hforecast : HoltWintersPredictor.forecast [history] (ticks xs) r .free n ≤ b :=
      (hwithin.update h0 h1 hb0 hseen.2 (hfits n (Nat.lt_succ_self n))).1.2
    have hview := ih hseen.1 (fun i hi => hfits i (Nat.lt_succ_of_lt hi))
      (hflag.imp_right fun h i hi => h i (Nat.lt_succ_of_lt hi))
    have hrps : ∀ {k : ℕ}, b ≤ k / 100 → (predictionAt history xs r n).rps ≤ k / 100 := by
      intro k hk
      rw [rps_predictionAt]
      exact round2_le (hforecast.trans hk)
    have heff := effect W text history t₀ xs n r
    rw [hview] at heff
    generalize (run W text history t₀ xs (n + 1)).decider.view r = v at heff ⊢
    cases heff with
    | keep => rfl
    | throttle hp hspike =>
      obtain rfl := Option.some.inj hp
      rw [spike_forDecider] at hspike
      have h48 := hrps (k := 4800) (by norm_num; exact hb)
      have h36 : b ≤ 36 → (predictionAt history xs r n).rps ≤ 36 := fun h => by
        have := hrps (k := 3600) (by norm_num; exact h)
        norm_num at this
        exact this
      norm_num at h48
      split_ifs at hspike with hanomaly
      · rcases hflag with h | h
        · exact absurd hspike (not_lt.mpr (h36 h))
        · exact absurd ((h n (Nat.lt_succ_self n)).symm.trans hanomaly) (by simp)
      · exact absurd hspike (not_lt.mpr h48)
    | recover hp hcalm hthr => cases hthr

/-- A load of half the capacity, in which every rate is taken for an outlier. -/
def sampleInputs (n : ℕ) : Input HoltWintersPredictor.sampleParams :=
  ⟨⟨fun _ _ => some 30, fun _ _ => ⟨fun _ => none, fun _ _ => true⟩⟩, fun _ => [], 61 * (n + 1)⟩

theorem never_throttles_sample :
    (predictionAt HoltWintersPredictor.sampleWarmth sampleInputs .us 2).anomaly = true ∧
      (run sampleWriter (fun _ => str "30.0") HoltWintersPredictor.sampleWarmth 0 sampleInputs
        3).decider.view .us = (⟨100, 0, false⟩, none) :=
  ⟨by decide +kernel, never_throttles (b := 36) (by decide +kernel) (by decide +kernel)
    (by decide +kernel) (fun i _ fs hfit => by
      unfold HoltWintersPredictor.fits Series.fitted at hfit
      split_ifs at hfit
      cases hfit) (by norm_num) (Or.inl le_rfl)⟩

/-! ## The end of an overload -/

/-- A forecast of less than half the capacity. -/
theorem low_forDecider (text : ℚ → Str) {pred : Predictor.Prediction} (h : pred.rps < 30) :
    (forDecider text pred).spike = false ∧ (forDecider text pred).calm = true := by
  refine ⟨?_, decide_eq_true h⟩
  rw [Bool.eq_false_iff, ne_eq, spike_forDecider]
  split_ifs <;> linarith

/-- A tick with a low forecast leaves a region alone that is not throttled. -/
theorem view_of_unthrottled {n : ℕ} (hlow : (predictionAt history xs r n).rps < 30)
    (hthr : ((run W text history t₀ xs n).decider.state r).throttled = false) :
    (run W text history t₀ xs (n + 1)).decider.view r =
      (run W text history t₀ xs n).decider.view r := by
  have heff := effect W text history t₀ xs n r
  generalize (run W text history t₀ xs (n + 1)).decider.view r = v at heff ⊢
  cases heff with
  | keep => rfl
  | throttle hp hspike =>
    obtain rfl := Option.some.inj hp
    exact absurd (hspike.symm.trans (low_forDecider text hlow).1) (by simp)
  | recover hp hcalm hthr' => exact absurd (hthr'.symm.trans hthr) (by simp)

/-- Nor does it change a region that it does not restore. -/
theorem view_of_throttled {n : ℕ} (hlow : (predictionAt history xs r n).rps < 30)
    (hnext : ((run W text history t₀ xs (n + 1)).decider.state r).throttled = true) :
    (run W text history t₀ xs (n + 1)).decider.view r =
      (run W text history t₀ xs n).decider.view r := by
  have heff := effect W text history t₀ xs n r
  change ((run W text history t₀ xs (n + 1)).decider.view r).1.throttled = true at hnext
  generalize (run W text history t₀ xs (n + 1)).decider.view r = v at heff hnext ⊢
  cases heff with
  | keep => rfl
  | throttle hp hspike =>
    obtain rfl := Option.some.inj hp
    exact absurd (hspike.symm.trans (low_forDecider text hlow).1) (by simp)
  | recover hp hcalm hthr => exact absurd hnext (by simp)

/-- While forecasts are low and time goes on, no region stays throttled. -/
theorem exists_unthrottled (htime : ∀ (t : ℚ) n, ∃ i, n ≤ i ∧ t < (xs i).now) {N : ℕ}
    (hlow : ∀ n, N ≤ n → (predictionAt history xs r n).rps < 30) :
    ∃ n, N ≤ n ∧ ((run W text history t₀ xs n).decider.state r).throttled = false := by
  by_contra hnot
  push Not at hnot
  have hthr : ∀ n, N ≤ n → ((run W text history t₀ xs n).decider.state r).throttled = true :=
    fun n hn => Bool.eq_true_of_not_eq_false (hnot n hn)
  have hsame : ∀ n, N ≤ n → (run W text history t₀ xs n).decider.view r =
      (run W text history t₀ xs N).decider.view r := by
    intro n hn
    induction n, hn using Nat.le_induction with
    | base => rfl
    | succ n hn ih =>
      exact (view_of_throttled (hlow n hn) (hthr (n + 1) (hn.trans n.le_succ))).trans ih
  -- the first tick that is a minute behind the throttle restores the region
  obtain ⟨i, hi, hnow⟩ :=
    htime (((run W text history t₀ xs N).decider.state r).writtenAt + 60) N
  have hat : ((run W text history t₀ xs i).decider.state r).writtenAt =
      ((run W text history t₀ xs N).decider.state r).writtenAt :=
    congrArg (fun v => v.1.writtenAt) (hsame i hi)
  obtain ⟨hspike, hcalm⟩ := low_forDecider text (hlow i hi)
  have hrecover : ((run W text history t₀ xs (i + 1)).decider.state r) =
      ⟨100, (xs i).now, false⟩ := by
    rw [run_succ_decider]
    exact Agent.decide_recovers rfl hspike hcalm (hthr i hi) (by rw [hat]; linarith) _
  have hlast := hthr (i + 1) (hi.trans i.le_succ)
  rw [hrecover] at hlast
  cases hlast

/-- **An overload has an end.** If from some tick on neither the rates nor the fits of a
region's free tier exceed a load that rounds to less than half the capacity, then from some
tick on all forecasts are below it, the region has its limit back and keeps it, and from
some time on its gateway finds no policy, whatever happened before. -/
theorem settles (h0 : 0 < p.alpha) (h1 : p.alpha ≤ 1) {c : ℚ} (hc : 0 ≤ c) (hc' : c < 5999 / 200)
    {m : ℕ} (hcalm : HoltWintersPredictor.Calm [history] (ticks xs) r .free c m)
    (htime : ∀ (t : ℚ) n, ∃ i, n ≤ i ∧ t < (xs i).now) :
    ∃ N T, ∀ n, N ≤ n → (predictionAt history xs r n).rps < 30 ∧
      ((run W text history t₀ xs n).decider.state r).limitPerMinute = 100 ∧
      ((run W text history t₀ xs n).decider.state r).throttled = false ∧
      ∀ t, T ≤ t → Loop.adopt (((run W text history t₀ xs n).decider.redis r).get t
        (Store.redisKey r .free)) = Policy.lookup .free := by
  obtain ⟨M, hM⟩ := HoltWintersPredictor.exists_cool h0 h1 hc hc' hcalm
  have hlow : ∀ n, M ≤ n → (predictionAt history xs r n).rps < 30 := by
    intro n hn
    have hround := round2_lt (m := 3000) (by norm_num) ((hM n hn).trans_eq (by norm_num))
    rw [rps_predictionAt]
    exact hround.trans_eq (by norm_num)
  obtain ⟨N, hN, hthr⟩ :
      ∃ N, M ≤ N ∧ ((run W text history t₀ xs N).decider.state r).throttled = false :=
    exists_unthrottled htime hlow
  have hsame : ∀ n, N ≤ n → (run W text history t₀ xs n).decider.view r =
      (run W text history t₀ xs N).decider.view r := by
    intro n hn
    induction n, hn using Nat.le_induction with
    | base => rfl
    | succ n hn ih =>
      have hthr' : ((run W text history t₀ xs n).decider.state r).throttled = false :=
        (congrArg (fun v => v.1.throttled) ih).trans hthr
      exact (view_of_unthrottled (hlow n (hN.trans hn)) hthr').trans ih
  refine ⟨N, ((run W text history t₀ xs N).decider.state r).writtenAt + 300, fun n hn => ?_⟩
  have hstate : (run W text history t₀ xs n).decider.state r =
      (run W text history t₀ xs N).decider.state r := congrArg Prod.fst (hsame n hn)
  have hsync := synced W text history t₀ xs n r
  have hthr' : ((run W text history t₀ xs n).decider.state r).throttled = false := hstate ▸ hthr
  refine ⟨hlow n (hN.trans hn), hsync.limit.trans (by rw [Agent.view, hthr']; rfl), hthr',
    fun t ht => ?_⟩
  rw [hsync.get_eq_none (hstate ▸ ht)]
  rfl

/-- The overload that ends with tick 0. -/
def overloadInputs (n : ℕ) : Input HoltWintersPredictor.sampleParams :=
  ⟨HoltWintersPredictor.overloadTicks n, fun _ => [], 61 * (n + 1)⟩

abbrev overloadRun : ℕ → AgentLoop HoltWintersPredictor.sampleParams :=
  run sampleWriter (fun _ => str "80.0") HoltWintersPredictor.overloadWarmth 0 overloadInputs

/-- Its throttle has an end. -/
theorem settles_sample :
    ((overloadRun 1).decider.state .us).throttled = true ∧
    ∃ N T, ∀ n, N ≤ n →
      (predictionAt HoltWintersPredictor.overloadWarmth overloadInputs .us n).rps < 30 ∧
      ((overloadRun n).decider.state .us).limitPerMinute = 100 ∧
      ((overloadRun n).decider.state .us).throttled = false ∧
      ∀ t, T ≤ t → Loop.adopt (((overloadRun n).decider.redis .us).get t
        (Store.redisKey .us .free)) = Policy.lookup .free := by
  have htime : ∀ (t : ℚ) n, ∃ i, n ≤ i ∧ t < (overloadInputs i).now := by
    intro t n
    obtain ⟨i, hi⟩ := exists_nat_gt t
    refine ⟨max n i, le_max_left n i, hi.trans_le ?_⟩
    have hmax : (i : ℚ) ≤ (max n i : ℕ) := Nat.cast_le.mpr (le_max_right n i)
    show (i : ℚ) ≤ 61 * ((max n i : ℕ) + 1)
    linarith [Nat.cast_nonneg (α := ℚ) (max n i)]
  exact ⟨by decide +kernel, settles (c := 10) (by decide +kernel) (by decide +kernel) (by norm_num)
    (by norm_num) (HoltWintersPredictor.calm_overloadTicks _ .us .free) htime⟩

end AgentLoop

end Gdrl
