import Gdrl.Features

/-!
# The agent's predictors

`EWMAPredictor` smooths the rates of each region and tier. `HoltWintersPredictor` keeps a
bounded history of them, fits a model to it every `retrainEvery` ticks, or when it has no
forecast left, and takes one of the fit's forecasts at each tick. Without one it smooths
as well. Rates are rational numbers.

The model and the isolation forest come from libraries. What they make of a history, and
whether the fit raises, is an input of every tick (`Models`).
-/

namespace Gdrl

namespace Predictor

/-- `Prediction` -/
structure Prediction where
  rps : ℚ
  isSpike : Bool
  anomaly : Bool
  deriving DecidableEq

/-- `round(x, 2)` -/
def round2 (x : ℚ) : ℚ :=
  (if x < 0 then -1 else 1) * (roundHalfEven (x.num.natAbs * 100) x.den : ℚ) / 100

/-- What `features` has under a region and a tier's `_rps`. -/
abbrev Observed := Region → Tier → Option ℚ

/-- `f.get(f"{tier}_rps", 0.0)` -/
def current (f : Observed) (r : Region) (t : Tier) : ℚ := (f r t).getD 0

/-! ## Smoothing -/

/-- One step of smoothing. A value that is not positive was never seeded. -/
def smooth (alpha prev x : ℚ) : ℚ := if 0 < prev then alpha * x + (1 - alpha) * prev else x

/-- A series smoothed from its first value on. -/
def seed (alpha : ℚ) : List ℚ → Option ℚ
  | [] => none
  | x :: xs => some (xs.foldl (fun ewma val => alpha * val + (1 - alpha) * ewma) x)

/-- The series that a key such as `us/free` is about, split at the first slash. -/
def seriesOf (key : Str) : Option (Region × Tier) :=
  match key.span (· ≠ 47) with
  | (_, []) => none
  | (region, _ :: tier) =>
    match Region.ofName region, Tier.ofName tier with
    | some r, some t => some (r, t)
    | _, _ => none

/-- What `warm_up` is given : a dictionary of series. -/
abbrev Warmth := Dict Str (List ℚ)

/-- One series replaced. -/
def setSeries {β : Type} (f : Region → Tier → β) (r : Region) (t : Tier) (b : β) :
    Region → Tier → β :=
  fun r' t' => if r' = r ∧ t' = t then b else f r' t'

end Predictor

open Predictor

/-- `EWMAPredictor`, the smoothed values. -/
abbrev EWMAPredictor := Region → Tier → ℚ

namespace EWMAPredictor

def new : EWMAPredictor := fun _ _ => 0

/-- One item of `warm_up`. -/
def warmItem (alpha : ℚ) (s : EWMAPredictor) (e : Str × List ℚ) : EWMAPredictor :=
  match seriesOf e.1, seed alpha e.2 with
  | some (r, t), some ewma => setSeries s r t ewma
  | _, _ => s

/-- `EWMAPredictor.warm_up` -/
def warmUp (alpha : ℚ) (s : EWMAPredictor) (history : Warmth) : EWMAPredictor :=
  history.entries.foldl (warmItem alpha) s

/-- The forecast of a tick, which is the next smoothed value. -/
def predicted (alpha : ℚ) (s : EWMAPredictor) (f : Observed) (r : Region) (t : Tier) : ℚ :=
  smooth alpha (s r t) (current f r t)

/-- `EWMAPredictor.update` -/
def update (alpha : ℚ) (s : EWMAPredictor) (f : Observed) :
    (Region → Tier → Prediction) × EWMAPredictor :=
  (fun r t =>
    let ewma := predicted alpha s f r t
    ⟨round2 ewma, 0 < ewma ∧ 2 * ewma < current f r t, false⟩,
  predicted alpha s f)

end EWMAPredictor

/-! ## Holt-Winters -/

namespace HoltWinters

/-- The arguments of the constructor. A season of no tick makes `min_fit` zero, and a
`retrain_every` of zero has no remainder. -/
structure Params where
  seasonalPeriods : ℕ
  maxHistory : ℕ
  retrainEvery : ℕ
  alpha : ℚ
  seasonal_pos : 0 < seasonalPeriods
  retrain_pos : 0 < retrainEvery

/-- The defaults. -/
def Params.default : Params := ⟨30, 120, 5, 3 / 10, by decide, by decide⟩

/-- `_min_fit` -/
def Params.minFit (p : Params) : ℕ := 2 * p.seasonalPeriods

/-- The forecasts of a fit, `retrain_every` of them. -/
abbrev Forecasts (p : Params) := { fs : List ℚ // fs.length = p.retrainEvery }

/-- `ExponentialSmoothing(...).fit().forecast`, `none` where it raises, and the isolation
forest fitted to a history, which says whether a rate is an outlier. -/
structure Models (p : Params) where
  fit : List ℚ → Option (Forecasts p)
  forest : List ℚ → ℚ → Bool

/-- A `deque` with a `maxlen`. -/
abbrev History (n : ℕ) := { l : List ℚ // l.length ≤ n }

namespace History

variable {n : ℕ}

def empty : History n := ⟨[], Nat.zero_le n⟩

/-- `append`, at the cost of the oldest value if there is no room. -/
def append (h : History n) (x : ℚ) : History n :=
  ⟨(h.val ++ [x]).drop ((h.val ++ [x]).length - n), by rw [List.length_drop]; omega⟩

/-- `buf[-1] if buf else 0.0` -/
def last (h : History n) : ℚ := h.val.getLast?.getD 0

theorem length_append (h : History n) (x : ℚ) :
    (h.append x).val.length = min (h.val.length + 1) n := by
  simp only [append, List.length_drop, List.length_append, List.length_singleton]
  omega

/-- A history that holds `k` values keeps at least as many. -/
theorem le_length_append {k : ℕ} {h : History n} (hk : k ≤ h.val.length) (x : ℚ) :
    k ≤ (h.append x).val.length := by
  have := h.property
  rw [length_append]
  omega

theorem last_append {h : History n} (hn : 0 < n) (x : ℚ) : (h.append x).last = x := by
  have hle : (h.val ++ [x]).length - n ≤ h.val.length := by
    rw [List.length_append, List.length_singleton]
    omega
  simp only [last, append, List.drop_append_of_le_length hle, List.getLast?_concat,
    Option.getD_some]

end History

/-- The state for one region and tier. -/
structure Series (p : Params) where
  history : History p.maxHistory
  hwCache : List ℚ
  tick : ℕ
  ewma : ℚ
  iso : Option (ℚ → Bool)

namespace Series

variable {p : Params}

def new : Series p := ⟨.empty, [], 0, 0, none⟩

/-- One series of `warm_up`. -/
def warm (s : Series p) (series : List ℚ) : Series p :=
  match seed p.alpha series with
  | none => s
  | some ewma => { s with history := series.foldl History.append s.history, ewma }

/-- `_refit_hw`. A fit that raises leaves the cache as it is. -/
def refitHw (m : Models p) (s : Series p) : Series p :=
  match m.fit s.history.val with
  | some fs => { s with hwCache := fs.val.map (max 0) }
  | none => s

/-- `_ewma_step` -/
def ewmaStep (s : Series p) (x : ℚ) : ℚ × Series p :=
  let ewma := smooth p.alpha s.ewma x
  (ewma, { s with ewma })

/-- `_next_forecast` -/
def nextForecast (m : Models p) (tick : ℕ) (s : Series p) : ℚ × Series p :=
  if s.history.val.length < p.minFit then s.ewmaStep s.history.last
  else
    let s := if tick % p.retrainEvery = 0 ∨ s.hwCache = [] then s.refitHw m else s
    match s.hwCache with
    | v :: cache => (v, { s with hwCache := cache })
    | [] => s.ewmaStep s.history.last

/-- `_detect_anomaly` -/
def detectAnomaly (m : Models p) (x : ℚ) (tick : ℕ) (s : Series p) : Bool × Series p :=
  if s.history.val.length < p.minFit then (false, s)
  else
    let s := if tick % p.retrainEvery = 0 then { s with iso := some (m.forest s.history.val) }
      else s
    (s.iso.any fun clf => clf x, s)

/-- The observation goes into the history. -/
def observe (s : Series p) (x : ℚ) : Series p :=
  { s with history := s.history.append x, tick := s.tick + 1 }

/-- The forecast of a tick before it is rounded. -/
def predicted (m : Models p) (s : Series p) (x : ℚ) : ℚ :=
  ((s.observe x).nextForecast m s.tick).1

/-- `update` for one region and tier. -/
def update (m : Models p) (s : Series p) (x : ℚ) : Prediction × Series p :=
  let (predicted, s') := (s.observe x).nextForecast m s.tick
  let (anomaly, s'') := s'.detectAnomaly m x s.tick
  (⟨round2 predicted, 0 < predicted ∧ 2 * predicted < x, anomaly⟩, s'')

end Series

/-- What a tick is given : the features, and what the libraries do for each series. -/
structure Tick (p : Params) where
  features : Observed
  models : Region → Tier → Models p

end HoltWinters

open HoltWinters

/-- `HoltWintersPredictor` -/
abbrev HoltWintersPredictor (p : Params) := Region → Tier → Series p

namespace HoltWintersPredictor

variable {p : Params}

def new : HoltWintersPredictor p := fun _ _ => .new

/-- One item of `warm_up`. -/
def warmItem (s : HoltWintersPredictor p) (e : Str × List ℚ) : HoltWintersPredictor p :=
  match seriesOf e.1 with
  | some (r, t) => setSeries s r t ((s r t).warm e.2)
  | none => s

/-- `HoltWintersPredictor.warm_up` -/
def warmUp (s : HoltWintersPredictor p) (history : Warmth) : HoltWintersPredictor p :=
  history.entries.foldl warmItem s

/-- `HoltWintersPredictor.update` -/
def update (s : HoltWintersPredictor p) (u : Tick p) :
    (Region → Tier → Prediction) × HoltWintersPredictor p :=
  (fun r t => ((s r t).update (u.models r t) (current u.features r t)).1,
  fun r t => ((s r t).update (u.models r t) (current u.features r t)).2)

/-- A new predictor behind its calls of `warm_up`. -/
def warmed (hs : List Warmth) : HoltWintersPredictor p := hs.foldl warmUp new

/-- The predictor before tick `n`. -/
def before (hs : List Warmth) (us : ℕ → Tick p) : ℕ → HoltWintersPredictor p
  | 0 => warmed hs
  | n + 1 => ((before hs us n).update (us n)).2

end HoltWintersPredictor

namespace EWMAPredictor

/-- The predictor before tick `n`, after the same warm-up and the same observations. -/
def before (alpha : ℚ) (hs : List Warmth) (fs : ℕ → Observed) : ℕ → EWMAPredictor
  | 0 => hs.foldl (warmUp alpha) new
  | n + 1 => (update alpha (before alpha hs fs n) (fs n)).2

end EWMAPredictor

end Gdrl
