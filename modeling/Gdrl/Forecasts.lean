import Gdrl.Predictor

/-!
# Forecasts in time

A fit at tick `n₀` forecasts the ticks `n₀`, `n₀ + 1` and so on. `HoltWintersPredictor`
queues the forecasts and takes one a tick, whether a later fit succeeds or not, so that
the queue of tick `n` starts with the forecast of tick `n` (`Aligned`). Where it ends, the
predictor smooths (`forecasts_aligned`).
-/

namespace Gdrl

/-- The last success of the first `n` tries, with its number. -/
def lastSuccess {β : Type} (f : ℕ → Option β) : ℕ → Option (ℕ × β)
  | 0 => none
  | n + 1 => ((f n).map fun b => (n, b)).or (lastSuccess f n)

theorem lastSuccess_eq_some {β : Type} {f : ℕ → Option β} {n i : ℕ} {b : β} :
    lastSuccess f n = some (i, b) ↔
      i < n ∧ f i = some b ∧ ∀ j, i < j → j < n → f j = none := by
  induction n with
  | zero => simp [lastSuccess]
  | succ n ih =>
    rw [lastSuccess]
    cases hn : f n with
    | none =>
      rw [Option.map_none, Option.none_or, ih]
      constructor
      · rintro ⟨hi, hb, hlater⟩
        refine ⟨Nat.lt_succ_of_lt hi, hb, fun j hij hj => ?_⟩
        rcases Nat.lt_succ_iff_lt_or_eq.mp hj with hj | rfl
        · exact hlater j hij hj
        · exact hn
      · rintro ⟨hi, hb, hlater⟩
        rcases Nat.lt_succ_iff_lt_or_eq.mp hi with hi | rfl
        · exact ⟨hi, hb, fun j hij hj => hlater j hij (Nat.lt_succ_of_lt hj)⟩
        · exact absurd (hn.symm.trans hb) nofun
    | some c =>
      rw [Option.map_some, Option.some_or, Option.some.injEq, Prod.mk.injEq]
      constructor
      · rintro ⟨rfl, rfl⟩
        exact ⟨Nat.lt_succ_self n, hn, fun j hij hj => absurd hj (by omega)⟩
      · rintro ⟨hi, hb, hlater⟩
        rcases Nat.lt_succ_iff_lt_or_eq.mp hi with hi | rfl
        · exact absurd ((hlater n hi (Nat.lt_succ_self n)).symm.trans hn) nofun
        · exact ⟨rfl, Option.some.inj (hn.symm.trans hb)⟩

open Predictor

namespace HoltWinters

namespace Series

variable {p : Params}

/-- The history holds `min_fit` values at this tick. -/
def Full (s : Series p) (x : ℚ) : Prop := p.minFit ≤ (s.history.append x).val.length

instance (s : Series p) (x : ℚ) : Decidable (s.Full x) := inferInstanceAs (Decidable (_ ≤ _))

/-- The forecasts of the fit that a tick makes, `none` if it makes none or the fit raises. -/
def fitted (m : Models p) (s : Series p) (x : ℚ) : Option (Forecasts p) :=
  if s.Full x ∧ (s.tick % p.retrainEvery = 0 ∨ s.hwCache = []) then
    m.fit (s.history.append x).val
  else none

/-- The cache that a tick takes its forecast from. -/
def refreshed (m : Models p) (s : Series p) (x : ℚ) : List ℚ :=
  match s.fitted m x with
  | some fs => fs.val.map (max 0)
  | none => s.hwCache

/-- What a tick does : it smooths for want of history, takes a forecast, or smooths for
want of forecasts. -/
inductive Effect (m : Models p) (s : Series p) (x : ℚ) : Prop
  | short (h : ¬ s.Full x)
    (hpred : s.predicted m x = smooth p.alpha s.ewma (s.history.append x).last)
    (hcache : (s.update m x).2.hwCache = s.hwCache)
    (hewma : (s.update m x).2.ewma = s.predicted m x)
  | cached (v : ℚ) (cache : List ℚ) (h : s.Full x) (hr : s.refreshed m x = v :: cache)
    (hpred : s.predicted m x = v) (hcache : (s.update m x).2.hwCache = cache)
    (hewma : (s.update m x).2.ewma = s.ewma)
  | empty (h : s.Full x) (hr : s.refreshed m x = [])
    (hpred : s.predicted m x = smooth p.alpha s.ewma (s.history.append x).last)
    (hcache : (s.update m x).2.hwCache = []) (hewma : (s.update m x).2.ewma = s.predicted m x)

/-- The anomaly flag changes its own forest only. -/
theorem detectAnomaly_frame (m : Models p) (x : ℚ) (tick : ℕ) (s : Series p) :
    ∃ iso, (s.detectAnomaly m x tick).2 = { s with iso } := by
  unfold detectAnomaly
  dsimp only
  split_ifs
  · exact ⟨s.iso, rfl⟩
  · exact ⟨_, rfl⟩
  · exact ⟨s.iso, rfl⟩

theorem nextForecast_of_not_full {m : Models p} {s : Series p} {x : ℚ} (h : ¬ s.Full x) :
    (s.observe x).nextForecast m s.tick = (s.observe x).ewmaStep (s.history.append x).last :=
  if_pos (not_le.mp h)

/-- The refit of a tick leaves its cache. -/
theorem nextForecast_of_full {m : Models p} {s : Series p} {x : ℚ} (h : s.Full x) :
    (s.observe x).nextForecast m s.tick =
      match s.refreshed m x with
      | v :: cache => (v, { s.observe x with hwCache := cache })
      | [] => { s.observe x with hwCache := [] }.ewmaStep (s.history.append x).last := by
  have hcache : (if s.tick % p.retrainEvery = 0 ∨ (s.observe x).hwCache = [] then
      (s.observe x).refitHw m else s.observe x) =
        { s.observe x with hwCache := s.refreshed m x } := by
    unfold refreshed fitted refitHw
    by_cases hdue : s.tick % p.retrainEvery = 0 ∨ (s.observe x).hwCache = []
    · rw [if_pos hdue, if_pos ⟨h, hdue⟩]
      show (match m.fit (s.history.append x).val with
        | some fs => { s.observe x with hwCache := fs.val.map (max 0) }
        | none => s.observe x) = _
      cases m.fit (s.history.append x).val <;> rfl
    · rw [if_neg hdue, if_neg fun h => hdue h.2]
      rfl
  rw [nextForecast, if_neg (not_lt.mpr h : ¬ (s.observe x).history.val.length < p.minFit), hcache]
  cases hr : s.refreshed m x <;> rfl

theorem effect (m : Models p) (s : Series p) (x : ℚ) : Effect m s x := by
  obtain ⟨iso, hiso⟩ := detectAnomaly_frame m x s.tick ((s.observe x).nextForecast m s.tick).2
  have hupdate : (s.update m x).2 = { ((s.observe x).nextForecast m s.tick).2 with iso } := hiso
  have hpred : s.predicted m x = ((s.observe x).nextForecast m s.tick).1 := rfl
  by_cases hfull : s.Full x
  · rw [nextForecast_of_full hfull] at hupdate hpred
    cases hr : s.refreshed m x with
    | cons v cache =>
      rw [hr] at hupdate hpred
      exact .cached v cache hfull hr hpred (by rw [hupdate]) (by rw [hupdate]; rfl)
    | nil =>
      rw [hr] at hupdate hpred
      exact .empty hfull hr hpred (by rw [hupdate]; rfl) (by rw [hupdate, hpred]; rfl)
  · rw [nextForecast_of_not_full hfull] at hupdate hpred
    exact .short hfull hpred (by rw [hupdate]; rfl) (by rw [hupdate, hpred]; rfl)

/-- Every tick keeps its observation and is counted. -/
theorem update_frame (m : Models p) (s : Series p) (x : ℚ) :
    (s.update m x).2.history = s.history.append x ∧ (s.update m x).2.tick = s.tick + 1 := by
  obtain ⟨iso, hiso⟩ := detectAnomaly_frame m x s.tick ((s.observe x).nextForecast m s.tick).2
  have hupdate : (s.update m x).2 = { ((s.observe x).nextForecast m s.tick).2 with iso } := hiso
  by_cases hfull : s.Full x
  · rw [nextForecast_of_full hfull] at hupdate
    cases hr : s.refreshed m x <;> rw [hr] at hupdate <;> rw [hupdate] <;> exact ⟨rfl, rfl⟩
  · rw [nextForecast_of_not_full hfull] at hupdate
    rw [hupdate]
    exact ⟨rfl, rfl⟩

/-- Behind a full history all histories are full. -/
theorem full_of_le {s : Series p} (h : p.minFit ≤ s.history.val.length) (x : ℚ) : s.Full x :=
  History.le_length_append h x

/-- Whatever a tick does, the next one takes up behind the first entry of its cache. -/
theorem hwCache_update (m : Models p) (s : Series p) (x : ℚ) (h : s.Full x) :
    (s.update m x).2.hwCache = (s.refreshed m x).tail := by
  cases effect m s x with
  | short hnot => exact absurd h hnot
  | cached v cache _ hr _ hcache => rw [hcache, hr, List.tail_cons]
  | empty _ hr _ hcache => rw [hcache, hr, List.tail_nil]

/-- The cache before tick `n` holds what is left of the last fit, and nothing before the
first. `last` is that fit with its tick. -/
def Aligned (s : Series p) (n : ℕ) : Option (ℕ × Forecasts p) → Prop
  | none => s.hwCache = []
  | some (n₀, fs) => n₀ < n ∧ p.minFit ≤ s.history.val.length ∧
    s.hwCache = (fs.val.map (max 0)).drop (n - n₀)

/-- Where the cache starts at tick `n`, with the fits up to this tick. -/
theorem Aligned.refreshed {s : Series p} {n : ℕ} {last : Option (ℕ × Forecasts p)}
    (h : s.Aligned n last) (m : Models p) (x : ℚ) :
    s.refreshed m x = match ((s.fitted m x).map fun fs => (n, fs)).or last with
      | none => []
      | some (n₀, fs) => (fs.val.map (max 0)).drop (n - n₀) := by
  unfold Series.refreshed
  cases s.fitted m x with
  | some fs =>
    simp
  | none =>
    cases last with
    | none => exact h
    | some e => exact h.2.2

/-- The tick takes one entry off the cache, so that the next tick finds its own first. -/
theorem Aligned.update {s : Series p} {n : ℕ} {last : Option (ℕ × Forecasts p)}
    (h : s.Aligned n last) (m : Models p) (x : ℚ) :
    (s.update m x).2.Aligned (n + 1) (((s.fitted m x).map fun fs => (n, fs)).or last) := by
  have htail : ∀ {l : List ℚ} {k : ℕ}, k ≤ n → (l.drop (n - k)).tail = l.drop (n + 1 - k) := by
    intro l k hk
    rw [List.tail_drop, Nat.sub_add_comm hk]
  by_cases hfull : s.Full x
  · have hcache := hwCache_update m s x hfull
    rw [h.refreshed m x] at hcache
    have hhist : p.minFit ≤ (s.update m x).2.history.val.length := by
      rw [(update_frame m s x).1]
      exact hfull
    cases hfit : s.fitted m x with
    | some fs =>
      rw [hfit] at hcache
      exact ⟨Nat.lt_succ_self n, hhist, hcache.trans (htail le_rfl)⟩
    | none =>
      rw [hfit] at hcache
      cases last with
      | none => exact hcache
      | some e => exact ⟨Nat.lt_succ_of_lt h.1, hhist, hcache.trans (htail h.1.le)⟩
  · -- a history that is short now was never full
    have hfit : s.fitted m x = none := if_neg fun h => hfull h.1
    rw [hfit]
    cases last with
    | none =>
      cases effect m s x with
      | short _ _ hcache => exact hcache.trans h
      | cached _ _ hf => exact absurd hf hfull
      | empty hf => exact absurd hf hfull
    | some e => exact absurd (full_of_le h.2.1 x) hfull

end Series

end HoltWinters

open HoltWinters

namespace HoltWintersPredictor

variable {p : Params}

/-- What a new series has and a warm-up keeps, all series have before the first tick. -/
theorem warmed_invariant {P : Series p → Prop} (hnew : P .new)
    (hwarm : ∀ (s : Series p) xs, P s → P (s.warm xs)) (hs : List Warmth) (r : Region) (t : Tier) :
    P (warmed hs r t) := by
  have hitem : ∀ (s : HoltWintersPredictor p) e, (∀ r t, P (s r t)) → ∀ r t,
      P (warmItem s e r t) := by
    intro s e h r t
    unfold warmItem
    cases seriesOf e.1 with
    | none => exact h r t
    | some k =>
      show P (if r = k.1 ∧ t = k.2 then (s k.1 k.2).warm e.2 else s r t)
      split_ifs
      · exact hwarm _ _ (h _ _)
      · exact h r t
  suffices h : ∀ r t, P (hs.foldl warmUp new r t) from h r t
  refine List.foldlRecOn hs warmUp (motive := fun s => ∀ r t, P (s r t)) (b := new)
    (fun _ _ => hnew) fun s h w _ => ?_
  exact List.foldlRecOn w.entries warmItem h fun s h e _ => hitem s e h

/-- No warm-up makes a forecast, or counts as a tick. -/
theorem warmed_fresh (hs : List Warmth) (r : Region) (t : Tier) :
    (warmed (p := p) hs r t).hwCache = [] ∧ (warmed (p := p) hs r t).tick = 0 := by
  refine warmed_invariant (P := fun s => s.hwCache = [] ∧ s.tick = 0) ⟨rfl, rfl⟩ ?_ hs r t
  intro s xs h
  unfold Series.warm
  split
  · exact h
  · exact h

/-- Ticks are numbered from 0. -/
theorem before_tick (hs : List Warmth) (us : ℕ → Tick p) (n : ℕ) (r : Region) (t : Tier) :
    (before hs us n r t).tick = n := by
  induction n with
  | zero => exact (warmed_fresh hs r t).2
  | succ n ih => exact (Series.update_frame _ _ _).2.trans (congrArg (· + 1) ih)

/-- The fit of tick `n`, `none` if there is none or it raises. -/
def fits (hs : List Warmth) (us : ℕ → Tick p) (r : Region) (t : Tier) (n : ℕ) :
    Option (Forecasts p) :=
  (before hs us n r t).fitted ((us n).models r t) (current (us n).features r t)

theorem before_aligned (hs : List Warmth) (us : ℕ → Tick p) (r : Region) (t : Tier) (n : ℕ) :
    (before hs us n r t).Aligned n (lastSuccess (fits hs us r t) n) := by
  induction n with
  | zero => exact (warmed_fresh hs r t).1
  | succ n ih => exact ih.update _ _

/-- **Aligned forecasts.** Once the history is full, the forecast of tick `n` is the one that
the last successful fit, at tick `n₀`, made for this tick, its entry `n - n₀`; or, if there
was no fit or it has no such entry, an EWMA step. The answer is the forecast rounded. -/
theorem forecasts_aligned (hs : List Warmth) (us : ℕ → Tick p) (n : ℕ) (r : Region) (t : Tier)
    (hfull : (before hs us n r t).Full (current (us n).features r t)) :
    let x := current (us n).features r t
    let s := before hs us n r t
    let predicted := s.predicted ((us n).models r t) x
    (((before hs us n).update (us n)).1 r t).rps = round2 predicted ∧
    ((∃ n₀ fs v, lastSuccess (fits hs us r t) (n + 1) = some (n₀, fs) ∧ n - n₀ < p.retrainEvery ∧
        fs.val[n - n₀]? = some v ∧ predicted = max 0 v) ∨
      ((∀ n₀ fs, lastSuccess (fits hs us r t) (n + 1) = some (n₀, fs) →
          p.retrainEvery ≤ n - n₀) ∧
        predicted = smooth p.alpha s.ewma x)) := by
  intro x s predicted
  refine ⟨rfl, ?_⟩
  have hr := (before_aligned hs us r t n).refreshed ((us n).models r t) x
  change s.refreshed _ x = match lastSuccess (fits hs us r t) (n + 1) with
    | none => []
    | some (n₀, fs) => (fs.val.map (max 0)).drop (n - n₀) at hr
  cases s.effect ((us n).models r t) x with
  | short hnot => exact absurd hfull hnot
  | cached v cache _ hcons hpred =>
    left
    rw [hcons] at hr
    cases hlast : lastSuccess (fits hs us r t) (n + 1) with
    | none =>
      rw [hlast] at hr
      exact absurd hr nofun
    | some e =>
      obtain ⟨n₀, fs⟩ := e
      rw [hlast] at hr
      -- the entry in question is the first of those that are left
      have hget : (fs.val.map (max 0))[n - n₀]? = some v := by
        have hhead := congrArg (fun l => l[0]?) hr
        simpa only [List.getElem?_drop, Nat.add_zero, List.getElem?_cons_zero] using hhead.symm
      rw [List.getElem?_map] at hget
      obtain ⟨w, hw, rfl⟩ := Option.map_eq_some_iff.mp hget
      obtain ⟨hlt, -⟩ := List.getElem?_eq_some_iff.mp hw
      exact ⟨n₀, fs, w, rfl, fs.property ▸ hlt, hw, hpred⟩
  | empty _ hnil hpred =>
    right
    rw [hnil] at hr
    refine ⟨fun n₀ fs hlast => ?_, ?_⟩
    · rw [hlast] at hr
      have := List.drop_eq_nil_iff.mp hr.symm
      rwa [List.length_map, fs.property] at this
    · have hpos : 0 < p.maxHistory := by
        have hmin : 0 < p.minFit := Nat.mul_pos two_pos p.seasonal_pos
        exact hmin.trans_le (hfull.trans (s.history.append x).property)
      rw [History.last_append hpos] at hpred
      exact hpred

/-- A short season, with a forecast for five ticks. -/
def sampleParams : Params := ⟨1, 2, 5, 3 / 10, Nat.zero_lt_one, Params.default.retrain_pos⟩

def sampleWarmth : Warmth := ⟨[(str "us/free", [10, 10])], List.nodup_singleton _⟩

def sampleForecasts : Forecasts sampleParams := ⟨[11, 12, 13, 14, 15], rfl⟩

/-- A steady load. The fit of tick 0 raises, and so tick 1 fits again. -/
def sampleTicks (n : ℕ) : Tick sampleParams :=
  ⟨fun _ _ => some 10, fun _ _ => ⟨fun _ => if n = 1 then some sampleForecasts else none,
    fun _ _ => false⟩⟩

theorem forecasts_aligned_sample :
    let s := before [sampleWarmth] sampleTicks 2 .us .free
    let predicted := s.predicted ((sampleTicks 2).models .us .free) 10
    s.Full 10 ∧ predicted = 12 ∧
    (((before [sampleWarmth] sampleTicks 2).update (sampleTicks 2)).1 .us .free).rps =
      round2 predicted ∧
    ((∃ n₀ fs v, lastSuccess (fits [sampleWarmth] sampleTicks .us .free) 3 = some (n₀, fs) ∧
        2 - n₀ < 5 ∧ fs.val[2 - n₀]? = some v ∧ predicted = max 0 v) ∨
      ((∀ n₀ fs, lastSuccess (fits [sampleWarmth] sampleTicks .us .free) 3 = some (n₀, fs) →
          5 ≤ 2 - n₀) ∧
        predicted = smooth (3 / 10) s.ewma 10)) :=
  ⟨by decide +kernel, by decide +kernel,
    forecasts_aligned [sampleWarmth] sampleTicks 2 .us .free (by decide +kernel)⟩

end HoltWintersPredictor

end Gdrl
