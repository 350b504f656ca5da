import Gdrl.Fallback
import Gdrl.Lists
import Gdrl.Spikes

/-!
# Anomalies

The forest that flags a rate is fitted every `retrainEvery` ticks, to what the history
holds then. `anomaly_iff` says what a flag means from the outside, by the rates that the
warm-up and the ticks gave for the series : the last `maxHistory` of them up to the last
such tick. `predicted_range` bounds the forecasts by the same rates.
-/

namespace Gdrl

open Predictor

namespace HoltWinters

/-- A history that takes in a series has the last `n` values. -/
theorem History.foldl_append {n : ℕ} (series : List ℚ) (h : History n) :
    (series.foldl append h).val = (h.val ++ series).rtake n := by
  induction series generalizing h with
  | nil => rw [List.foldl_nil, List.append_nil, rtake_eq_self h.property]
  | cons x series ih =>
    rw [List.foldl_cons, ih]
    show ((h.val ++ [x]).rtake n ++ series).rtake n = _
    rw [rtake_append_rtake, List.append_assoc, List.singleton_append]

namespace Series

variable {p : Params} (m : Models p) (s : Series p) (x : ℚ)

/-- A series of no value is as good as none. -/
theorem warm_history (series : List ℚ) :
    (s.warm series).history.val = (s.history.val ++ series).rtake p.maxHistory := by
  cases series with
  | nil => exact History.foldl_append [] s.history
  | cons x xs => exact History.foldl_append (x :: xs) s.history

theorem warm_iso (series : List ℚ) : (s.warm series).iso = s.iso := by
  cases series <;> rfl

/-- The forecast has no say in the flag. -/
theorem nextForecast_frame :
    ((s.observe x).nextForecast m s.tick).2.history = s.history.append x ∧
      ((s.observe x).nextForecast m s.tick).2.iso = s.iso := by
  by_cases hfull : s.Full x
  · rw [nextForecast_of_full hfull]
    cases s.refreshed m x <;> exact ⟨rfl, rfl⟩
  · rw [nextForecast_of_not_full hfull]
    exact ⟨rfl, rfl⟩

/-- The forest behind a tick. -/
theorem update_iso :
    (s.update m x).2.iso =
      if s.Full x ∧ s.tick % p.retrainEvery = 0 then some (m.forest (s.history.append x).val)
      else s.iso := by
  obtain ⟨hhistory, hiso⟩ := nextForecast_frame m s x
  show (detectAnomaly m x s.tick ((s.observe x).nextForecast m s.tick).2).2.iso = _
  generalize ((s.observe x).nextForecast m s.tick).2 = s' at hhistory hiso ⊢
  rw [← hhistory, ← hiso]
  have hfull : s.Full x ↔ ¬ s'.history.val.length < p.minFit := by
    rw [hhistory, not_lt]
    rfl
  by_cases h : s'.history.val.length < p.minFit
  · rw [detectAnomaly, if_pos h, if_neg fun hx => hfull.mp hx.1 h]
  · rw [detectAnomaly, if_neg h]
    by_cases htick : s.tick % p.retrainEvery = 0
    · simp [htick, hfull.mpr h]
    · simp [htick]

/-- The flag is the new forest's. -/
theorem update_anomaly :
    (s.update m x).1.anomaly =
      (decide (s.Full x) && (s.update m x).2.iso.any fun clf => clf x) := by
  obtain ⟨hhistory, -⟩ := nextForecast_frame m s x
  show (detectAnomaly m x s.tick ((s.observe x).nextForecast m s.tick).2).1 =
    (decide (s.Full x) &&
      (detectAnomaly m x s.tick ((s.observe x).nextForecast m s.tick).2).2.iso.any fun clf => clf x)
  generalize ((s.observe x).nextForecast m s.tick).2 = s' at hhistory ⊢
  have hfull : s.Full x ↔ ¬ s'.history.val.length < p.minFit := by
    rw [hhistory, not_lt]
    rfl
  by_cases h : s'.history.val.length < p.minFit
  · rw [detectAnomaly, if_pos h, decide_eq_false fun hx => hfull.mp hx h, Bool.false_and]
  · rw [detectAnomaly, if_neg h, decide_eq_true (hfull.mpr h), Bool.true_and]

end Series

end HoltWinters

open HoltWinters

namespace HoltWintersPredictor

theorem warmItem_apply {p : Params} (s : HoltWintersPredictor p) (e : Str × List ℚ) (r : Region)
    (t : Tier) :
    warmItem s e r t = if e.1 = seriesKey r t then (s r t).warm e.2 else s r t := by
  unfold warmItem
  cases hkey : seriesOf e.1 with
  | none =>
    have hne : e.1 ≠ seriesKey r t := by
      intro h
      rw [seriesOf_eq_some.mpr h] at hkey
      cases hkey
    rw [if_neg hne]
  | some k =>
    obtain ⟨r', t'⟩ := k
    have hsame : e.1 = seriesKey r t ↔ r = r' ∧ t = t' := by
      rw [← seriesOf_eq_some, hkey, Option.some.injEq, Prod.mk.injEq, eq_comm, @eq_comm _ t']
    by_cases h : r = r' ∧ t = t'
    · obtain ⟨rfl, rfl⟩ := h
      rw [if_pos (hsame.mpr ⟨rfl, rfl⟩)]
      exact if_pos ⟨rfl, rfl⟩
    · rw [if_neg fun he => h (hsame.mp he)]
      exact if_neg h

variable {p : Params} (hs : List Warmth) (us : ℕ → Tick p) (r : Region) (t : Tier)

/-- The rates that the warm-up and the first `n` ticks give, the oldest first. -/
def seen (n : ℕ) : List ℚ :=
  hs.flatMap (fun w => (w.get? (seriesKey r t)).getD []) ++ (List.range n).map (observed us r t)

/-- What of them the history holds. -/
def held (n : ℕ) : List ℚ := (seen hs us r t n).rtake p.maxHistory

theorem seen_succ (n : ℕ) : seen hs us r t (n + 1) = seen hs us r t n ++ [observed us r t n] := by
  rw [seen, List.range_succ, List.map_append, ← List.append_assoc]
  rfl

/-- What a warm-up makes of one region and tier. -/
theorem warmUp_apply (s : HoltWintersPredictor p) (w : Warmth) :
    warmUp s w r t = ((w.get? (seriesKey r t)).map (s r t).warm).getD (s r t) :=
  Dict.foldl_entries (fun s : HoltWintersPredictor p => s r t)
    (fun s e => warmItem_apply s e r t) w s

theorem warmed_history :
    (warmed (p := p) hs r t).history.val =
      (hs.flatMap fun w => (w.get? (seriesKey r t)).getD []).rtake p.maxHistory := by
  suffices h : ∀ s : HoltWintersPredictor p, (hs.foldl warmUp s r t).history.val =
      ((s r t).history.val ++ hs.flatMap fun w => (w.get? (seriesKey r t)).getD []).rtake
        p.maxHistory from h new
  induction hs with
  | nil =>
    intro s
    rw [List.flatMap_nil, List.append_nil, rtake_eq_self (s r t).history.property, List.foldl_nil]
  | cons w hs ih =>
    intro s
    have hone : (warmUp s w r t).history.val =
        ((s r t).history.val ++ (w.get? (seriesKey r t)).getD []).rtake p.maxHistory := by
      rw [warmUp_apply]
      cases w.get? (seriesKey r t) with
      | none => exact Series.warm_history (s r t) []
      | some series => exact Series.warm_history (s r t) series
    rw [List.foldl_cons, ih, hone, rtake_append_rtake, List.append_assoc, List.flatMap_cons]

theorem history_eq (n : ℕ) : (before hs us n r t).history.val = held hs us r t n := by
  induction n with
  | zero =>
    rw [held, seen, List.range_zero, List.map_nil, List.append_nil]
    exact warmed_history hs r t
  | succ n ih =>
    show ((before hs us n r t).update _ (observed us r t n)).2.history.val = _
    rw [(Series.update_frame _ _ _).1]
    show ((before hs us n r t).history.val ++ [observed us r t n]).rtake p.maxHistory = _
    rw [ih, held, rtake_append_rtake, ← seen_succ, held]

/-- What the history holds behind tick `n`. -/
theorem append_eq (n : ℕ) :
    ((before hs us n r t).history.append (observed us r t n)).val = held hs us r t (n + 1) := by
  rw [← history_eq]
  exact congrArg Subtype.val (Series.update_frame _ _ _).1.symm

theorem length_held (n : ℕ) :
    (held hs us r t n).length = min ((seen hs us r t 0).length + n) p.maxHistory := by
  simp [held, seen, length_rtake]

theorem full_iff (n : ℕ) :
    (before hs us n r t).Full (observed us r t n) ↔
      p.minFit ≤ (held hs us r t (n + 1)).length := by
  rw [← append_eq]
  rfl

/-! ## The flag -/

/-- The forest fitted at tick `i`, if the history is full then. -/
def trained (i : ℕ) : Option (ℚ → Bool) :=
  if p.minFit ≤ (held hs us r t (i + 1)).length then
    some (((us i).models r t).forest (held hs us r t (i + 1)))
  else none

/-- The last tick up to `n` at which a fit is due. -/
def lastDue (p : Params) (n : ℕ) : ℕ := n / p.retrainEvery * p.retrainEvery

theorem lastDue_le (n : ℕ) : lastDue p n ≤ n := Nat.div_mul_le_self n _

theorem lastDue_of_due {n : ℕ} (h : n % p.retrainEvery = 0) : lastDue p n = n :=
  Nat.div_mul_cancel (Nat.dvd_of_mod_eq_zero h)

theorem lastDue_succ {n : ℕ} (h : (n + 1) % p.retrainEvery ≠ 0) :
    lastDue p (n + 1) = lastDue p n := by
  have hdvd : ¬ p.retrainEvery ∣ n + 1 := fun hd => h (Nat.mod_eq_zero_of_dvd hd)
  rw [lastDue, Nat.succ_div, if_neg hdvd, Nat.add_zero, lastDue]

/-- A history that is short now was short before. -/
theorem trained_eq_none {i n : ℕ} (hin : i ≤ n)
    (h : ¬ p.minFit ≤ (held hs us r t (n + 1)).length) : trained hs us r t i = none := by
  refine if_neg fun hi => h (hi.trans ?_)
  rw [length_held, length_held]
  omega

/-- Behind tick `n` the forest is that of the last tick at which a fit was due. -/
theorem iso_eq (n : ℕ) :
    (before hs us (n + 1) r t).iso = trained hs us r t (lastDue p n) := by
  have hstep : ∀ n, (before hs us (n + 1) r t).iso =
      if p.minFit ≤ (held hs us r t (n + 1)).length ∧ n % p.retrainEvery = 0 then
        some (((us n).models r t).forest (held hs us r t (n + 1)))
      else (before hs us n r t).iso := by
    intro n
    rw [← append_eq]
    have h := Series.update_iso ((us n).models r t) (before hs us n r t) (observed us r t n)
    rwa [before_tick] at h
  induction n with
  | zero =>
    have hnone : (before hs us 0 r t).iso = none :=
      warmed_invariant (P := fun s => s.iso = none) rfl
        (fun s xs h => (Series.warm_iso s xs).trans h) hs r t
    rw [hstep, hnone, lastDue_of_due (Nat.zero_mod _), trained]
    exact if_congr (and_iff_left (Nat.zero_mod _)) rfl rfl
  | succ n ih =>
    rw [hstep]
    by_cases hdue : (n + 1) % p.retrainEvery = 0
    · rw [lastDue_of_due hdue]
      by_cases hfull : p.minFit ≤ (held hs us r t (n + 1 + 1)).length
      · rw [if_pos ⟨hfull, hdue⟩, trained, if_pos hfull]
      · have hle : lastDue p n ≤ n + 1 := (lastDue_le n).trans n.le_succ
        rw [if_neg fun h => hfull h.1, ih, trained_eq_none hs us r t hle hfull,
          trained_eq_none hs us r t le_rfl hfull]
    · rw [if_neg fun h => hdue h.2, ih, lastDue_succ hdue]

/-- **What a flag means.** Tick `n` flags its rate exactly if the series held enough values
at the last tick at which a fit was due, and the forest fitted to the last `maxHistory`
values up to that tick takes the rate for an outlier. -/
theorem anomaly_iff (n : ℕ) :
    (((before hs us n).update (us n)).1 r t).anomaly = true ↔
      p.minFit ≤ (held hs us r t (lastDue p n + 1)).length ∧
        ((us (lastDue p n)).models r t).forest (held hs us r t (lastDue p n + 1))
          (observed us r t n) = true := by
  have hflag := Series.update_anomaly ((us n).models r t) (before hs us n r t) (observed us r t n)
  have hiso : ((before hs us n r t).update ((us n).models r t) (observed us r t n)).2.iso =
      trained hs us r t (lastDue p n) := iso_eq hs us r t n
  have hle : lastDue p n ≤ n := lastDue_le n
  show ((before hs us n r t).update ((us n).models r t) (observed us r t n)).1.anomaly = true ↔ _
  rw [hflag, hiso, Bool.and_eq_true, decide_eq_true_iff, full_iff]
  generalize lastDue p n = i at hle ⊢
  by_cases hfull : p.minFit ≤ (held hs us r t (i + 1)).length
  · have hnow : p.minFit ≤ (held hs us r t (n + 1)).length := by
      by_contra h
      have hnone := trained_eq_none hs us r t hle h
      rw [trained, if_pos hfull] at hnone
      cases hnone
    rw [trained, if_pos hfull, Option.any_some, and_iff_right hnow, and_iff_right hfull]
  · rw [trained, if_neg hfull, Option.any_none]
    simp [hfull]

end HoltWintersPredictor

/-! ## The range of a forecast -/

namespace Predictor

variable {alpha b : ℚ} (h0 : 0 ≤ alpha) (h1 : alpha ≤ 1)

include h0 h1

theorem average_mem {prev x : ℚ} (hprev : prev ∈ Set.Icc 0 b) (hx : x ∈ Set.Icc 0 b) :
    alpha * x + (1 - alpha) * prev ∈ Set.Icc 0 b := by
  have h1' : 0 ≤ 1 - alpha := sub_nonneg.mpr h1
  have hxb := mul_le_mul_of_nonneg_left hx.2 h0
  have hprevb := mul_le_mul_of_nonneg_left hprev.2 h1'
  exact ⟨add_nonneg (mul_nonneg h0 hx.1) (mul_nonneg h1' hprev.1), by linarith⟩

theorem smooth_mem {prev x : ℚ} (hprev : prev ∈ Set.Icc 0 b) (hx : x ∈ Set.Icc 0 b) :
    smooth alpha prev x ∈ Set.Icc 0 b := by
  unfold smooth
  split_ifs
  · exact average_mem h0 h1 hprev hx
  · exact hx

theorem seed_mem {series : List ℚ} (hseries : ∀ x ∈ series, x ∈ Set.Icc 0 b) {ewma : ℚ}
    (h : seed alpha series = some ewma) : ewma ∈ Set.Icc 0 b := by
  cases series with
  | nil => cases h
  | cons x xs =>
    obtain rfl := Option.some.inj h
    rw [List.forall_mem_cons] at hseries
    exact List.foldlRecOn xs _ hseries.1 fun ewma hewma val hval =>
      average_mem h0 h1 hewma (hseries.2 val hval)

end Predictor

namespace HoltWinters

/-- All that a series may forecast from is between 0 and `b`. -/
structure Series.Within {p : Params} (b : ℚ) (s : Series p) : Prop where
  history : ∀ x ∈ s.history.val, x ∈ Set.Icc 0 b
  hwCache : ∀ v ∈ s.hwCache, v ∈ Set.Icc 0 b
  ewma : s.ewma ∈ Set.Icc 0 b

namespace Series

variable {p : Params} {b : ℚ} {s : Series p}

theorem Within.append (h : s.Within b) {x : ℚ} (hx : x ∈ Set.Icc 0 b) :
    ∀ y ∈ (s.history.append x).val, y ∈ Set.Icc 0 b := by
  intro y hy
  rcases List.mem_append.mp (List.mem_of_mem_drop hy) with hy | hy
  · exact h.history y hy
  · rwa [List.mem_singleton.mp hy]

theorem Within.last {n : ℕ} {h : History n} (hb : 0 ≤ b) (hh : ∀ x ∈ h.val, x ∈ Set.Icc 0 b) :
    h.last ∈ Set.Icc 0 b := by
  unfold History.last
  cases hlast : h.val.getLast? with
  | none => exact ⟨le_rfl, hb⟩
  | some x => exact hh x (List.mem_of_getLast? hlast)

/-- A fit's forecasts are clipped at zero. -/
theorem Within.refreshed (h : s.Within b) (hb : 0 ≤ b) {m : Models p} {x : ℚ}
    (hfit : ∀ fs, s.fitted m x = some fs → ∀ v ∈ fs.val, v ≤ b) :
    ∀ v ∈ s.refreshed m x, v ∈ Set.Icc 0 b := by
  unfold Series.refreshed
  cases hf : s.fitted m x with
  | none => exact h.hwCache
  | some fs =>
    intro v hv
    obtain ⟨w, hw, rfl⟩ := List.mem_map.mp hv
    exact ⟨le_max_left 0 w, max_le hb (hfit fs hf w hw)⟩

section Step

variable (h0 : 0 ≤ p.alpha) (h1 : p.alpha ≤ 1)

include h0 h1

theorem Within.warm (h : s.Within b) {series : List ℚ}
    (hseries : ∀ x ∈ series, x ∈ Set.Icc 0 b) : (s.warm series).Within b := by
  refine ⟨fun x hx => ?_, ?_, ?_⟩
  · rw [warm_history] at hx
    exact (List.mem_append.mp (List.mem_of_mem_drop hx)).elim (h.history x) (hseries x)
  · cases series <;> exact h.hwCache
  · cases series with
    | nil => exact h.ewma
    | cons x xs => exact seed_mem h0 h1 hseries rfl

/-- A tick keeps the bounds, and its forecast is within them. -/
theorem Within.update (h : s.Within b) (hb : 0 ≤ b) {m : Models p} {x : ℚ} (hx : x ∈ Set.Icc 0 b)
    (hfit : ∀ fs, s.fitted m x = some fs → ∀ v ∈ fs.val, v ≤ b) :
    s.predicted m x ∈ Set.Icc 0 b ∧ (s.update m x).2.Within b := by
  have hhistory : ∀ y ∈ (s.update m x).2.history.val, y ∈ Set.Icc 0 b := by
    rw [(update_frame m s x).1]
    exact h.append hx
  have hsmooth : smooth p.alpha s.ewma (s.history.append x).last ∈ Set.Icc 0 b :=
    smooth_mem h0 h1 h.ewma (Within.last hb (h.append hx))
  have hcache := h.refreshed hb hfit
  cases s.effect m x with
  | short _ hpred hsame hewma =>
    rw [← hpred] at hsmooth
    exact ⟨hsmooth, hhistory, hsame ▸ h.hwCache, hewma ▸ hsmooth⟩
  | cached v cache _ hr hpred hrest hewma =>
    rw [hr, List.forall_mem_cons] at hcache
    exact ⟨hpred ▸ hcache.1, hhistory, hrest ▸ hcache.2, hewma ▸ h.ewma⟩
  | empty _ _ hpred hnil hewma =>
    rw [← hpred] at hsmooth
    exact ⟨hsmooth, hhistory, by simp [hnil], hewma ▸ hsmooth⟩

end Step

end Series

end HoltWinters

namespace HoltWintersPredictor

section Range

variable {p : Params} (h0 : 0 ≤ p.alpha) (h1 : p.alpha ≤ 1) {b : ℚ} {hs : List Warmth}
  {us : ℕ → Tick p} {r : Region} {t : Tier}

include h0 h1

theorem warmed_within (hb : 0 ≤ b) (hseen : ∀ x ∈ seen hs us r t 0, x ∈ Set.Icc 0 b) :
    (warmed (p := p) hs r t).Within b := by
  have hnew : (new (p := p) r t).Within b := ⟨nofun, nofun, le_rfl, hb⟩
  refine List.foldlRecOn (motive := fun s : HoltWintersPredictor p => (s r t).Within b) hs warmUp
    hnew fun s h w hw => ?_
  rw [warmUp_apply]
  cases hget : w.get? (seriesKey r t) with
  | none => exact h
  | some series =>
    refine h.warm h0 h1 fun x hx => hseen x (List.mem_append_left _ ?_)
    exact List.mem_flatMap.mpr ⟨w, hw, by rwa [hget]⟩

theorem before_within (hb : 0 ≤ b) (n : ℕ) (hseen : ∀ x ∈ seen hs us r t n, x ∈ Set.Icc 0 b)
    (hfits : ∀ i < n, ∀ fs, fits hs us r t i = some fs → ∀ v ∈ fs.val, v ≤ b) :
    (before hs us n r t).Within b := by
  induction n with
  | zero => exact warmed_within h0 h1 hb hseen
  | succ n ih =>
    rw [seen_succ, List.forall_mem_append, List.forall_mem_singleton] at hseen
    have h := ih hseen.1 fun i hi => hfits i (Nat.lt_succ_of_lt hi)
    exact (h.update h0 h1 hb hseen.2 (hfits n (Nat.lt_succ_self n))).2

end Range

end HoltWintersPredictor

end Gdrl
