import Gdrl.Envelope
import Gdrl.Gateway
import Mathlib.Algebra.Order.Floor.Ring
import Mathlib.Data.Rat.Floor
import Mathlib.Tactic.FieldSimp
import Mathlib.Tactic.Linarith

/-!
# The reconciler's clock

`Reconciler.run` makes a pass, sleeps for a period, and makes the next. A pass goes over
two windows, the one of the clock and the one before, and takes no time here. The admin
surface may change the period, which the sleep that is under way does not notice.

A window is reconciled when it is over only by a tick that falls into the minute behind
it (`reconciled_ticks_iff`). With periods of up to a minute such a tick always comes
(`reconciled_forall_iff`), with longer ones it depends on how the ticks fall.
-/

namespace Gdrl

/-- `Reconciler`, between two of its passes : the period, when the sleep is over, and the
calls of `reconcile_once` so far, each with its time and its window. -/
structure Reconciler where
  periodS : ℤ
  wake : ℚ
  passes : List (ℚ × ℤ)

namespace Reconciler

/-- `Reconciler.run` from `t` on. The first pass is made at once. -/
def start (periodS : ℤ) (t : ℚ) : Reconciler := ⟨periodS, t, []⟩

/-- `Reconciler.set_period` -/
def setPeriod (s : Reconciler) (periodS : ℤ) : Reconciler := { s with periodS }

/-- The windows of a pass, in order. -/
def windows (t : ℚ) : List ℤ := [⌊t / 60⌋, ⌊t / 60⌋ - 1]

/-- `Reconciler._tick`, and the sleep behind it. -/
def tick (s : Reconciler) : Reconciler :=
  { s with
    wake := s.wake + s.periodS
    passes := s.passes ++ (windows s.wake).map fun w => (s.wake, w) }

/-- What `isinstance(v, int)` lets through, which takes in the truth values. -/
def asInt : Json → Option ℤ
  | .int n => some n
  | .bool b => some (if b then 1 else 0)
  | _ => none

/-- `POST /admin/config` : the new period, or the detail of a 400. -/
def config (body : List (Str × Json)) : Except Str ℤ :=
  match asInt (field body (str "reconcile_period_s")) with
  | none => .error (str "reconcile_period_s must be int in [10, 300]")
  | some period =>
    if period < 10 ∨ 300 < period then
      .error (str "reconcile_period_s must be int in [10, 300]")
    else .ok period

theorem config_range {body : List (Str × Json)} {p : ℤ} (h : config body = .ok p) :
    10 ≤ p ∧ p ≤ 300 := by
  unfold config at h
  split at h
  · exact absurd h (by simp)
  · split_ifs at h with hp
    rw [← Except.ok.inj h]
    omega

/-- What the reconciler meets. -/
inductive Event
  | tick
  | config (body : List (Str × Json))

def step (s : Reconciler) : Event → Reconciler
  | .tick => s.tick
  | .config body =>
    match Reconciler.config body with
    | .ok p => s.setPeriod p
    | .error _ => s

/-- The reconciler and its admin surface. -/
abbrev Step (s : Reconciler) (e : Event) (s' : Reconciler) : Prop := s' = s.step e

/-- Some pass has gone over the window when it was over. -/
def Reconciled (s : Reconciler) (w : ℤ) : Prop := ∃ t, (t, w) ∈ s.passes ∧ 60 * (w + 1) ≤ t

/-! ## Passes and windows -/

theorem mem_windows {t : ℚ} {w : ℤ} :
    w ∈ windows t ↔ 60 * (w : ℚ) ≤ t ∧ t < 60 * (w + 2) := by
  have hfloor : ∀ n : ℤ, n = ⌊t / 60⌋ ↔ 60 * (n : ℚ) ≤ t ∧ t < 60 * (n + 1) := by
    intro n
    rw [eq_comm, Int.floor_eq_iff, le_div_iff₀ (by norm_num), div_lt_iff₀ (by norm_num),
      mul_comm (n : ℚ), mul_comm ((n : ℚ) + 1)]
  have hprev : w = ⌊t / 60⌋ - 1 ↔ 60 * ((w : ℚ) + 1) ≤ t ∧ t < 60 * (w + 2) := by
    have h := hfloor (w + 1)
    push_cast at h
    rw [add_assoc, one_add_one_eq_two] at h
    rw [← h]
    omega
  simp only [windows, List.mem_cons, List.not_mem_nil, or_false, hfloor, hprev]
  constructor
  · rintro (⟨h1, h2⟩ | ⟨h1, h2⟩)
    · exact ⟨h1, by linarith⟩
    · exact ⟨by linarith, h2⟩
  · rintro ⟨h1, h2⟩
    rcases lt_or_ge t (60 * ((w : ℚ) + 1)) with h | h
    · exact Or.inl ⟨h1, h⟩
    · exact Or.inr ⟨h, h2⟩

/-- A pass reaches a window that is over in the minute behind it only. -/
theorem reconciled_tick {s : Reconciler} {w : ℤ} :
    s.tick.Reconciled w ↔
      s.Reconciled w ∨ 60 * ((w : ℚ) + 1) ≤ s.wake ∧ s.wake < 60 * (w + 2) := by
  simp only [Reconciled, tick, List.mem_append, List.mem_map, Prod.mk.injEq]
  constructor
  · rintro ⟨t, h | ⟨v, hv, rfl, rfl⟩, hle⟩
    · exact Or.inl ⟨t, h, hle⟩
    · exact Or.inr ⟨hle, (mem_windows.mp hv).2⟩
  · rintro (⟨t, h, hle⟩ | ⟨h1, h2⟩)
    · exact ⟨t, Or.inl h, hle⟩
    · exact ⟨s.wake, Or.inr ⟨w, mem_windows.mpr ⟨by linarith, h2⟩, rfl, rfl⟩, h1⟩

theorem step_config (s : Reconciler) (body : List (Str × Json)) :
    s.step (.config body) = s ∨
      ∃ p, config body = .ok p ∧ s.step (.config body) = s.setPeriod p := by
  rw [step]
  cases config body with
  | error e => exact Or.inl rfl
  | ok p => exact Or.inr ⟨p, rfl, rfl⟩

/-! ## Short periods -/

/-- While the period is at most a minute and the ticks have not passed a window by, it is
still to come or reconciled. -/
def Ahead (w : ℤ) (s : Reconciler) : Prop :=
  s.periodS ≤ 60 ∧ (s.wake < 60 * (w + 2) ∨ s.Reconciled w)

theorem Ahead.tick {w : ℤ} {s : Reconciler} (h : s.Ahead w) : s.tick.Ahead w := by
  have hp : (s.periodS : ℚ) ≤ 60 := by exact_mod_cast h.1
  refine ⟨h.1, ?_⟩
  rw [reconciled_tick]
  rcases h.2 with hwake | hdone
  · rcases lt_or_ge s.wake (60 * ((w : ℚ) + 1)) with hlt | hge
    · refine Or.inl ?_
      show s.wake + s.periodS < 60 * (w + 2)
      linarith
    · exact Or.inr (Or.inr ⟨hge, hwake⟩)
  · exact Or.inr (Or.inl hdone)

/-- A step that asks for no period above a minute. -/
def Event.Short : Event → Prop
  | .tick => True
  | .config body => ∀ p, Reconciler.config body = .ok p → p ≤ 60

theorem Ahead.step {w : ℤ} {s : Reconciler} {e : Event} (h : s.Ahead w) (he : e.Short) :
    (s.step e).Ahead w := by
  cases e with
  | tick => exact h.tick
  | config body =>
    rcases s.step_config body with heq | ⟨p, hp, heq⟩
    · rw [heq]
      exact h
    · rw [heq]
      exact ⟨he p hp, h.2⟩

/-- Where no period is above a minute, no window that was not over for a minute at the
start escapes, whatever else is asked of the admin surface. -/
theorem reconciled_of_short {p : ℤ} {t₀ : ℚ} {w : ℤ} (hp : p ≤ 60) (ht : t₀ < 60 * (w + 2))
    {es : List Event} {s : Reconciler}
    (h : Run (fun s e s' => Step s e s' ∧ e.Short) (start p t₀) es s)
    (hs : 60 * (w + 2) ≤ s.wake) : s.Reconciled w := by
  have hahead : s.Ahead w := by
    refine h.invariant (I := Ahead w) (fun s e s' hI hstep => ?_) ⟨hp, Or.inl ht⟩
    rw [hstep.1]
    exact hI.step hstep.2
  exact hahead.2.resolve_left (not_lt.mpr hs)

/-! ## One period -/

/-- The reconciler after `n` passes. -/
def ticks (p : ℤ) (t₀ : ℚ) (n : ℕ) : Reconciler := tick^[n] (start p t₀)

theorem ticks_succ (p : ℤ) (t₀ : ℚ) (n : ℕ) : ticks p t₀ (n + 1) = (ticks p t₀ n).tick :=
  Function.iterate_succ_apply' _ _ _

theorem ticks_clock (p : ℤ) (t₀ : ℚ) (n : ℕ) :
    (ticks p t₀ n).periodS = p ∧ (ticks p t₀ n).wake = t₀ + n * p := by
  induction n with
  | zero => exact ⟨rfl, by simp [ticks, start]⟩
  | succ n ih =>
    rw [ticks_succ]
    refine ⟨ih.1, ?_⟩
    rw [tick, ih.1, ih.2]
    push_cast
    ring

/-- A window is reconciled when it is over exactly if a tick falls into the minute behind
it. -/
theorem reconciled_ticks_iff {p : ℤ} {t₀ : ℚ} {w : ℤ} :
    (∃ n, (ticks p t₀ n).Reconciled w) ↔
      ∃ i : ℕ, 60 * ((w : ℚ) + 1) ≤ t₀ + i * p ∧ t₀ + i * p < 60 * (w + 2) := by
  constructor
  · rintro ⟨n, h⟩
    induction n with
    | zero =>
      obtain ⟨t, hmem, -⟩ := h
      exact absurd hmem List.not_mem_nil
    | succ n ih =>
      rw [ticks_succ, reconciled_tick, (ticks_clock p t₀ n).2] at h
      exact h.elim ih fun h => ⟨n, h⟩
  · rintro ⟨i, h⟩
    refine ⟨i + 1, ?_⟩
    rw [ticks_succ, reconciled_tick, (ticks_clock p t₀ i).2]
    exact Or.inr h

/-- The first of the ticks `x`, `x + 1`, … that is not negative is below `c`. -/
theorem exists_tick_iff {x c : ℚ} :
    (∃ i : ℕ, 0 ≤ x + i ∧ x + i < c) ↔ (0 ≤ x → x < c) ∧ (x < 0 → Int.fract x < c) := by
  constructor
  · rintro ⟨i, h1, h2⟩
    refine ⟨fun _ => ?_, fun _ => ?_⟩
    · have hi : (0 : ℚ) ≤ i := Nat.cast_nonneg i
      linarith
    · have hfloor : -(i : ℤ) ≤ ⌊x⌋ := by
        rw [Int.le_floor]
        push_cast
        linarith
      have hcast : -(i : ℚ) ≤ (⌊x⌋ : ℚ) := by exact_mod_cast hfloor
      rw [Int.fract]
      linarith
  · rintro ⟨h1, h2⟩
    rcases le_or_gt 0 x with hx | hx
    · exact ⟨0, by simpa using hx, by simpa using h1 hx⟩
    · have hneg : ⌊x⌋ ≤ 0 := Int.floor_nonpos hx.le
      have hcast : ((-⌊x⌋).toNat : ℚ) = -(⌊x⌋ : ℚ) := by
        have h : ((-⌊x⌋).toNat : ℤ) = -⌊x⌋ := Int.toNat_of_nonneg (by omega)
        exact_mod_cast h
      have hfract : x + ((-⌊x⌋).toNat : ℚ) = Int.fract x := by
        rw [hcast, Int.fract, sub_eq_add_neg]
      exact ⟨(-⌊x⌋).toNat, hfract ▸ Int.fract_nonneg x, hfract ▸ h2 hx⟩

theorem reconciled_iff_of_pos {p : ℤ} (hp : 0 < p) (t₀ : ℚ) (w : ℤ) :
    (∃ n, (ticks p t₀ n).Reconciled w) ↔
      (60 * (w + 1) ≤ t₀ → t₀ < 60 * (w + 2)) ∧
      (t₀ < 60 * (w + 1) → p * Int.fract ((t₀ - 60 * (w + 1)) / p) < 60) := by
  have hpos : (0 : ℚ) < p := by exact_mod_cast hp
  -- the ticks, counted in periods from the end of the window
  obtain ⟨x, hx⟩ : ∃ x, x = (t₀ - 60 * (w + 1)) / p := ⟨_, rfl⟩
  have ht : t₀ = 60 * (w + 1) + x * p := by
    rw [hx, div_mul_cancel₀ _ hpos.ne']
    ring
  have hend : ∀ y : ℚ, 60 * ((w : ℚ) + 1) ≤ 60 * (w + 1) + y * p ↔ 0 ≤ y := fun y => by
    rw [le_add_iff_nonneg_right, mul_nonneg_iff_of_pos_right hpos]
  have hnext : ∀ y : ℚ, 60 * ((w : ℚ) + 1) + y * p < 60 * (w + 2) ↔ y < 60 / p := fun y => by
    rw [lt_div_iff₀ hpos]
    constructor <;> intro h <;> linarith
  have htick : ∀ i : ℕ, t₀ + i * p = 60 * (w + 1) + (x + i) * p := fun i => by
    rw [ht]
    ring
  simp only [reconciled_ticks_iff, htick, hend, hnext]
  rw [exists_tick_iff, ← hx, ← hend x, ← hnext x, ← ht, lt_div_iff₀' hpos]
  refine and_congr_right fun _ => ?_
  rw [← not_le, ← hend x, ← ht, not_le]

/-- **No window escapes.** Some pass goes over a window when it is over exactly if the
window was over for less than a minute at the start, or, where it was not over yet, the
first tick behind its end comes within a minute of it. -/
theorem reconciled_iff {body : List (Str × Json)} {p : ℤ} (hp : config body = .ok p) (t₀ : ℚ)
    (w : ℤ) :
    (∃ n, (ticks p t₀ n).Reconciled w) ↔
      (60 * (w + 1) ≤ t₀ → t₀ < 60 * (w + 2)) ∧
      (t₀ < 60 * (w + 1) → p * Int.fract ((t₀ - 60 * (w + 1)) / p) < 60) :=
  reconciled_iff_of_pos (by linarith [(config_range hp).1]) t₀ w

/-- With a period of a minute from the first second on, window 1 does not escape. -/
theorem reconciled_iff_sample :
    config [(str "reconcile_period_s", .int 60)] = .ok 60 ∧
      ∃ n, (ticks 60 0 n).Reconciled 1 := by
  have hp : config [(str "reconcile_period_s", .int 60)] = .ok 60 := by decide
  refine ⟨hp, (reconciled_iff hp 0 1).mpr ⟨fun _ => by norm_num, fun _ => ?_⟩⟩
  have hfract : Int.fract (((0 : ℚ) - 60 * ((1 : ℤ) + 1)) / (60 : ℤ)) = 0 :=
    Int.fract_eq_iff.mpr ⟨le_rfl, one_pos, -2, by norm_num⟩
  rw [hfract]
  norm_num

/-- The demo's period of five minutes. A request is counted in window 1, and no pass goes
over that window when it is over. -/
theorem window_escapes :
    (∃ s, Run (Steps Cluster.step) .init
      (Cluster.handling 0 .us .free Cluster.sampleUser 60) s ∧
      (s.globals .us (globalKey (str "free") (str "u_1") 1)).slots .us = some 1) ∧
    config [(str "reconcile_period_s", .int 300)] = .ok 300 ∧
    ¬ ∃ n, (ticks 300 0 n).Reconciled 1 := by
  refine ⟨?_, by decide, ?_⟩
  · have hslot : (exec Cluster.step .init
        (Cluster.handling 0 .us .free Cluster.sampleUser 60)).map
        (fun s => (s.globals .us (globalKey (str "free") (str "u_1") 1)).slots .us) =
          some (some 1) := by decide +kernel
    obtain ⟨s, hs, hone⟩ := Option.map_eq_some_iff.mp hslot
    exact ⟨s, run_of_exec hs, hone⟩
  · rw [reconciled_ticks_iff]
    rintro ⟨i, h1, h2⟩
    norm_num at h1 h2
    have hlow : (120 : ℤ) ≤ i * 300 := by exact_mod_cast h1
    have hhigh : (i : ℤ) * 300 < 180 := by exact_mod_cast h2
    omega

/-- The periods that lose no window to come, however the ticks fall, are those of at most
a minute. -/
theorem reconciled_forall_iff {p : ℤ} (hp : 0 < p) :
    (∀ (t₀ : ℚ) (w : ℤ), t₀ < 60 * (w + 2) → ∃ n, (ticks p t₀ n).Reconciled w) ↔ p ≤ 60 := by
  have hpos : (0 : ℚ) < p := by exact_mod_cast hp
  constructor
  · intro h
    by_contra hgt
    have hlt : (60 : ℚ) < p := by exact_mod_cast not_le.mp hgt
    -- one tick just before the end of window 0, and the next a minute behind it
    have hoff : ((120 - p : ℚ) - 60 * ((0 : ℤ) + 1)) / p = 60 / p + (-1 : ℤ) := by
      field_simp
      push_cast
      ring
    have hfract : Int.fract (((120 - p : ℚ) - 60 * ((0 : ℤ) + 1)) / p) = 60 / p := by
      rw [hoff, Int.fract_add_intCast]
      exact Int.fract_eq_self.mpr ⟨by positivity, by rwa [div_lt_one hpos]⟩
    have hdone := h (120 - p) 0 (by push_cast; linarith)
    rw [reconciled_iff_of_pos hp] at hdone
    have hwait := hdone.2 (by push_cast; linarith)
    rw [hfract, mul_div_cancel₀ _ hpos.ne'] at hwait
    exact lt_irrefl _ hwait
  · intro hle t₀ w ht
    have hle' : (p : ℚ) ≤ 60 := by exact_mod_cast hle
    rw [reconciled_iff_of_pos hp]
    refine ⟨fun _ => ht, fun _ => lt_of_lt_of_le ?_ hle'⟩
    exact mul_lt_of_lt_one_right hpos (Int.fract_lt_one _)

end Reconciler

end Gdrl
