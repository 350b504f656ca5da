import Gdrl.Counted
import Gdrl.Ticks

/-!
# The life of a window's keys

Gateway and sync both set the expiry of a `rl:global` key, the one to 120 s from its
request, the other to 300 s from its merge, and the later write counts. `Clocked` is the
cluster on one clock. There whoever sets the expiry of a window's key does so no earlier
than the window starts, so the key lives to the end of the next window (`Lives`), and until
then the region's own slot holds all requests that it has counted (`slot_survives`). A
request at the start of its window leaves no margin.
-/

namespace Gdrl

/-- The cluster and the time in milliseconds. -/
structure Clocked where
  nowMs : ℤ
  cluster : Cluster

namespace Clocked

/-- The event goes by the common clock. A request reads its window no later than it counts, and
sync merges a slot no earlier than its window starts. -/
def OnTime (nowMs : ℤ) : Cluster.Event → Prop
  | .incr _ unix _ => 1000 * unix ≤ nowMs ∧ unix.tdiv 60 = unix / 60
  | .expire _ redisMs _ => redisMs = nowMs
  | .merge _ w redisMs => redisMs = nowMs ∧ 60000 * w.windowId ≤ nowMs
  | .evict _ _ redisMs => redisMs = nowMs
  | _ => True

instance (nowMs : ℤ) (e : Cluster.Event) : Decidable (OnTime nowMs e) :=
  match e with
  | .incr _ unix _ =>
    inferInstanceAs (Decidable (1000 * unix ≤ nowMs ∧ unix.tdiv 60 = unix / 60))
  | .expire _ redisMs _ => inferInstanceAs (Decidable (redisMs = nowMs))
  | .merge _ w redisMs =>
    inferInstanceAs (Decidable (redisMs = nowMs ∧ 60000 * w.windowId ≤ nowMs))
  | .evict _ _ redisMs => inferInstanceAs (Decidable (redisMs = nowMs))
  | .refresh .. | .start .. | .decide .. | .publish .. | .read .. =>
    inferInstanceAs (Decidable True)

/-- One step at a time, `none` where the clock would go back. -/
def step (s : Clocked) (e : ℤ × Cluster.Event) : Option Clocked :=
  if s.nowMs ≤ e.1 ∧ OnTime e.1 e.2 then (s.cluster.step e.2).map fun c => ⟨e.1, c⟩ else none

/-- Some run from the start leads to it. -/
abbrev Reached (s : Clocked) : Prop := Reachable (∃ t₀, · = ⟨t₀, .init⟩) (Steps step) s

/-- The keys of each window live to the end of the next one. -/
structure Lives (s : Clocked) : Prop where
  sane : ∀ c ∈ s.cluster.checks, c.Sane
  begun : ∀ c ∈ s.cluster.checks, c.stage = .counted → 60000 * c.windowId ≤ s.nowMs
  expiry : ∀ q tier user w, ∀ ms ∈ (s.cluster.globals q (globalKey tier user w)).expireAtMs,
    60000 * (w + 2) ≤ ms
  full : ∀ r tier user w, s.nowMs < 60000 * (w + 2) →
    (s.cluster.globals r (globalKey tier user w)).slot r =
      s.cluster.counted r (globalKey tier user w)

theorem lives_init (t₀ : ℤ) : Lives ⟨t₀, .init⟩ where
  sane := by simp [Cluster.init]
  begun := by simp [Cluster.init]
  expiry q tier user w ms h := absurd h (by simp [Cluster.init, Hash.empty])
  full r tier user w _ := rfl

theorem Lives.begun_step {s : Clocked} (h : s.Lives) {cl : Cluster} {e : Cluster.Event} {now : ℤ}
    (hnow : s.nowMs ≤ now) (htime : OnTime now e) (heff : Cluster.Effect s.cluster cl e) :
    ∀ c ∈ cl.checks, c.stage = .counted → 60000 * c.windowId ≤ now := by
  refine heff.forall_checks (fun c hc hstage => (h.begun c hc hstage).trans hnow)
    (fun c _ _ hresolved hstage => ?_) fun i c d hi hu hstage => ?_
  · rw [hresolved] at hstage
    exact absurd hstage nofun
  · cases hu with
    | incr n hash stage hunix hdecided hincr hnext hg =>
      obtain ⟨hread, hdiv⟩ := htime
      dsimp only
      omega
    | decide reply stage hresolved hnext =>
      rcases hnext with ⟨rfl, -⟩ | ⟨-, resp, rfl, -⟩ <;> exact absurd hstage nofun
    | skip | expire | publish | read => exact absurd hstage nofun

theorem Lives.expiry_step {s : Clocked} (h : s.Lives) {cl : Cluster} {e : Cluster.Event} {now : ℤ}
    (hnow : s.nowMs ≤ now) (htime : OnTime now e) (hcl : s.cluster.step e = some cl) (q : Region)
    (tier user : Str) (w : ℤ) :
    ∀ ms ∈ (cl.globals q (globalKey tier user w)).expireAtMs, 60000 * (w + 2) ≤ ms := by
  have hkey := Cluster.hashEffect hcl q (globalKey tier user w)
  generalize cl.globals q (globalKey tier user w) = hash at hkey
  cases hkey with
  | same | pass => exact h.expiry q tier user w
  | incr c n _ hi hq hk hout hincr =>
    rw [Hash.expireAtMs_of_incr hincr]
    exact h.expiry q tier user w
  | expire c hi hk =>
    rintro ms ⟨⟩
    obtain ⟨hmem, hstage⟩ := Cluster.checkAt_eq_some.mp hi
    have hbegun := h.begun c (List.mem_of_getElem? hmem) hstage
    rw [window_eq_of_globalKey_eq hk] at hbegun
    obtain rfl : _ = now := htime
    omega
  | merge hk =>
    unfold maxMerge
    dsimp only
    split_ifs
    · rintro ms ⟨⟩
      obtain ⟨rfl, hbegun⟩ := htime
      rw [window_eq_of_globalKey_eq hk] at hbegun
      rw [globalTtlMs]
      omega
    · exact h.expiry q tier user w
  | evict =>
    rintro ms ⟨⟩

theorem Lives.step {s s' : Clocked} (h : s.Lives) {e : ℤ × Cluster.Event}
    (hstep : s.step e = some s') : s'.Lives := by
  unfold Clocked.step at hstep
  split_ifs at hstep with hif
  obtain ⟨hnow, htime⟩ := hif
  obtain ⟨now, e⟩ := e
  obtain ⟨cl, hcl, rfl⟩ := Option.map_eq_some_iff.mp hstep
  have heff := Cluster.effect hcl
  refine ⟨heff.sane h.sane, h.begun_step hnow htime heff, h.expiry_step hnow htime hcl, ?_⟩
  intro r tier user w (hlt : now < 60000 * (w + 2))
  have hfull := h.full r tier user w (hnow.trans_lt hlt)
  have hbalance := heff.balance h.sane r (globalKey tier user w) fun ms he => ?_
  · dsimp only
    omega
  · -- the key is not over yet
    subst he
    rw [Cluster.step] at hcl
    split_ifs at hcl with hover
    obtain ⟨ms, hms, hle⟩ := (Option.any_eq_true _ _).mp hover
    have hlife := h.expiry r tier user w ms hms
    obtain rfl : _ = now := htime
    have hle := of_decide_eq_true hle
    omega

theorem Reached.lives {s : Clocked} (h : s.Reached) : s.Lives :=
  h.invariant (fun _ ⟨t₀, hs⟩ => hs ▸ lives_init t₀) fun _ _ _ hs hstep => hs.step hstep

/-- **The slot survives until it can be reconciled.** As long as the reconciler's passes go
over a window, no key of the window has expired, and a region's own slot in it is the number
of all requests that the region has counted there. -/
theorem slot_survives {s : Clocked} (h : s.Reached) (r : Region) (tier user : Str) (w : ℤ) {t : ℚ}
    (hlater : s.nowMs ≤ 1000 * t) (hw : w ∈ Reconciler.windows t) :
    (∀ ms ∈ (s.cluster.globals r (globalKey tier user w)).expireAtMs, 1000 * t < ms) ∧
      (s.cluster.globals r (globalKey tier user w)).slot r =
        s.cluster.counted r (globalKey tier user w) := by
  have hscanned : 1000 * t < 60000 * (w + 2) := by
    linarith [(Reconciler.mem_windows.mp hw).2]
  refine ⟨fun ms hms => hscanned.trans_le ?_, h.lives.full r tier user w ?_⟩
  · exact_mod_cast h.lives.expiry r tier user w ms hms
  · exact_mod_cast hlater.trans_lt hscanned

/-- A request at the first instant of window 1, and a slot of a peer that sync merges between
its two commands. -/
def firstInstant : List (ℤ × Cluster.Event) :=
  [(60000, .start .us .free Cluster.sampleUser none),
    (60000, .decide 0 .tokenBucket 60000 1 60000 .ok), (60000, .incr 0 60 .ok),
    (60000, .merge .us ⟨str "free", str "u_1", 1, .eu, ⟨.int 5, by decide⟩⟩ 60000),
    (60000, .expire 0 60000 .ok)]

/-- The key lives to the end of window 2, with nothing to spare. -/
theorem slot_survives_sample : ∃ s, Run (Steps step) ⟨0, .init⟩ firstInstant s ∧
    (s.cluster.globals .us (globalKey (str "free") (str "u_1") 1)).expireAtMs = some 180000 ∧
    (∀ ms ∈ (s.cluster.globals .us (globalKey (str "free") (str "u_1") 1)).expireAtMs,
      (1000 : ℚ) * (179999 / 1000) < ms) ∧
    (s.cluster.globals .us (globalKey (str "free") (str "u_1") 1)).slot .us = 1 := by
  obtain ⟨s, hexec, hs⟩ := Option.map_eq_some_iff.mp
    (show (exec step ⟨0, .init⟩ firstInstant).map (fun s => (s.nowMs,
      (s.cluster.globals .us (globalKey (str "free") (str "u_1") 1)).expireAtMs,
      s.cluster.counted .us (globalKey (str "free") (str "u_1") 1))) =
      some (60000, some 180000, 1) by decide +kernel)
  obtain ⟨hnow, hrest⟩ := Prod.mk.inj hs
  obtain ⟨hexpire, hcounted⟩ := Prod.mk.inj hrest
  have hrun := run_of_exec hexec
  have hlater : (s.nowMs : ℚ) ≤ 1000 * (179999 / 1000) := by
    rw [hnow]
    norm_num
  have hw : 1 ∈ Reconciler.windows (179999 / 1000) := Reconciler.mem_windows.mpr (by norm_num)
  have hsurvives := slot_survives ⟨_, _, ⟨0, rfl⟩, hrun⟩ .us (str "free") (str "u_1") 1 hlater hw
  rw [hcounted] at hsurvives
  exact ⟨s, hrun, hexpire, hsurvives.1, hsurvives.2⟩

end Clocked

end Gdrl
