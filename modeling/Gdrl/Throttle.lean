import Gdrl.Decider
import Gdrl.Run

/-!
# The control loop

`Loop` puts the decider, the Redises it writes to and the gateways that read them into one
system. A gateway is taken here to adopt whatever policy is live as it was written, and to
go back to its static policy where none is.

The loop keeps the limit of a region's free tier three times : the decider remembers it,
the region's Redis holds it for 300 s, and the gateway enforces what its last refresh has
found. `Synced` ties the first two together. It does not keep them together : the decider
writes once per throttle (`throttle_in_force_iff`), and it starts from a limit of 100
where the gateway starts from 10 (`throttle_lowers_iff`).
-/

namespace Gdrl

/-- The agent, the free tier's policy in force in each region, and the time. -/
structure Loop where
  clock : ℚ
  agent : Agent
  enforced : Region → Policy

namespace Loop

inductive Event
  /-- A tick of the agent. -/
  | tick (now : ℚ) (preds : Region → Option Prediction)
    (topUsers : Region → List (Tier × Str × ℚ))
  /-- The policy store of a gateway refreshes. -/
  | refresh (r : Region) (now : ℚ)

/-- `Store.refreshTier` of the free tier without its checks. -/
def adopt (raw : Option (List Byte)) : Policy :=
  match raw with
  | none => Policy.lookup .free
  | some raw =>
    match unmarshal Contract4.fields raw Contract4.zero with
    | .error _ => Policy.lookup .free
    | .ok c => Store.ofContract4 c

/-- One step, `none` where the clock would go back. -/
def step (W : Writer) (s : Loop) : Event → Option Loop
  | .tick now preds topUsers =>
    if s.clock ≤ now then
      some { s with clock := now, agent := s.agent.decide W preds topUsers now }
    else none
  | .refresh r now =>
    if s.clock ≤ now then
      some { s with
        clock := now
        enforced := Function.update s.enforced r
          (adopt ((s.agent.redis r).get now (Store.redisKey r .free))) }
    else none

/-- A new agent, empty Redises and gateways with their static policies. -/
def init (t₀ : ℚ) : Loop := ⟨t₀, .new t₀, fun _ => Policy.lookup .free⟩

abbrev Reached (W : Writer) (t₀ : ℚ) (s : Loop) : Prop := Reachable (· = init t₀) (Steps (step W)) s

/-! ## Decider and Redis -/

/-- What the decider remembers of a region is what it has written there last. -/
structure Synced (v : TierState × Option (List Byte × ℚ)) : Prop where
  limit : v.1.limitPerMinute = if v.1.throttled then 70 else 100
  written : (v.1.throttled = false ∧ v.2 = none) ∨ ∃ raw,
    v.2 = some (raw, v.1.writtenAt + 300) ∧
    Agent.Carries raw v.1.limitPerMinute (if v.1.throttled then 14 else 20)

theorem Synced.limit_cases {v : TierState × Option (List Byte × ℚ)} (h : Synced v) :
    v.1.limitPerMinute = 70 ∨ v.1.limitPerMinute = 100 := by
  have hl := h.limit
  split_ifs at hl
  · exact Or.inl hl
  · exact Or.inr hl

theorem Synced.effect {pred : Option Prediction} {now : ℚ}
    {v v' : TierState × Option (List Byte × ℚ)} (h : Synced v)
    (he : Agent.CapacityEffect pred now v v') : Synced v' := by
  cases he with
  | keep => exact h
  | throttle hp hspike hthr hage hraw =>
    rename_i p raw
    have hlimit : v.1.limitPerMinute = Agent.defaultLimit := by
      rw [h.limit, hthr]
      rfl
    rw [hlimit, Agent.cut_default] at hraw ⊢
    exact ⟨rfl, Or.inr ⟨raw, rfl, hraw⟩⟩
  | recover hp hcalm hthr hage hraw =>
    rename_i p raw
    exact ⟨rfl, Or.inr ⟨raw, rfl, hraw⟩⟩

/-- What a tick does to a region, and a refresh leaves alone. -/
theorem step_view {W : Writer} {s s' : Loop} {e : Event} (h : s.step W e = some s')
    (hs : ∀ r, Synced (s.agent.view r)) (r : Region) :
    s'.agent.view r = s.agent.view r ∨ ∃ now preds topUsers, e = .tick now preds topUsers ∧
      Agent.CapacityEffect (preds r) now (s.agent.view r) (s'.agent.view r) := by
  cases e with
  | tick now preds topUsers =>
    rw [step] at h
    split_ifs at h
    obtain rfl := Option.some.inj h
    exact Or.inr ⟨now, preds, topUsers, rfl,
      s.agent.decide_effect W preds topUsers now r (hs r).limit_cases⟩
  | refresh q now =>
    rw [step] at h
    split_ifs at h
    obtain rfl := Option.some.inj h
    exact Or.inl rfl

theorem synced_step {W : Writer} {s s' : Loop} {e : Event} (h : s.step W e = some s')
    (hs : ∀ r, Synced (s.agent.view r)) (r : Region) : Synced (s'.agent.view r) := by
  rcases step_view h hs r with heq | ⟨now, preds, topUsers, -, heff⟩
  · rw [heq]
    exact hs r
  · exact (hs r).effect heff

theorem synced_of_reached {W : Writer} {t₀ : ℚ} {s : Loop} (h : Reached W t₀ s) (r : Region) :
    Synced (s.agent.view r) := by
  refine h.invariant (I := fun s => ∀ r, Synced (s.agent.view r)) ?_
    (fun s e s' hs hstep => synced_step hstep hs) r
  rintro s rfl r
  exact ⟨rfl, Or.inl ⟨rfl, rfl⟩⟩

/-- **A throttle stays in force.** While a region is throttled, the key of its free tier
exists and carries the limit that the decider remembers exactly until 300 s have passed
since the throttle was written. -/
theorem throttle_in_force_iff {W : Writer} {t₀ : ℚ} {s : Loop} (h : Reached W t₀ s) {r : Region}
    (hthr : (s.agent.state r).throttled = true) (t : ℚ) :
    (∃ raw burst, (s.agent.redis r).get t (Store.redisKey r .free) = some raw ∧
      Agent.Carries raw (s.agent.state r).limitPerMinute burst) ↔
      t < (s.agent.state r).writtenAt + 300 := by
  rcases (synced_of_reached h r).written with ⟨hno, -⟩ | ⟨raw, hentry, hraw⟩
  · exact absurd (hthr.symm.trans hno) (by simp)
  · rw [Strings.get_eq hentry]
    constructor
    · rintro ⟨raw', burst, hget, -⟩
      by_contra hlt
      exact absurd ((if_neg hlt).symm.trans hget) (by simp)
    · exact fun hlt => ⟨raw, _, if_pos hlt, hraw⟩

/-- A minute after the start every region is overloaded. -/
def overload (now : ℚ) : Event := .tick now (fun _ => some ⟨some 55, str "55.0", false⟩) fun _ => []

/-- Forty seconds behind its write the throttle is in force. -/
theorem throttle_in_force_sample :
    ∃ s, Reached sampleWriter 0 s ∧ (s.agent.state .us).throttled = true ∧
      ∃ raw burst, (s.agent.redis .us).get 101 (Store.redisKey .us .free) = some raw ∧
        Agent.Carries raw (s.agent.state .us).limitPerMinute burst := by
  have hrun : (exec (step sampleWriter) (init 0) [overload 61]).map
      (fun s => ((s.agent.state .us).throttled, (s.agent.state .us).writtenAt)) =
      some (true, 61) := by decide +kernel
  obtain ⟨s, hs, hst⟩ := Option.map_eq_some_iff.mp hrun
  obtain ⟨hthr, hat⟩ := Prod.mk.inj hst
  have hreach : Reached sampleWriter 0 s := ⟨init 0, _, rfl, run_of_exec hs⟩
  exact ⟨s, hreach, hthr, (throttle_in_force_iff hreach hthr 101).mpr (by rw [hat]; norm_num)⟩

/-- The overload lasts. After 339 s the decider counts the region as throttled and the key
is gone. -/
theorem throttle_expires :
    ∃ s, Reached sampleWriter 0 s ∧ s.clock = 400 ∧ (s.agent.state .us).throttled = true ∧
      (s.agent.redis .us).get 400 (Store.redisKey .us .free) = none := by
  have hrun : (exec (step sampleWriter) (init 0) [overload 61, overload 400]).map
      (fun s => (s.clock, (s.agent.state .us).throttled,
        (s.agent.redis .us).get 400 (Store.redisKey .us .free))) =
      some (400, true, none) := by decide +kernel
  obtain ⟨s, hs, hst⟩ := Option.map_eq_some_iff.mp hrun
  obtain ⟨hclock, hst⟩ := Prod.mk.inj hst
  obtain ⟨hthr, hget⟩ := Prod.mk.inj hst
  exact ⟨s, ⟨init 0, _, rfl, run_of_exec hs⟩, hclock, hthr, hget⟩

/-! ## Decider and gateway -/

theorem adopt_of_carries {raw : List Byte} {limit burst : ℤ} (h : Agent.Carries raw limit burst) :
    (adopt (some raw)).limit = limit := by
  obtain ⟨c, hc, hlimit, -⟩ := h
  dsimp only [adopt]
  rw [hc]
  exact hlimit

/-- What a gateway finds at a refresh. -/
theorem Synced.adopt {a : Agent} {r : Region} (h : Synced (a.view r)) (now : ℚ) :
    (Loop.adopt ((a.redis r).get now (Store.redisKey r .free))).limit =
      if now < (a.state r).writtenAt + 300 ∧ (a.redis r (Store.redisKey r .free)).isSome then
        (a.state r).limitPerMinute
      else 10 := by
  rcases h.written with ⟨-, hnone⟩ | ⟨raw, hentry, hraw⟩
  · have hnone' : a.redis r (Store.redisKey r .free) = none := hnone
    rw [Strings.get, hnone', if_neg (by simp)]
    rfl
  · have hentry' : a.redis r (Store.redisKey r .free) = some (raw, (a.state r).writtenAt + 300) :=
      hentry
    rw [Strings.get_eq hentry', hentry']
    by_cases hlt : now < (a.state r).writtenAt + 300
    · rw [if_pos hlt, if_pos ⟨hlt, rfl⟩]
      exact adopt_of_carries hraw
    · rw [if_neg hlt, if_neg fun h => hlt h.1]
      rfl

/-- The limits that a gateway enforces : its own, or one the agent has written. -/
def Known (s : Loop) : Prop :=
  ∀ r, (s.enforced r).limit = 10 ∨ (s.enforced r).limit = 70 ∨ (s.enforced r).limit = 100

theorem known_of_reached {W : Writer} {t₀ : ℚ} {s : Loop} (h : Reached W t₀ s) : s.Known := by
  have hI : (∀ r, Synced (s.agent.view r)) ∧ s.Known := by
    refine h.invariant (I := fun s => (∀ r, Synced (s.agent.view r)) ∧ s.Known) ?_ ?_
    · rintro s rfl
      exact ⟨fun _ => ⟨rfl, Or.inl ⟨rfl, rfl⟩⟩, fun _ => Or.inl rfl⟩
    · rintro s e s' ⟨hs, hknown⟩ hstep
      refine ⟨synced_step hstep hs, fun r => ?_⟩
      cases e with
      | tick now preds topUsers =>
        rw [Steps, step] at hstep
        split_ifs at hstep
        obtain rfl := Option.some.inj hstep
        exact hknown r
      | refresh q now =>
        rw [Steps, step] at hstep
        split_ifs at hstep
        obtain rfl := Option.some.inj hstep
        dsimp only
        by_cases hr : r = q
        · subst hr
          rw [Function.update_self, (hs r).adopt]
          split_ifs
          · exact Or.inr (hs r).limit_cases
          · exact Or.inl rfl
        · rw [Function.update_of_ne hr]
          exact hknown r
  exact hI.2

/-- What a gateway enforces behind the refresh that follows a throttle. -/
theorem enforced_of_throttled {W : Writer} {t₀ : ℚ} {u u' : Loop} (h : Reached W t₀ u) {r : Region}
    (hthr : (u.agent.state r).throttled = true) {t : ℚ} (href : u.step W (.refresh r t) = some u') :
    (u'.enforced r).limit = if t < (u.agent.state r).writtenAt + 300 then 70 else 10 := by
  have hs := synced_of_reached h r
  have hsome : (u.agent.redis r (Store.redisKey r .free)).isSome = true := by
    rcases hs.written with ⟨hno, -⟩ | ⟨raw, hentry, -⟩
    · exact absurd (hthr.symm.trans hno) (by simp)
    · exact Option.isSome_iff_exists.mpr ⟨_, hentry⟩
  have hlimit : (u.agent.state r).limitPerMinute = 70 := hs.limit.trans (if_pos hthr)
  rw [step] at href
  split_ifs at href
  obtain rfl := Option.some.inj href
  dsimp only
  rw [Function.update_self, hs.adopt, hlimit]
  simp only [hsome, and_true]

/-- **A throttle lowers.** At a tick that throttles a region its gateway has in force a limit
of 10, 70 or 100, and the refresh behind the write lowers it exactly if it is the 100 of
an earlier recovery, or 70 and the refresh comes so late that the throttle has expired. -/
theorem throttle_lowers_iff {W : Writer} {t₀ : ℚ} {s s' u u' : Loop} (h : Reached W t₀ s) {now : ℚ}
    {preds : Region → Option Prediction} {topUsers : Region → List (Tier × Str × ℚ)}
    (hstep : s.step W (.tick now preds topUsers) = some s') {r : Region}
    (hbefore : (s.agent.state r).throttled = false)
    (hafter : (s'.agent.state r).throttled = true) {es : List Event}
    (hrun : Run (Steps (step W)) s' es u) (hsame : u.agent.state r = s'.agent.state r) {t : ℚ}
    (href : u.step W (.refresh r t) = some u') :
    (u'.enforced r).limit < (s.enforced r).limit ↔
      (s.enforced r).limit = 100 ∨ now + 300 ≤ t ∧ (s.enforced r).limit = 70 := by
  have hat : (s'.agent.state r).writtenAt = now := by
    rcases step_view hstep (fun r => synced_of_reached h r) r with heq | ⟨now', p, top, he, heff⟩
    · have hst : s'.agent.state r = s.agent.state r := congrArg Prod.fst heq
      rw [hst, hbefore] at hafter
      exact absurd hafter (by simp)
    · obtain ⟨rfl, -, -⟩ := Event.tick.inj he
      have hthr : (s'.agent.view r).1.throttled = true := hafter
      show (s'.agent.view r).1.writtenAt = now
      generalize s'.agent.view r = v' at heff hthr
      cases heff with
      | keep => exact absurd (hbefore.symm.trans hthr) (by simp)
      | throttle => rfl
      | recover => rfl
  rw [enforced_of_throttled ((h.step hstep).run hrun) (hsame ▸ hafter) href, hsame, hat]
  rcases known_of_reached h r with heq | heq | heq
  · rw [heq]
    split_ifs <;> simp
  · rw [heq]
    split_ifs with hlt
    · simp [hlt]
    · simp [not_lt.mp hlt]
  · rw [heq]
    split_ifs <;> simp

theorem exists_tick (W : Writer) {s : Loop} {now : ℚ} (h : s.clock ≤ now)
    (preds : Region → Option Prediction) (topUsers : Region → List (Tier × Str × ℚ)) :
    ∃ s', s.step W (.tick now preds topUsers) = some s' := by
  rw [step, if_pos h]
  exact ⟨_, rfl⟩

theorem exists_refresh (W : Writer) {s : Loop} {t : ℚ} (h : s.clock ≤ t) (r : Region) :
    ∃ s', s.step W (.refresh r t) = some s' := by
  rw [step, if_pos h]
  exact ⟨_, rfl⟩

/-- The first overload. The gateway's limit goes up from 10 to 70. -/
theorem throttle_raises :
    ∃ s s' u, Reached sampleWriter 0 s ∧ s.step sampleWriter (overload 61) = some s' ∧
      (s.agent.state .us).throttled = false ∧ (s'.agent.state .us).throttled = true ∧
      s'.step sampleWriter (.refresh .us 66) = some u ∧
      (s.enforced .us).limit = 10 ∧ (u.enforced .us).limit = 70 := by
  have hclock : (init 0).clock ≤ 61 := by norm_num [init]
  obtain ⟨s', hs'⟩ := exists_tick sampleWriter hclock
    (fun _ => some ⟨some 55, str "55.0", false⟩) fun _ => []
  have hst : ((init 0).step sampleWriter (overload 61)).map (fun s =>
      ((s.agent.state .us).throttled, (s.agent.state .us).writtenAt, s.clock)) =
      some (true, 61, 61) := by decide +kernel
  rw [overload, hs', Option.map_some] at hst
  obtain ⟨hthr, hst⟩ := Prod.mk.inj (Option.some.inj hst)
  obtain ⟨hat, hclock⟩ := Prod.mk.inj hst
  have hreach : Reached sampleWriter 0 (init 0) := ⟨init 0, [], rfl, .nil _⟩
  obtain ⟨u, hu⟩ := exists_refresh sampleWriter (s := s') (t := 66)
    (by rw [hclock]; norm_num) .us
  refine ⟨init 0, s', u, hreach, hs', rfl, hthr, hu, rfl, ?_⟩
  rw [enforced_of_throttled (hreach.step hs') hthr hu, hat, if_pos (by norm_num)]

/-- Every region is idle. -/
def calm (now : ℚ) : Event := .tick now (fun _ => some ⟨some 5, str "5.0", false⟩) fun _ => []

/-- An overload behind a recovery that the gateway has taken over. The limit goes down from
100 to 70. -/
theorem throttle_lowers_sample :
    ∃ s s' u, Reached sampleWriter 0 s ∧ s.step sampleWriter (overload 200) = some s' ∧
      s'.step sampleWriter (.refresh .us 205) = some u ∧
      (u.enforced .us).limit < (s.enforced .us).limit := by
  have hrun : (exec (step sampleWriter) (init 0) [overload 61, calm 130, .refresh .us 135]).map
      (fun s => (s.clock, (s.agent.state .us).throttled, (s.enforced .us).limit,
        (s.step sampleWriter (overload 200)).map fun s' =>
          (s'.clock, (s'.agent.state .us).throttled))) =
      some (135, false, 100, some (200, true)) := by decide +kernel
  obtain ⟨s, hs, hst⟩ := Option.map_eq_some_iff.mp hrun
  obtain ⟨hclock, hst⟩ := Prod.mk.inj hst
  obtain ⟨hbefore, hst⟩ := Prod.mk.inj hst
  obtain ⟨hlimit, hst⟩ := Prod.mk.inj hst
  obtain ⟨s', hs', hst⟩ := Option.map_eq_some_iff.mp hst
  obtain ⟨hclock', hafter⟩ := Prod.mk.inj hst
  obtain ⟨u, hu⟩ := exists_refresh sampleWriter (s := s') (t := 205)
    (by rw [hclock']; norm_num) .us
  have hreach : Reached sampleWriter 0 s := ⟨init 0, _, rfl, run_of_exec hs⟩
  have hlower := throttle_lowers_iff hreach hs' hbefore hafter (.nil s') rfl hu
  exact ⟨s, s', u, hreach, hs', hu, hlower.mpr (Or.inl hlimit)⟩

end Loop

end Gdrl
