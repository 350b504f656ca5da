import Gdrl.Inputs
import Gdrl.Counted

/-!
# One user's requests

The requests of one user in one region and tier have a bucket in common, and a global key
in every window. What a step does to them : it calls their limiter for one of them, it
counts one of them, or it does neither. Only a call changes the bucket (`step_frame`,
`locals_of_decide`), and without merges only a count adds to the slots of the window
(`windowSum_cases`).
-/

namespace Gdrl

namespace Check

/-- Requests of one user in one region and tier, who have a bucket in common. -/
def sameUser (c d : Check) : Bool :=
  d.region = c.region && d.tier = c.tier && d.userId = c.userId

/-- The global key of a request's user in a window. -/
def windowKey (c : Check) (windowId : ℤ) : Str := globalKey c.tier.name c.userId.val windowId

variable {c d : Check}

theorem sameUser_iff :
    c.sameUser d = true ↔ d.region = c.region ∧ d.tier = c.tier ∧ d.userId = c.userId := by
  simp [sameUser, and_assoc]

theorem localKey_of_sameUser (h : c.sameUser d = true) : d.localKey = c.localKey := by
  obtain ⟨h1, h2, h3⟩ := sameUser_iff.mp h
  rw [localKey, h1, h2, h3, localKey]

/-- No other user in the region has the bucket. -/
theorem sameUser_of_localKey (hr : d.region = c.region) (h : d.localKey = c.localKey) :
    c.sameUser d = true := by
  unfold localKey at h
  rw [hr] at h
  simp only [List.append_assoc, List.cons_append, List.append_cancel_left_eq, List.cons.injEq,
    true_and] at h
  obtain ⟨htier, huser⟩ := append_colon_inj d.tier.colon_notMem_name c.tier.colon_notMem_name h
  exact sameUser_iff.mpr ⟨hr, Tier.name_injective htier, Subtype.ext huser⟩

/-- No other user in the region has the global key. -/
theorem sameUser_of_key {windowId : ℤ} (hr : d.region = c.region)
    (h : d.key = c.windowKey windowId) : c.sameUser d = true := by
  obtain ⟨h1, h2, -⟩ := globalKey_inj d.tier.colon_notMem_name c.tier.colon_notMem_name h
  exact sameUser_iff.mpr ⟨hr, Tier.name_injective h1, Subtype.ext h2⟩

theorem key_of_sameUser {windowId : ℤ} (h : c.sameUser d = true) (hw : d.windowId = windowId) :
    d.key = c.windowKey windowId := by
  obtain ⟨-, h2, h3⟩ := sameUser_iff.mp h
  rw [key, h2, h3, hw, windowKey]

end Check

/-! ## What a step does to a user -/

/-- A call leaves other keys alone. -/
theorem Limiter.check_of_ne (a : Algorithm) {key k : Str} (c : Call) (m : LocalRedis)
    (hk : k ≠ key) : (check a key c m).2 k = m k := by
  unfold check
  split
  · rfl
  · exact if_neg hk

namespace Cluster

/-- How many requests of a user the limiter has been called for. -/
def called (s : Cluster) (c : Check) : ℕ :=
  s.checks.countP fun d => c.sameUser d && !decide (d.stage = .resolved)

/-- How many of them are past `HINCRBY`. -/
def passed (s : Cluster) (c : Check) : ℕ :=
  s.checks.countP fun d => c.sameUser d && !d.stage.pending

/-- The slots of a user's window in the region of a request, added up. -/
def windowSum (s : Cluster) (c : Check) (windowId : ℤ) : ℤ :=
  (s.globals c.region (c.windowKey windowId)).total

theorem sameUser_of_update {s s' : Cluster} {i : ℕ} {c d d' : Check} {e : Event}
    (h : Update s s' i d e d') : c.sameUser d' = c.sameUser d := by
  cases h <;> rfl

/-- Only the limiter's call takes a request from its first stage. -/
theorem Update.stage_cases {s s' : Cluster} {i : ℕ} {d d' : Check} {e : Event}
    (h : Update s s' i d e d') : d'.stage ≠ .resolved ∧ (d.stage ≠ .resolved ∨
      d.stage = .resolved ∧ ∃ fallback nowMs nonce redisMs out,
        e = .decide i fallback nowMs nonce redisMs out) := by
  cases h with
  | decide reply stage hstage hnext =>
    refine ⟨?_, Or.inr ⟨hstage, _, _, _, _, _, rfl⟩⟩
    rcases hnext with ⟨rfl, -⟩ | ⟨-, resp, rfl, -⟩ <;> exact nofun
  | skip hunix hstage => exact ⟨nofun, Or.inl (by rw [hstage]; exact nofun)⟩
  | incr n hash stage hunix hstage hincr hnext =>
    refine ⟨?_, Or.inl (by rw [hstage]; exact nofun)⟩
    rcases hnext with ⟨-, rfl⟩ | ⟨-, rfl⟩ <;> exact nofun
  | expire hstage => exact ⟨nofun, Or.inl (by rw [hstage]; exact nofun)⟩
  | publish hstage => exact ⟨nofun, Or.inl (by rw [hstage]; exact nofun)⟩
  | read resp hstage => exact ⟨nofun, Or.inl (by rw [hstage]; exact nofun)⟩

/-- No step takes a request back before its `HINCRBY`. -/
theorem Update.pending {s s' : Cluster} {i : ℕ} {d d' : Check} {e : Event}
    (h : Update s s' i d e d') (hd : d'.stage.pending = true) : d.stage.pending = true := by
  cases h with
  | decide reply stage hstage => rw [hstage]; rfl
  | skip hunix hstage => rw [hstage]; rfl
  | incr n hash stage hunix hstage => rw [hstage]; rfl
  | expire => exact absurd hd Bool.false_ne_true
  | publish => exact absurd hd Bool.false_ne_true
  | read => exact absurd hd Bool.false_ne_true

theorem Effect.called_le {s s' : Cluster} {e : Event} (h : Effect s s' e) (c : Check) :
    s.called c ≤ s'.called c := by
  refine h.countP_le fun {i d d'} _ hu hd => ?_
  simp only [Bool.and_eq_true, Bool.not_eq_true', decide_eq_false_iff_not] at hd ⊢
  exact ⟨(sameUser_of_update hu).trans hd.1, hu.stage_cases.1⟩

theorem Effect.passed_le {s s' : Cluster} {e : Event} (h : Effect s s' e) (c : Check) :
    s.passed c ≤ s'.passed c := by
  refine h.countP_le fun {i d d'} _ hu hd => ?_
  simp only [Bool.and_eq_true, Bool.not_eq_true'] at hd ⊢
  refine ⟨(sameUser_of_update hu).trans hd.1, ?_⟩
  by_contra hne
  exact absurd (hu.pending (Bool.eq_true_of_not_eq_false hne)) (by rw [hd.2]; exact nofun)

/-- Whoever is past `HINCRBY` has called the limiter. -/
theorem passed_le_called (s : Cluster) (c : Check) : s.passed c ≤ s.called c := by
  refine List.countP_mono_left fun d _ hd => ?_
  simp only [Bool.and_eq_true, Bool.not_eq_true', decide_eq_false_iff_not] at hd ⊢
  refine ⟨hd.1, fun h => ?_⟩
  rw [h] at hd
  exact absurd hd.2 nofun

/-- One request more is past `HINCRBY`. -/
theorem passed_of_incr {s s' : Cluster} {i : ℕ} {c d d' : Check} (hi : s.checks[i]? = some d)
    (hc : s'.checks = s.checks.set i d') (hd : c.sameUser d' = true)
    (hstage : d.stage.pending = true) (hstage' : d'.stage.pending = false) :
    s'.passed c = s.passed c + 1 := by
  rw [passed, hc]
  exact countP_succ_of_set hi (by simp [hstage]) (by simp [hd, hstage'])

/-- One request more has called the limiter. -/
theorem called_of_decide {s s' : Cluster} {i : ℕ} {c d d' : Check} (hi : s.checks[i]? = some d)
    (hc : s'.checks = s.checks.set i d') (hd : c.sameUser d' = true) (hstage : d.stage = .resolved)
    (hstage' : d'.stage ≠ .resolved) : s'.called c = s.called c + 1 := by
  rw [called, hc]
  exact countP_succ_of_set hi (by simp [hstage]) (by simp [hd, hstage'])

/-- The limiter's call, what it replies and what it leaves. -/
theorem decide_cases {s s' : Cluster} {i : ℕ} {fallback : Algorithm} {nowMs redisMs : ℤ}
    {nonce : ℕ} {out : Outcome}
    (h : s.step (.decide i fallback nowMs nonce redisMs out) = some s') :
    ∃ d, s.checks[i]? = some d ∧ d.stage = .resolved ∧ s'.globals = s.globals ∧
      let r := Limiter.check (d.pol.selectLimiter fallback) d.localKey
        ⟨d.limit, d.pol.burst, nowMs, nonce, redisMs⟩ (s.locals d.region)
      let reply := if out = .ok then r.1 else none
      s'.checks = s.checks.set i { d with
        reply
        stage := if reply.isSome then .decided else .answered { d with reply }.localResponse } ∧
      s'.locals = if out.applied then fun q => if q = d.region then r.2 else s.locals q
        else s.locals := by
  obtain ⟨d, hd, rfl⟩ := Option.map_eq_some_iff.mp h
  obtain ⟨hi, hstage⟩ := checkAt_eq_some.mp hd
  refine ⟨d, hi, hstage, ?_, ?_, ?_⟩
  all_goals
    unfold runLimiter
    cases out <;> rfl

/-- Other users' calls are of other keys. -/
theorem locals_of_decide {s s' : Cluster} {i : ℕ} {c d : Check} {fallback : Algorithm}
    {now redisMs : ℤ} {nonce : ℕ} {out : Outcome}
    (hs : s.step (.decide i fallback now nonce redisMs out) = some s')
    (hi : s.checks[i]? = some d) (hd : c.sameUser d = false) :
    s'.locals c.region c.localKey = s.locals c.region c.localKey := by
  obtain ⟨d', hi', -, -, -, hlocals⟩ := decide_cases hs
  obtain rfl := Option.some.inj (hi.symm.trans hi')
  rw [hlocals]
  split_ifs
  · dsimp only
    split_ifs with hreg
    · rw [Limiter.check_of_ne, hreg]
      intro hkey
      exact absurd (Check.sameUser_of_localKey hreg.symm hkey.symm) (Bool.eq_false_iff.mp hd)
    · rfl
  · rfl

/-- Where no peer's slot is merged, only a request of the user adds to the sum. -/
theorem windowSum_cases {s s' : Cluster} {e : Event} (h : s.step e = some s') (c : Check)
    (windowId : ℤ)
    (he : ∀ q w redisMs, e = .merge q w redisMs → ¬ (q = c.region ∧ w.key = c.windowKey windowId)) :
    s'.windowSum c windowId = s.windowSum c windowId ∨ s'.windowSum c windowId = 0 ∨
      s'.windowSum c windowId = s.windowSum c windowId + 1 ∧ s'.passed c = s.passed c + 1 := by
  have hhash := hashEffect h c.region (c.windowKey windowId)
  have heffect := effect h
  unfold windowSum
  generalize s'.globals c.region (c.windowKey windowId) = hash at hhash
  cases hhash with
  | same => exact Or.inl rfl
  | incr d n hash hi hq hk hout hincr =>
    rename_i i unix out
    refine Or.inr (Or.inr ⟨Hash.total_of_incr hincr, ?_⟩)
    obtain ⟨hi, hstage⟩ := checkAt_eq_some.mp hi
    have hd : c.sameUser d = true :=
      @Check.sameUser_of_key c { d with windowId := unix.tdiv 60 } windowId hq hk
    cases heffect with
    | skip d' hunix hi' _ hfail hc =>
      obtain rfl := Option.some.inj (hi.symm.trans hi')
      exact passed_of_incr hi hc hd (by rw [hstage]; rfl) rfl
    | incr d' d'' n hash stage hunix hi' _ hd'' _ hnext hc =>
      obtain rfl := Option.some.inj (hi.symm.trans hi')
      subst hd''
      refine passed_of_incr hi hc hd (by rw [hstage]; rfl) ?_
      rcases hnext with ⟨-, rfl⟩ | ⟨-, rfl⟩ <;> rfl
  | expire => exact Or.inl rfl
  | pass => exact Or.inl rfl
  | merge hk => exact absurd ⟨rfl, hk⟩ (he _ _ _ rfl)
  | evict => exact Or.inr (Or.inl rfl)

end Cluster

end Gdrl
