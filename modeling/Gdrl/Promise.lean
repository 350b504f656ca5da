import Gdrl.Remaining
import Gdrl.Users
import Gdrl.Lists

/-!
# What `remaining` promises

An answer `allowed=true` with `remaining = n` is a promise of the limiter only. The handler
denies a request that the limiter allows once the slots of its window add up to more than
the global limit, and every request adds one to them. So the next `n` requests of the user
are allowed where the global limit has room for them, and nothing else denies any of them
(`promise_kept`). `not_promise` is a user with four requests remaining who is denied the
next one.
-/

namespace Gdrl

namespace Cluster

/-! ## What a request leaves for the next ones -/

section Promise

variable (c : Check) (nowMs windowId : ℤ) (n : ℕ)

/-- A step on the terms of a request : its user's requests go with the same policy and limit
at the same time to a limiter that answers, they are counted in the same window, and no
peer's slot is merged there. -/
def SameTerms (s : Cluster) : Event → Prop
  | .decide i _ now _ _ out => ∀ d ∈ s.checks[i]?, c.sameUser d = true →
    d.pol = c.pol ∧ d.limit = c.limit ∧ now = nowMs ∧ out = .ok
  | .incr i unix _ => ∀ d ∈ s.checks[i]?, c.sameUser d = true → unix.tdiv 60 = windowId
  | .merge q w _ => ¬ (q = c.region ∧ w.key = c.windowKey windowId)
  | _ => True

/-- The limiter has not been called for a request yet, which may not even be there. -/
def Uncalled (s : Cluster) (j : ℕ) : Prop := ∀ d ∈ s.checks[j]?, d.stage = .resolved

/-- The global limit has room for a request and `n` more. -/
def HasRoom (s : Cluster) : Prop := s.windowSum c windowId + (1 + n) ≤ c.pol.globalLimit

/-- A later request of the user : the limiter has allowed it, and where there is room for all
of them, so has the handler. -/
structure Later (room : Prop) (d : Check) : Prop where
  reply : d.stage ≠ .resolved → ∃ r, d.reply = some r ∧ r.allowed = true
  pol : d.stage ≠ .resolved → d.pol = c.pol
  window : d.stage.underway = true → d.windowId = windowId
  answer : ∀ resp, d.stage = .answered resp → room → resp.allowed = true

/-- What holds of a run from `s₀` as long as the user has made up to `n` requests. -/
structure Keeps (s₀ s : Cluster) : Prop where
  nonneg : ∀ q k, (s.globals q k).Nonneg
  passed : s₀.passed c ≤ s.passed c
  sum : s.windowSum c windowId + s₀.passed c ≤ s₀.windowSum c windowId + s.passed c
  supplies : ∀ k, s.called c + k ≤ s₀.called c + n → ∀ fallback,
    Supplies (c.pol.selectLimiter fallback) c.localKey c.limit c.pol.burst nowMs k
      (s.locals c.region)
  later : s.called c ≤ s₀.called c + n → ∀ j d, s.checks[j]? = some d → c.sameUser d = true →
    s₀.Uncalled j → Later c windowId (s₀.HasRoom c windowId n) d

variable {c nowMs windowId n}

theorem Later.of_resolved {room : Prop} {d : Check} (h : d.stage = .resolved) :
    Later c windowId room d where
  reply hne := absurd h hne
  pol hne := absurd h hne
  window hd := absurd (h ▸ hd) nofun
  answer _ hd := absurd (h.symm.trans hd) nofun

/-- The limiter's answer is allowed. -/
theorem Later.localResponse {room : Prop} {d : Check} (h : Later c windowId room d)
    (hd : d.stage ≠ .resolved) : d.localResponse.allowed = true := by
  obtain ⟨r, hr, hallowed⟩ := h.reply hd
  rw [Check.localResponse, hr]
  exact hallowed

/-- Behind its limiter's call only its window and its answer are new. -/
theorem Later.next {room : Prop} {d d' : Check} (h : Later c windowId room d)
    (hd : d.stage ≠ .resolved) (hreply : d'.reply = d.reply) (hpol : d'.pol = d.pol)
    (hwindow : d'.stage.underway = true → d'.windowId = windowId)
    (hanswer : ∀ resp, d'.stage = .answered resp → room → resp.allowed = true) :
    Later c windowId room d' :=
  ⟨fun _ => hreply ▸ h.reply hd, fun _ => hpol.trans (h.pol hd), hwindow, hanswer⟩

/-- A later request stays allowed behind its limiter's call. -/
theorem Keeps.later_update {s₀ s s' : Cluster} (h : Keeps c nowMs windowId n s₀ s)
    (hfirst : s₀.called c = s₀.passed c + 1) {i : ℕ} {d d' : Check} {e : Event}
    (hu : Update s s' i d e d') (hi : s.checks[i]? = some d) (hd : c.sameUser d = true)
    (he : s.SameTerms c nowMs windowId e) (hcalled : s.called c ≤ s₀.called c + n)
    (hk : Later c windowId (s₀.HasRoom c windowId n) d)
    (hne : d.stage ≠ .resolved) :
    Later c windowId (s₀.HasRoom c windowId n) d' := by
  have hlocal := hk.localResponse hne
  cases hu with
  | decide reply stage hstage => exact absurd hstage hne
  | skip hunix hstage hfail =>
    refine hk.next hne rfl rfl (fun h => absurd h Bool.false_ne_true) fun resp hresp _ => ?_
    exact Stage.answered.inj hresp ▸ hlocal
  | incr m hash stage hunix hstage hincr hnext =>
    refine hk.next hne rfl rfl (fun _ => he d hi hd) fun resp hresp _ => ?_
    rcases hnext with ⟨-, rfl⟩ | ⟨-, rfl⟩
    · exact absurd hresp nofun
    · exact Stage.answered.inj hresp ▸ hlocal
  | expire hstage | publish hstage =>
    exact hk.next hne rfl rfl (fun _ => hk.window (by rw [hstage]; rfl)) fun _ h => absurd h nofun
  | read resp hstage hresp =>
    refine hk.next hne rfl rfl (fun h => absurd h Bool.false_ne_true) fun resp' hresp' hroom => ?_
    obtain rfl := Stage.answered.inj hresp'
    rw [hresp]
    split_ifs
    · have hkey := Check.key_of_sameUser hd (hk.window (by rw [hstage]; rfl))
      have hreg := (Check.sameUser_iff.mp hd).1
      -- no more than `1 + n` requests have added to the sum
      have hle := s.passed_le_called c
      have hsum := h.sum
      have hgo := Hash.goSum_le_total (h.nonneg c.region (c.windowKey windowId))
      unfold HasRoom at hroom
      unfold windowSum at hsum hroom
      rw [Check.response, hreg, hkey, hk.pol hne, if_neg (by omega)]
      exact hlocal
    · exact hlocal

/-- A call of the user takes one from what the limiter has left. -/
theorem Keeps.decide {s₀ s s' : Cluster} (h : Keeps c nowMs windowId n s₀ s) {i : ℕ} {d : Check}
    {fallback : Algorithm} {now redisMs : ℤ} {nonce : ℕ} {out : Outcome}
    (hs : s.step (.decide i fallback now nonce redisMs out) = some s')
    (he : s.SameTerms c nowMs windowId (.decide i fallback now nonce redisMs out))
    (hacc : c.pol.Accepted) (hi : s.checks[i]? = some d) (hd : c.sameUser d = true) :
    d.stage = .resolved ∧ s'.called c = s.called c + 1 ∧
      (s'.called c ≤ s₀.called c + n → ∃ r : Reply, r.allowed = true ∧
        s'.checks = s.checks.set i { d with reply := some r, stage := .decided } ∧ d.pol = c.pol) ∧
      ∀ k, s'.called c + k ≤ s₀.called c + n → ∀ fallback,
        Supplies (c.pol.selectLimiter fallback) c.localKey c.limit c.pol.burst nowMs k
          (s'.locals c.region) := by
  obtain ⟨hpol, hlimit, rfl, rfl⟩ := he d hi hd
  obtain ⟨a, -, ha⟩ := hacc.exists_limiter
  obtain ⟨d', hi', hstage, -, hc, hlocals⟩ := decide_cases hs
  obtain rfl := Option.some.inj (hi.symm.trans hi')
  have hreg := (Check.sameUser_iff.mp hd).1
  have hcheck : Limiter.check (d.pol.selectLimiter fallback) d.localKey
        ⟨d.limit, d.pol.burst, now, nonce, redisMs⟩ (s.locals d.region) =
      Limiter.check a c.localKey ⟨c.limit, c.pol.burst, now, nonce, redisMs⟩
        (s.locals c.region) := by
    rw [hpol, hlimit, hreg, ha, Check.localKey_of_sameUser hd]
  rw [hcheck] at hc hlocals
  have hcalled : s'.called c = s.called c + 1 := by
    refine called_of_decide hi hc hd hstage ?_
    dsimp only
    split_ifs <;> exact nofun
  have hcall := fun k (hk : s'.called c + k ≤ s₀.called c + n) =>
    h.supplies (k + 1) (by omega) fallback nonce redisMs
  rw [ha] at hcall
  refine ⟨hstage, hcalled, fun hle => ?_, fun k hk f => ?_⟩
  · obtain ⟨⟨r, hr, hallowed⟩, -⟩ := hcall 0 hle
    refine ⟨r, hallowed, ?_, hpol⟩
    rw [hc, hr]
    rfl
  · rw [hlocals, ha]
    simpa [Outcome.applied, hreg] using (hcall k hk).2

theorem Keeps.supplies_step {s₀ s s' : Cluster} {e : Event} (h : Keeps c nowMs windowId n s₀ s)
    (hs : s.step e = some s') (he : s.SameTerms c nowMs windowId e) (hacc : c.pol.Accepted) (k : ℕ)
    (hk : s'.called c + k ≤ s₀.called c + n) (fallback : Algorithm) :
    Supplies (c.pol.selectLimiter fallback) c.localKey c.limit c.pol.burst nowMs k
      (s'.locals c.region) := by
  have hkept : s'.locals c.region c.localKey = s.locals c.region c.localKey → _ := fun hkey =>
    (h.supplies k (le_trans (Nat.add_le_add_right ((effect hs).called_le c) k) hk) fallback).congr
      hkey.symm
  by_cases hdecide : ∃ i f now nonce redisMs out, e = .decide i f now nonce redisMs out
  · obtain ⟨i, f, now, nonce, redisMs, out, rfl⟩ := hdecide
    obtain ⟨d, hi, -⟩ := decide_cases hs
    by_cases hd : c.sameUser d = true
    · exact (h.decide hs he hacc hi hd).2.2.2 k hk fallback
    · exact hkept (locals_of_decide hs hi (Bool.eq_false_of_not_eq_true hd))
  · refine hkept ?_
    rw [(step_frame hs).2 fun i f now nonce redisMs out heq => hdecide ⟨_, _, _, _, _, _, heq⟩]

theorem Keeps.later_step {s₀ s s' : Cluster} {e : Event} (h : Keeps c nowMs windowId n s₀ s)
    (hs : s.step e = some s') (he : s.SameTerms c nowMs windowId e) (hacc : c.pol.Accepted)
    (hfirst : s₀.called c = s₀.passed c + 1) (hle : s'.called c ≤ s₀.called c + n) {j : ℕ}
    {d' : Check} (hj : s'.checks[j]? = some d') (hd' : c.sameUser d' = true)
    (hnew : s₀.Uncalled j) :
    Later c windowId (s₀.HasRoom c windowId n) d' := by
  have hcalled := ((effect hs).called_le c).trans hle
  rcases (effect hs).checks_cases with hc | ⟨-, d, -, -, hstage, hc⟩ | ⟨i, d, b, hi, hc, hu⟩
  · exact h.later hcalled j d' (hc ▸ hj) hd' hnew
  · rw [hc] at hj
    rcases getElem?_concat_cases hj with hj | ⟨-, rfl⟩
    · exact h.later hcalled j d' hj hd' hnew
    · exact .of_resolved hstage
  · have hj' := hj
    rw [hc] at hj'
    rcases getElem?_set_cases hj' with ⟨rfl, rfl⟩ | ⟨-, hj'⟩
    · have hd := (sameUser_of_update hu).symm.trans hd'
      rcases hu.stage_cases.2 with hne | ⟨-, f, now, nonce, redisMs, out, rfl⟩
      · exact h.later_update hfirst hu hi hd he hcalled (h.later hcalled j d hi hd hnew) hne
      · obtain ⟨-, -, hreply, -⟩ := h.decide hs he hacc hi hd
        obtain ⟨r, hallowed, hc', hpol⟩ := hreply hle
        rw [hc', getElem?_set_of_getElem? hi] at hj
        obtain rfl := Option.some.inj hj
        exact ⟨fun _ => ⟨r, rfl, hallowed⟩, fun _ => hpol, fun h => absurd h Bool.false_ne_true,
          fun _ h => absurd h nofun⟩
    · exact h.later hcalled j d' hj' hd' hnew

/-- A step on the same terms keeps what is promised. -/
theorem Keeps.step {s₀ s s' : Cluster} {e : Event} (h : Keeps c nowMs windowId n s₀ s)
    (hs : s.step e = some s') (he : s.SameTerms c nowMs windowId e) (hacc : c.pol.Accepted)
    (hfirst : s₀.called c = s₀.passed c + 1) (hsum : 0 ≤ s₀.windowSum c windowId) :
    Keeps c nowMs windowId n s₀ s' where
  nonneg q k r := ((effect hs).slotEffect q k r).nonneg (h.nonneg q k r)
  passed := h.passed.trans ((effect hs).passed_le c)
  sum := by
    have hle := (effect hs).passed_le c
    have hold := h.sum
    have hpassed := h.passed
    rcases windowSum_cases hs c windowId (by rintro q w redisMs rfl; exact he) with
      heq | heq | ⟨heq, hone⟩ <;> omega
  supplies := h.supplies_step hs he hacc
  later hle j d hj hd hnew := h.later_step hs he hacc hfirst hle hj hd hnew

/-- A new request changes nothing. -/
theorem Keeps.concat {s₀ s : Cluster} {d : Check} (h : Keeps c nowMs windowId n s₀ s)
    (hstage : d.stage = .resolved) :
    Keeps c nowMs windowId n s₀ { s with checks := s.checks ++ [d] } := by
  have hcalled : ({ s with checks := s.checks ++ [d] } : Cluster).called c = s.called c := by
    simp [called, List.countP_append, hstage]
  have hpassed : ({ s with checks := s.checks ++ [d] } : Cluster).passed c = s.passed c := by
    simp [Cluster.passed, List.countP_append, hstage, Stage.pending]
  refine ⟨h.nonneg, ?_, ?_, ?_, fun hle j d' hj hd' hnew => ?_⟩
  · rw [hpassed]
    exact h.passed
  · rw [hpassed]
    exact h.sum
  · rw [hcalled]
    exact h.supplies
  · rcases getElem?_concat_cases hj with hj | ⟨-, rfl⟩
    · exact h.later (hcalled ▸ hle) j d' hj hd' hnew
    · exact .of_resolved hstage

/-- Behind the limiter's call of a request that is answered `remaining = n`. -/
theorem Keeps.start {s s₀ : Cluster} {i : ℕ} {fallback : Algorithm} {redisMs : ℤ} {nonce : ℕ}
    {out : Outcome} (hn : ∀ q k, (s.globals q k).Nonneg)
    (hs : s.step (.decide i fallback nowMs nonce redisMs out) = some s₀)
    (hi : s.checks[i]? = some c) (hacc : c.pol.Accepted) (hl : 0 < c.limit) {d : Check} {r : Reply}
    (hd : s₀.checks[i]? = some d) (hr : d.reply = some r) (hallowed : r.allowed = true)
    (hrem : r.remaining = n) : Keeps c nowMs windowId n s₀ s₀ := by
  refine ⟨fun q k r => ((effect hs).slotEffect q k r).nonneg (hn q k r), le_rfl, le_rfl,
    fun k hk f => ?_, fun _ j d' hj _ hnew => .of_resolved (hnew d' hj)⟩
  obtain ⟨a, -, ha⟩ := hacc.exists_limiter
  obtain ⟨c', hi', -, -, hc, hlocals⟩ := decide_cases hs
  obtain rfl := Option.some.inj (hi.symm.trans hi')
  rw [hc, getElem?_set_of_getElem? hi] at hd
  obtain rfl := Option.some.inj hd
  dsimp only at hr
  split_ifs at hr with hout
  subst hout
  rw [ha] at hr hlocals ⊢
  rw [hlocals]
  have hsupplies := Limiter.supplies_of_check hl hr hallowed hrem
  simpa [Outcome.applied] using hsupplies.mono (by omega : k ≤ n)

/-- It is the only request of its user that has called the limiter and is not counted yet. -/
theorem called_of_alone {s s₀ : Cluster} {i : ℕ} {fallback : Algorithm} {redisMs : ℤ} {nonce : ℕ}
    {out : Outcome} (halone : ∀ d ∈ s.checks, c.sameUser d = true → d.stage ≠ .decided)
    (hs : s.step (.decide i fallback nowMs nonce redisMs out) = some s₀)
    (hi : s.checks[i]? = some c) {d : Check} {r : Reply} (hd : s₀.checks[i]? = some d)
    (hr : d.reply = some r) : s₀.called c = s₀.passed c + 1 := by
  obtain ⟨c', hi', hstage, -, hc, -⟩ := decide_cases hs
  obtain rfl := Option.some.inj (hi.symm.trans hi')
  have hsame : c.sameUser c = true := Check.sameUser_iff.mpr ⟨rfl, rfl, rfl⟩
  have hbefore : s.called c = s.passed c := by
    refine List.countP_congr fun d hd => ?_
    have hdecided := halone d hd
    cases hu : c.sameUser d with
    | false => rfl
    | true =>
      have := hdecided hu
      cases hst : d.stage <;> simp_all [Stage.pending]
  generalize (if out = .ok then _ else none : Option Reply) = reply at hc
  rw [hc, getElem?_set_of_getElem? hi] at hd
  obtain rfl := Option.some.inj hd
  obtain rfl : reply = some r := hr
  have hcalled : s₀.called c = s.called c + 1 := called_of_decide hi hc hsame hstage nofun
  have hkeep : s₀.passed c = s.passed c := by
    rw [passed, hc]
    exact countP_set_of_eq hi (by simp [hstage, Stage.pending])
  rw [hcalled, hbefore, hkeep]

/-! ## Its answer -/

/-- A request that has its limiter's reply. -/
structure Replied (reply : Option Reply) (d : Check) : Prop where
  reply : d.reply = reply
  stage : d.stage ≠ .resolved
  answer : ∀ resp, d.stage = .answered resp → resp.allowed = true → resp = d.localResponse

theorem Replied.update {reply : Option Reply} {s s' : Cluster} {i : ℕ} {d d' : Check} {e : Event}
    (h : Replied reply d) (hu : Update s s' i d e d') : Replied reply d' := by
  refine ⟨?_, hu.stage_cases.1, ?_⟩
  · cases hu with
    | decide _ _ hstage => exact absurd hstage h.stage
    | _ => exact h.reply
  · intro resp hresp hallowed
    cases hu with
    | decide _ _ hstage => exact absurd hstage h.stage
    | skip => exact (Stage.answered.inj hresp).symm
    | incr n hash stage hunix hstage hincr hnext =>
      rcases hnext with ⟨-, rfl⟩ | ⟨-, rfl⟩
      · exact absurd hresp nofun
      · exact (Stage.answered.inj hresp).symm
    | expire => exact absurd hresp nofun
    | publish => exact absurd hresp nofun
    | read resp' hstage hresp' =>
      obtain rfl := Stage.answered.inj hresp
      rw [hresp'] at hallowed ⊢
      split_ifs at hallowed ⊢
      · unfold Check.response at hallowed ⊢
        split_ifs at hallowed ⊢
        · exact absurd hallowed Bool.false_ne_true
        · rfl
      · rfl

/-- No later step changes it. -/
theorem Effect.replied {reply : Option Reply} {s s' : Cluster} {e : Event} (h : Effect s s' e)
    {i : ℕ} (hs : ∃ d, s.checks[i]? = some d ∧ Replied reply d) :
    ∃ d, s'.checks[i]? = some d ∧ Replied reply d := by
  obtain ⟨d, hi, hd⟩ := hs
  rcases h.checks_cases with hc | ⟨-, b, -, -, -, hc⟩ | ⟨j, b, b', hj, hc, hu⟩
  · exact ⟨d, hc ▸ hi, hd⟩
  · exact ⟨d, hc ▸ getElem?_concat_of_getElem? hi b, hd⟩
  · rw [hc]
    by_cases hij : j = i
    · subst hij
      obtain rfl := Option.some.inj (hi.symm.trans hj)
      exact ⟨b', getElem?_set_of_getElem? hj b', hd.update hu⟩
    · exact ⟨d, (List.getElem?_set_ne hij).trans hi, hd⟩

/-- What an answer `allowed=true` says about the limiter's reply. -/
theorem Replied.of_allowed {reply : Option Reply} {d : Check} {resp : CheckResponse}
    (h : Replied reply d) (hstage : d.stage = .answered resp) (hallowed : resp.allowed = true) :
    ∃ r, reply = some r ∧ r.allowed = true ∧ r.remaining = resp.remaining := by
  have hresp := h.answer resp hstage hallowed
  rw [Check.localResponse, h.reply] at hresp
  cases reply with
  | none => exact absurd hallowed (by rw [hresp]; exact nofun)
  | some r =>
    subst hresp
    exact ⟨r, rfl, hallowed, rfl⟩

theorem replied_of_decide {s s₀ : Cluster} {i : ℕ} {fallback : Algorithm} {now redisMs : ℤ}
    {nonce : ℕ} {out : Outcome}
    (hs : s.step (.decide i fallback now nonce redisMs out) = some s₀) :
    ∃ d, s₀.checks[i]? = some d ∧ Replied d.reply d := by
  obtain ⟨c, hi, hstage, -, hc, -⟩ := decide_cases hs
  generalize (if out = .ok then _ else none : Option Reply) = reply at hc
  refine ⟨_, hc ▸ getElem?_set_of_getElem? hi _, rfl, ?_, fun resp hresp hallowed => ?_⟩
  · dsimp only
    split_ifs <;> exact nofun
  · dsimp only at hresp
    split_ifs at hresp
    exact (Stage.answered.inj hresp).symm

end Promise

end Cluster

namespace Gateways

/-- What a step does to the cluster : nothing, one more request, or a step of the cluster. -/
theorem cluster_cases {g g' : Gateways} {e : Event} (h : g.step e = some g') :
    g'.cluster = g.cluster ∨
    (∃ d : Check, d.slot = none ∧ d.windowId = 0 ∧ d.stage = .resolved ∧
      g'.cluster = { g.cluster with checks := g.cluster.checks ++ [d] }) ∨
    ∃ e', e = .cluster e' ∧ g.cluster.step e' = some g'.cluster := by
  cases e with
  | cluster e =>
    rw [step] at h
    split_ifs at h
    obtain ⟨s, hs, rfl⟩ := Option.map_eq_some_iff.mp h
    exact Or.inr (Or.inr ⟨e, rfl, hs⟩)
  | bind r tier userId =>
    obtain rfl := Option.some.inj h
    exact Or.inl rfl
  | begin i now =>
    rw [step] at h
    split at h
    · obtain rfl := Option.some.inj h
      exact Or.inl rfl
    · cases h
  | lookup i e =>
    rw [step] at h
    split at h
    · obtain ⟨x, -, rfl⟩ := Option.map_eq_some_iff.mp h
      exact Or.inl rfl
    · cases h
  | enter i =>
    rw [step] at h
    split at h
    · obtain rfl := Option.some.inj h
      exact Or.inr (Or.inl ⟨_, rfl, rfl, rfl, rfl⟩)
    · cases h

/-- What every step does to the cluster. -/
theorem effect_cases {g g' : Gateways} {e : Event} (h : g.step e = some g') :
    g'.cluster = g.cluster ∨ ∃ e', Cluster.Effect g.cluster g'.cluster e' := by
  rcases cluster_cases h with hsame | ⟨d, hslot, hwindow, hstage, hc⟩ | ⟨e', -, hs⟩
  · exact Or.inl hsame
  · refine Or.inr ⟨.start d.region d.tier d.userId none, ?_⟩
    rw [hc]
    exact .start d hslot hwindow hstage rfl (.refl rfl)
  · exact Or.inr ⟨e', Cluster.effect hs⟩

theorem nonneg_of_reached {es : List Event} {g : Gateways} (h : Run (Steps step) init es g) :
    ∀ q k, (g.cluster.globals q k).Nonneg := by
  refine h.invariant (I := fun g => ∀ q k, (g.cluster.globals q k).Nonneg)
    (fun g e g' hg hstep => ?_) fun _ _ _ => le_rfl
  rcases effect_cases hstep with hsame | ⟨e', he'⟩
  · rw [hsame]
    exact hg
  · exact fun q k r => (he'.slotEffect q k r).nonneg (hg q k r)

/-- A step of the gateways on the terms of a request. -/
def TermsStep (c : Check) (nowMs windowId : ℤ) (g : Gateways) (e : Event) (g' : Gateways) : Prop :=
  g.step e = some g' ∧ ∀ e', e = .cluster e' → g.cluster.SameTerms c nowMs windowId e'

/-- Request `i` is answered `allowed=true` with `remaining = n`. Its limiter was called, at
some time of some run, while no other request of its user was between its limiter and
`HINCRBY`, and since then up to `n` more of them have been made on its terms. -/
structure Promises (c : Check) (i : ℕ) (nowMs windowId : ℤ) (n : ℕ) (g₀ g : Gateways) : Prop where
  call : ∃ es u fallback nonce redisMs out, Run (Steps step) init es u ∧
    u.cluster.checks[i]? = some c ∧
    (∀ d ∈ u.cluster.checks, c.sameUser d = true → d.stage ≠ .decided) ∧
    u.step (.cluster (.decide i fallback nowMs nonce redisMs out)) = some g₀
  later : ∃ es, Run (TermsStep c nowMs windowId) g₀ es g
  called : g.cluster.called c ≤ g₀.cluster.called c + n
  answer : ∃ d resp, g.cluster.checks[i]? = some d ∧ d.stage = .answered resp ∧
    resp.allowed = true ∧ resp.remaining = n

theorem replied_of_run {c : Check} {nowMs windowId : ℤ} {g₀ g : Gateways} {es : List Event}
    (hrun : Run (TermsStep c nowMs windowId) g₀ es g) {i : ℕ} {reply : Option Reply}
    (h : ∃ d, g₀.cluster.checks[i]? = some d ∧ Cluster.Replied reply d) :
    ∃ d, g.cluster.checks[i]? = some d ∧ Cluster.Replied reply d := by
  refine hrun.invariant
    (I := fun g => ∃ d, g.cluster.checks[i]? = some d ∧ Cluster.Replied reply d)
    (fun g e g' hg hstep => ?_) h
  rcases effect_cases hstep.1 with hsame | ⟨e', he'⟩
  · rw [hsame]
    exact hg
  · exact he'.replied hg

theorem keeps_of_run {c : Check} {nowMs windowId : ℤ} {n : ℕ} {g₀ g : Gateways} {es : List Event}
    (hrun : Run (TermsStep c nowMs windowId) g₀ es g) (hacc : c.pol.Accepted)
    (hfirst : g₀.cluster.called c = g₀.cluster.passed c + 1)
    (h : Cluster.Keeps c nowMs windowId n g₀.cluster g₀.cluster) :
    Cluster.Keeps c nowMs windowId n g₀.cluster g.cluster := by
  refine hrun.invariant (I := fun g => Cluster.Keeps c nowMs windowId n g₀.cluster g.cluster)
    (fun g e g' hg hstep => ?_) h
  rcases cluster_cases hstep.1 with hsame | ⟨d, -, -, hd, hc⟩ | ⟨e', rfl, hs⟩
  · rw [hsame]
    exact hg
  · rw [hc]
    exact hg.concat hd
  · exact hg.step hs (hstep.2 e' rfl) hacc hfirst (Hash.total_nonneg (h.nonneg _ _))

/-- **What `remaining` promises.** The limiter allows the next `n` requests of the user, made
on the same terms, and only the global cap denies one of them. It denies none where the sum
of the window's slots at the limiter's call leaves room for this request and `n` more. -/
theorem promise_kept {c d : Check} {i j n : ℕ} {nowMs windowId : ℤ} {g₀ g : Gateways}
    {resp : CheckResponse} (h : Promises c i nowMs windowId n g₀ g)
    (hnew : g₀.cluster.Uncalled j) (hj : g.cluster.checks[j]? = some d)
    (hd : c.sameUser d = true) (hresp : d.stage = .answered resp) :
    (resp.allowed = true ∨ d.capped = true) ∧
      (g₀.cluster.windowSum c windowId + (1 + n) ≤ c.pol.globalLimit → resp.allowed = true) := by
  obtain ⟨es, u, fallback, nonce, redisMs, out, hu, hi, halone, hcall⟩ := h.call
  obtain ⟨es', hrun⟩ := h.later
  obtain ⟨b, resp', hb, hstage, hallowed, hrem⟩ := h.answer
  obtain ⟨s₀, hs₀, rfl⟩ := Option.map_eq_some_iff.mp
    (show (u.cluster.step _).map (fun cluster => { u with cluster }) = some g₀ from hcall)
  have hserved := (served_of_reached hu).checks c (List.mem_of_getElem? hi)
  -- the reply of the limiter is what the request has been answered
  obtain ⟨b₀, hb₀, hreplied₀⟩ := Cluster.replied_of_decide hs₀
  obtain ⟨b', hb', hreplied⟩ := replied_of_run hrun ⟨b₀, hb₀, hreplied₀⟩
  obtain rfl := Option.some.inj (hb.symm.trans hb')
  obtain ⟨r, hr, hrallowed, hrrem⟩ := hreplied.of_allowed hstage hallowed
  have hfirst := Cluster.called_of_alone halone hs₀ hi hb₀ hr
  have hkeeps := keeps_of_run hrun hserved.pol hfirst (.start (nonneg_of_reached hu) hs₀ hi
    hserved.pol hserved.limit hb₀ hr hrallowed (hrrem.trans hrem))
  have hlater := hkeeps.later h.called j d hj hd hnew
  obtain ⟨r', hr', hallowed'⟩ := hlater.reply (by rw [hresp]; exact nofun)
  refine ⟨?_, hlater.answer resp hresp⟩
  have hcapped : d.capped = (r'.allowed && !resp.allowed) := by
    rw [Check.capped, hresp, hr']
  rw [hcapped, hallowed', Bool.true_and]
  cases resp.allowed with
  | true => exact Or.inl rfl
  | false => exact Or.inr rfl

/-! ## Samples -/

instance (c : Check) (nowMs windowId : ℤ) (g : Gateways) (e : Event) :
    Decidable (∀ e', e = .cluster e' → g.cluster.SameTerms c nowMs windowId e') :=
  match e with
  | .cluster (.decide i _ now _ _ out) =>
    decidable_of_iff (∀ d ∈ g.cluster.checks[i]?, c.sameUser d = true →
      d.pol = c.pol ∧ d.limit = c.limit ∧ now = nowMs ∧ out = .ok)
      ⟨fun h _ he => Event.cluster.inj he ▸ h, fun h => h _ rfl⟩
  | .cluster (.incr i unix _) =>
    decidable_of_iff (∀ d ∈ g.cluster.checks[i]?, c.sameUser d = true → unix.tdiv 60 = windowId)
      ⟨fun h _ he => Event.cluster.inj he ▸ h, fun h => h _ rfl⟩
  | .cluster (.merge q w _) =>
    decidable_of_iff (¬ (q = c.region ∧ w.key = c.windowKey windowId))
      ⟨fun h _ he => Event.cluster.inj he ▸ h, fun h => h _ rfl⟩
  | .cluster (.refresh ..) | .cluster (.start ..) | .cluster (.expire ..) | .cluster (.publish ..)
  | .cluster (.read ..) | .cluster (.evict ..) =>
    isTrue fun _ he => Event.cluster.inj he ▸ trivial
  | .bind .. | .begin .. | .lookup .. | .enter .. => isTrue fun _ he => absurd he nofun

/-- A request comes in and goes on behind the lookup of its user's override. -/
def arriving (j : ℕ) (lookup : List LookupEvent) : List Event :=
  [.bind .us .free Cluster.sampleUser, .begin j 0] ++ lookup.map (.lookup j) ++ [.enter j]

/-- The rest of a first request's handling, and a second request. -/
def nextRequest : List Event :=
  ((Cluster.handling 0 .us .free Cluster.sampleUser 420).drop 2).map .cluster ++ arriving 1 [] ++
    ((Cluster.handling 1 .us .free Cluster.sampleUser 420).drop 1).map .cluster

/-- The second request's answer behind an answer with four remaining, and whether there is room
for all of them. -/
def nextAnswer (es : List Event) : Option (CheckResponse × Bool) := do
  let u ← exec step init (es ++ arriving 0 [.lock 0, .fetch 0 .nil, .publish])
  let c ← u.cluster.checks[0]?
  let g₀ ← u.step (.cluster (.decide 0 .tokenBucket 420000 1 420000 .ok))
  let g ← exec (guarded step fun g e =>
    ∀ e', e = .cluster e' → g.cluster.SameTerms c 420000 7 e') g₀ nextRequest
  let b ← g.cluster.checks[0]?
  let d ← g.cluster.checks[1]?
  match b.stage, d.stage with
  | .answered resp, .answered resp' =>
    if resp.allowed = true ∧ resp.remaining = 4 ∧ c.sameUser d = true ∧
        (∀ d ∈ u.cluster.checks, c.sameUser d = true → d.stage ≠ .decided) ∧
        g₀.cluster.checks.length = 1 ∧ g.cluster.called c ≤ g₀.cluster.called c + 4 then
      some (resp', g₀.cluster.windowSum c 7 + (1 + 4) ≤ c.pol.globalLimit)
    else none
  | _, _ => none

theorem promises_of_nextAnswer {es : List Event} {resp : CheckResponse} {room : Bool}
    (h : nextAnswer es = some (resp, room)) : ∃ c d g₀ g, Promises c 0 420000 7 4 g₀ g ∧
      g₀.cluster.Uncalled 1 ∧ g.cluster.checks[1]? = some d ∧ c.sameUser d = true ∧
      d.stage = .answered resp ∧
      room = decide (g₀.cluster.windowSum c 7 + (1 + (4 : ℕ)) ≤ c.pol.globalLimit) := by
  obtain ⟨u, hu, h⟩ := Option.bind_eq_some_iff.mp h
  obtain ⟨c, hc, h⟩ := Option.bind_eq_some_iff.mp h
  obtain ⟨g₀, hg₀, h⟩ := Option.bind_eq_some_iff.mp h
  obtain ⟨g, hg, h⟩ := Option.bind_eq_some_iff.mp h
  obtain ⟨b, hb, h⟩ := Option.bind_eq_some_iff.mp h
  obtain ⟨d, hd, h⟩ := Option.bind_eq_some_iff.mp h
  split at h
  · rename_i resp₀ resp' hstage hstage'
    split_ifs at h with hall
    obtain ⟨rfl, rfl⟩ := Prod.mk.inj (Option.some.inj h)
    obtain ⟨hallowed, hrem, hsame, halone, hlen, hcalled⟩ := hall
    refine ⟨c, d, g₀, g, ⟨⟨_, u, _, _, _, _, run_of_exec hu, hc, halone, hg₀⟩,
      ⟨_, run_of_exec_guarded hg⟩, hcalled, ⟨b, resp₀, hb, hstage, hallowed, hrem⟩⟩,
      fun d' hd' => ?_, hd, hsame, hstage', rfl⟩
    rw [List.getElem?_eq_none hlen.le] at hd'
    exact absurd hd' nofun
  · exact absurd h nofun

theorem promise_kept_sample : ∃ resp : CheckResponse, nextAnswer [] = some (resp, true) ∧
    resp.allowed = true := by
  have hroom : (nextAnswer []).map Prod.snd = some true := by decide +kernel
  obtain ⟨⟨resp, room⟩, h, rfl⟩ := Option.map_eq_some_iff.mp hroom
  obtain ⟨c, d, g₀, g, hp, hnew, hj, hd, hresp, hsum⟩ := promises_of_nextAnswer h
  exact ⟨resp, h, (promise_kept hp hnew hj hd hresp).2 (of_decide_eq_true hsum.symm)⟩

/-- Nine requests are counted in `eu` before the user's first one in `us`, and the second is one
too many for the global limit. -/
theorem not_promise : ¬ ∀ (c d : Check) (i j n : ℕ) (nowMs windowId : ℤ) (g₀ g : Gateways)
    (resp : CheckResponse), Promises c i nowMs windowId n g₀ g → g₀.cluster.Uncalled j →
      g.cluster.checks[j]? = some d → c.sameUser d = true → d.stage = .answered resp →
      resp.allowed = true := by
  intro hall
  have hend : (nextAnswer [.cluster (.merge .us ⟨str "free", str "u_1", 7, .eu,
      ⟨.int 9, by decide⟩⟩ 0)]).map (fun x => x.1.allowed) = some false := by decide +kernel
  obtain ⟨⟨resp, room⟩, h, hdenied⟩ := Option.map_eq_some_iff.mp hend
  obtain ⟨c, d, g₀, g, hp, hnew, hj, hd, hresp, -⟩ := promises_of_nextAnswer h
  have hallowed := hall c d 0 1 4 420000 7 g₀ g resp hp hnew hj hd hresp
  exact absurd (hdenied.symm.trans hallowed) Bool.false_ne_true

end Gateways

end Gdrl
