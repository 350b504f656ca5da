import Gdrl.Gateway
import Gdrl.OverrideCache

/-!
# What the limiters are called with

`Gateways` adds to the cluster what comes before a request's limiter : the request takes
its policy from the store, looks its user's override up in the cache, step by step and
among other lookups, and only then goes on with both. The policy may be out of date by
then.

Whatever Redis holds, every request goes on with a policy that the store has accepted and
a positive limit (`served_of_reached`), and no answer asks to wait for `-1` milliseconds,
the script's word for a bucket that never refills.
-/

namespace Gdrl

/-! ## What the limiters answer -/

theorem TokenBucket.retryAfterMs_nonneg {c : Call} (hl : 0 < c.limit) (data : Option Bucket) :
    0 ≤ (call c data).1.retryAfterMs := by
  unfold call
  dsimp only
  split_ifs with h
  · exact le_rfl
  · refine Int.ceil_nonneg (div_nonneg ?_ (by exact_mod_cast hl.le))
    exact mul_nonneg (by linarith [not_le.mp h]) (by norm_num)

theorem SlidingWindow.retryAfterMs_nonneg (c : Call) (data : Option Log) :
    0 ≤ (call c data).1.retryAfterMs := by
  unfold call
  dsimp only
  split_ifs
  · exact retryAfter_nonneg _ _
  · exact le_rfl

/-- With a positive limit no limiter answers that waiting is in vain. -/
theorem Limiter.retryAfterMs_nonneg (a : Algorithm) (key : Str) {c : Call} (hl : 0 < c.limit)
    (m : LocalRedis) : ∀ r ∈ (check a key c m).1, 0 ≤ r.retryAfterMs := by
  intro r hr
  unfold check at hr
  split at hr
  · exact absurd hr nofun
  · rename_i reply v hscript
    obtain rfl := Option.some.inj hr
    unfold script at hscript
    split at hscript
    · obtain ⟨rfl, -⟩ := Prod.mk.inj (Option.some.inj hscript)
      exact TokenBucket.retryAfterMs_nonneg hl _
    · obtain ⟨rfl, -⟩ := Prod.mk.inj (Option.some.inj hscript)
      exact TokenBucket.retryAfterMs_nonneg hl _
    · cases hscript
    · obtain ⟨rfl, -⟩ := Prod.mk.inj (Option.some.inj hscript)
      exact SlidingWindow.retryAfterMs_nonneg _ _
    · obtain ⟨rfl, -⟩ := Prod.mk.inj (Option.some.inj hscript)
      exact SlidingWindow.retryAfterMs_nonneg _ _
    · cases hscript

/-- A policy that the store accepts names a limiter, and the fallback is not asked for. -/
theorem Policy.Accepted.exists_limiter {p : Policy} (h : p.Accepted) :
    ∃ a : Algorithm, p.algorithm = a.name ∧ ∀ fallback, p.selectLimiter fallback = a := by
  rcases h.2.2 with h | h
  · exact ⟨.tokenBucket, h, fun fallback => if_pos h⟩
  · refine ⟨.slidingWindow, h, fun fallback => ?_⟩
    rw [Policy.selectLimiter, h, if_neg (by decide), if_pos rfl]

/-- A refresh keeps accepted policies, whatever Redis holds. -/
theorem Store.accepted_refresh {s : Store} (hs : ∀ t, (s.get t).Accepted)
    (get : Str → Option (List Byte)) (t : Tier) : ((s.refresh get).get t).Accepted := by
  rw [Store.refresh_get]
  exact Store.accepted_refreshTier hs t _ t

/-! ## Requests behind their lookup -/

/-- A request that the limiter can be called for, and what it has been answered so far. -/
structure Check.Served (c : Check) : Prop where
  limit : 0 < c.limit
  pol : c.pol.Accepted
  reply : ∀ r ∈ c.reply, 0 ≤ r.retryAfterMs
  answer : ∀ resp, c.stage = .answered resp → 0 ≤ resp.retryAfterMs

theorem Check.Served.localResponse {c : Check} (h : c.Served) :
    0 ≤ c.localResponse.retryAfterMs := by
  unfold Check.localResponse
  cases hr : c.reply with
  | none => exact (by decide : (0 : ℤ) ≤ 1000)
  | some r => exact h.reply r hr

theorem Check.Served.response {c : Check} (h : c.Served) (hash : Hash) (nowMs : ℤ) :
    0 ≤ (c.response hash nowMs).retryAfterMs := by
  unfold Check.response
  split_ifs
  · exact le_max_left _ _
  · exact h.localResponse

namespace Cluster

/-- The stores hold accepted policies. -/
def StoresAccepted (s : Cluster) : Prop := ∀ r t, ((s.stores r).get t).Accepted

theorem runLimiter_served {s : Cluster} (hs : ∀ c ∈ s.checks, c.Served) {i : ℕ} {c : Check}
    (hi : s.checks[i]? = some c) (fallback : Algorithm) {call : Limiter.Call}
    (hl : 0 < call.limit) (out : Outcome) :
    ∀ d ∈ (s.runLimiter i c fallback call out).checks, d.Served := by
  have hc := hs c (List.mem_of_getElem? hi)
  have hretry := Limiter.retryAfterMs_nonneg (c.pol.selectLimiter fallback) c.localKey hl
    (s.locals c.region)
  unfold runLimiter
  generalize Limiter.check (c.pol.selectLimiter fallback) c.localKey call
    (s.locals c.region) = r at hretry
  obtain ⟨reply, m⟩ := r
  dsimp only at hretry ⊢
  have hreply : ∀ r ∈ if out = .ok then reply else none, 0 ≤ r.retryAfterMs := by
    split_ifs
    · exact hretry
    · exact nofun
  generalize (if out = .ok then reply else none) = reply' at hreply
  have hlocal : Check.Served { c with reply := reply', stage := .resolved } :=
    ⟨hc.limit, hc.pol, hreply, nofun⟩
  intro d hd
  have hd' : d ∈ s.checks.set i { c with
      reply := reply'
      stage := if reply'.isSome then .decided
        else .answered { c with reply := reply' }.localResponse } := by
    revert hd
    cases out <;> exact id
  rcases List.mem_or_eq_of_mem_set hd' with hd' | rfl
  · exact hs d hd'
  · refine ⟨hc.limit, hc.pol, hreply, fun resp hresp => ?_⟩
    dsimp only at hresp
    split_ifs at hresp
    exact Stage.answered.inj hresp ▸ hlocal.localResponse

/-- Every step of the handling keeps requests served. -/
theorem step_served {s s' : Cluster} {e : Event} (hs : ∀ c ∈ s.checks, c.Served)
    (he : e.isStart = false) (h : s.step e = some s') : ∀ c ∈ s'.checks, c.Served := by
  by_cases hdecide : ∃ i fallback nowMs nonce redisMs out,
      e = .decide i fallback nowMs nonce redisMs out
  · obtain ⟨i, fallback, nowMs, nonce, redisMs, out, rfl⟩ := hdecide
    obtain ⟨c, hi, rfl⟩ := Option.map_eq_some_iff.mp h
    have hi := (checkAt_eq_some.mp hi).1
    exact runLimiter_served hs hi fallback (hs c (List.mem_of_getElem? hi)).limit out
  have hset : ∀ {i : ℕ} {c : Check} {windowId : ℤ} {slot : Option ℤ} {stage : Stage},
      s.checks[i]? = some c → s'.checks = s.checks.set i { c with windowId, slot, stage } →
      (∀ resp, stage = .answered resp → 0 ≤ resp.retryAfterMs) → ∀ d ∈ s'.checks, d.Served := by
    intro i c windowId slot stage hi hchecks hstage d hd
    have hc := hs c (List.mem_of_getElem? hi)
    rcases List.mem_or_eq_of_mem_set (hchecks ▸ hd) with hd | rfl
    · exact hs d hd
    · exact ⟨hc.limit, hc.pol, hc.reply, hstage⟩
  have hlocal : ∀ {i : ℕ} {c : Check}, s.checks[i]? = some c →
      ∀ resp, Stage.answered c.localResponse = .answered resp → 0 ≤ resp.retryAfterMs :=
    fun hi resp h => Stage.answered.inj h ▸ (hs _ (List.mem_of_getElem? hi)).localResponse
  cases effect h with
  | refresh hc hg | merge hne hc hg | evict hc hg => exact hc ▸ hs
  | start => exact absurd he nofun
  | decide => exact absurd ⟨_, _, _, _, _, _, rfl⟩ hdecide
  | skip c hunix hi hstage hfail hc hg => exact hset hi hc (hlocal hi)
  | incr c c' n hash stage hunix hi hstage hc' hincr hnext hc hg =>
    subst hc'
    refine hset hi hc ?_
    rcases hnext with ⟨-, rfl⟩ | ⟨-, rfl⟩
    · exact nofun
    · exact hlocal hi
  | expire c hi hstage hc hg | publish c hi hstage hts hc hg => exact hset hi hc nofun
  | read c resp hi hstage hresp hc hg =>
    refine hset hi hc fun resp' hresp' => ?_
    obtain rfl := Stage.answered.inj hresp'
    rw [hresp]
    split_ifs
    · exact (hs c (List.mem_of_getElem? hi)).response _ _
    · exact (hs c (List.mem_of_getElem? hi)).localResponse

/-- Only a refresh changes a store. -/
theorem stores_cases {s s' : Cluster} {e : Event} (h : s.step e = some s') :
    s'.stores = s.stores ∨ ∃ r get, s'.stores = fun q =>
      if q = r then (s.stores q).refresh get else s.stores q := by
  by_cases he : ∃ r get, e = .refresh r get
  · obtain ⟨r, get, rfl⟩ := he
    obtain rfl := Option.some.inj h
    exact Or.inr ⟨r, get, rfl⟩
  · exact Or.inl ((step_frame h).1 fun r get heq => he ⟨r, get, heq⟩)

/-- What a refresh keeps of the policies, every step keeps. -/
theorem step_policies {P : Policy → Prop} (hP : ∀ (u : Store) get, (∀ t, P (u.get t)) →
    ∀ t, P ((u.refresh get).get t)) {s s' : Cluster} {e : Event}
    (hs : ∀ r t, P ((s.stores r).get t)) (h : s.step e = some s') :
    ∀ r t, P ((s'.stores r).get t) := by
  intro q t
  rcases stores_cases h with h | ⟨r, get, h⟩
  · rw [h]
    exact hs q t
  · rw [h]
    dsimp only
    split_ifs
    · exact hP _ get (hs q) t
    · exact hs q t

/-- Every step keeps accepted policies in the stores. -/
theorem step_stores {s s' : Cluster} {e : Event} (hs : s.StoresAccepted)
    (h : s.step e = some s') : s'.StoresAccepted :=
  step_policies (fun _ get hu t => Store.accepted_refresh hu get t) hs h

end Cluster

/-! ## Requests before it -/

/-- Where a request is before its limiter : it has its policy, it looks its override up, or
it has gone on. -/
inductive ArrivalStage
  | bound
  | looking (lookup : LookupStage)
  | entered

/-- A request with the policy it found. -/
structure Arrival where
  region : Region
  tier : Tier
  userId : UserId
  pol : Policy
  stage : ArrivalStage

/-- What a request may have found. -/
structure Arrival.Served (a : Arrival) : Prop where
  pol : a.pol.Accepted
  stage : ∀ l, a.stage = .looking l → l.Positive

/-- The request once its override is looked up. -/
def Arrival.check (a : Arrival) (override : Option ℤ) : Check :=
  ⟨a.region, a.tier, a.userId, a.pol, a.pol.effectiveLimit override, none, 0, none, .resolved⟩

theorem Arrival.Served.check {a : Arrival} (h : a.Served) {override : Option ℤ}
    (ho : ∀ l ∈ override, 0 < l) : (a.check override).Served := by
  refine ⟨?_, h.pol, nofun, nofun⟩
  cases override with
  | none => exact h.pol.1
  | some l => exact ho l rfl

/-- A request whose policy is still the store's goes on as the cluster's `start`. -/
theorem Cluster.step_start (s : Cluster) {a : Arrival}
    (ha : (s.stores a.region).get a.tier = a.pol) (override : Option ℤ) :
    s.step (.start a.region a.tier a.userId override) =
      some { s with checks := s.checks ++ [a.check override] } := by
  rw [Arrival.check, ← ha]
  rfl

/-- The cluster with the override cache of each gateway. -/
structure Gateways where
  cluster : Cluster
  caches : Region → OverrideCache
  arrivals : List Arrival

namespace Gateways

inductive Event
  /-- A step of the cluster other than `start`. -/
  | cluster (e : Cluster.Event)
  /-- A request is bound and takes its policy. -/
  | bind (r : Region) (tier : Tier) (userId : UserId)
  /-- The fast path of its lookup. -/
  | begin (i : ℕ) (now : ℤ)
  /-- Its lookup goes on. -/
  | lookup (i : ℕ) (e : LookupEvent)
  /-- It goes on to the limiter. -/
  | enter (i : ℕ)

/-- One step, `none` where it cannot be taken. Requests go by their place in `arrivals`. -/
def step (g : Gateways) : Event → Option Gateways
  | .cluster e =>
    if e.isStart then none else (g.cluster.step e).map fun cluster => { g with cluster }
  | .bind r tier userId =>
    some { g with
      arrivals := g.arrivals ++ [⟨r, tier, userId, (g.cluster.stores r).get tier, .bound⟩] }
  | .begin i now =>
    match g.arrivals[i]? with
    | some ⟨r, tier, userId, pol, .bound⟩ =>
      let l := (g.caches r).begin userId.val now
      some { g with arrivals := g.arrivals.set i ⟨r, tier, userId, pol, .looking l⟩ }
    | _ => none
  | .lookup i e =>
    match g.arrivals[i]? with
    | some ⟨r, tier, userId, pol, .looking l⟩ =>
      ((g.caches r).advance userId.val l e).map fun (l, cache) =>
        { g with
          caches := fun q => if q = r then cache else g.caches q
          arrivals := g.arrivals.set i ⟨r, tier, userId, pol, .looking l⟩ }
    | _ => none
  | .enter i =>
    match g.arrivals[i]? with
    | some ⟨r, tier, userId, pol, .looking (.returned limit hasOverride)⟩ =>
      let a : Arrival := ⟨r, tier, userId, pol, .entered⟩
      let override := if hasOverride then some limit else none
      some { g with
        cluster := { g.cluster with checks := g.cluster.checks ++ [a.check override] }
        arrivals := g.arrivals.set i a }
    | _ => none

/-- Gateways at their start, with the time to live that `main` gives the caches. -/
def init : Gateways := ⟨.init, fun _ => .new 5000000000, []⟩

/-- Sane inputs at all stages of a request. -/
structure Served (g : Gateways) : Prop where
  stores : g.cluster.StoresAccepted
  caches : ∀ r, (g.caches r).Positive
  arrivals : ∀ a ∈ g.arrivals, a.Served
  checks : ∀ c ∈ g.cluster.checks, c.Served

theorem init_served : init.Served where
  stores _ t := Policy.accepted_lookup t
  caches _ := OverrideCache.new_positive _
  arrivals _ h := absurd h List.not_mem_nil
  checks _ h := absurd h List.not_mem_nil

theorem Served.set_arrival {g : Gateways} (hg : g.Served) {i : ℕ} {a : Arrival} (ha : a.Served) :
    ∀ b ∈ g.arrivals.set i a, b.Served := by
  intro b hb
  rcases List.mem_or_eq_of_mem_set hb with hb | rfl
  · exact hg.arrivals b hb
  · exact ha

/-- Whatever Redis holds, every step keeps inputs sane. -/
theorem step_served {g g' : Gateways} {e : Event} (hg : g.Served) (h : g.step e = some g') :
    g'.Served := by
  have hat : ∀ {i : ℕ} {a : Arrival}, g.arrivals[i]? = some a → a.Served :=
    fun hi => hg.arrivals _ (List.mem_of_getElem? hi)
  cases e with
  | cluster e =>
    rw [step] at h
    split_ifs at h with he
    obtain ⟨s, hs, rfl⟩ := Option.map_eq_some_iff.mp h
    exact ⟨Cluster.step_stores hg.stores hs, hg.caches, hg.arrivals,
      Cluster.step_served hg.checks (Bool.eq_false_of_not_eq_true he) hs⟩
  | bind r tier userId =>
    obtain rfl := Option.some.inj h
    refine ⟨hg.stores, hg.caches, fun a ha => ?_, hg.checks⟩
    rcases List.mem_append.mp ha with ha | ha
    · exact hg.arrivals a ha
    · rw [List.mem_singleton.mp ha]
      exact ⟨hg.stores r tier, nofun⟩
  | begin i now =>
    rw [step] at h
    split at h
    · rename_i r tier userId pol hi
      obtain rfl := Option.some.inj h
      have hbegin := (hg.caches r).begin userId.val now
      exact ⟨hg.stores, hg.caches, hg.set_arrival ⟨(hat hi).pol, fun l hl =>
        ArrivalStage.looking.inj hl ▸ hbegin⟩, hg.checks⟩
    · exact absurd h nofun
  | lookup i e =>
    rw [step] at h
    split at h
    · rename_i r tier userId pol l hi
      obtain ⟨⟨l', cache⟩, hadv, rfl⟩ := Option.map_eq_some_iff.mp h
      obtain ⟨hl', hcache⟩ := OverrideCache.advance_positive (hg.caches r)
        ((hat hi).stage l rfl) hadv
      refine ⟨hg.stores, fun q => ?_, hg.set_arrival ⟨(hat hi).pol, fun l hl =>
        ArrivalStage.looking.inj hl ▸ hl'⟩, hg.checks⟩
      dsimp only
      split_ifs
      · exact hcache
      · exact hg.caches q
    · exact absurd h nofun
  | enter i =>
    rw [step] at h
    split at h
    · rename_i r tier userId pol limit hasOverride hi
      obtain rfl := Option.some.inj h
      have ha : Arrival.Served ⟨r, tier, userId, pol, .entered⟩ := ⟨(hat hi).pol, nofun⟩
      refine ⟨hg.stores, hg.caches, hg.set_arrival ha, fun c hc => ?_⟩
      rcases List.mem_append.mp hc with hc | hc
      · exact hg.checks c hc
      · rw [List.mem_singleton.mp hc]
        refine ha.check fun l hl => ?_
        split_ifs at hl with hhas
        · exact Option.some.inj hl ▸ (hat hi).stage _ rfl hhas
        · exact absurd hl nofun
    · exact absurd h nofun

/-- Every gateway that some run leads to is served. -/
theorem served_of_reached {es : List Event} {g : Gateways} (h : Run (Steps step) init es g) :
    g.Served :=
  h.invariant (I := Served) (fun _ _ _ hg hstep => step_served hg hstep) init_served

/-- **Sane inputs.** Every request that the limiter is called for, at any time of any run,
has a positive limit, a burst that is not negative and an algorithm that is registered, so
that the fallback does not matter. No answer has the limiter's `-1`. -/
theorem inputs_sane {es : List Event} {g : Gateways} (h : Run (Steps step) init es g) :
    ∀ c ∈ g.cluster.checks, 1 ≤ c.limit ∧ 0 ≤ c.pol.burst ∧
      (∃ a : Algorithm, c.pol.algorithm = a.name ∧
        ∀ fallback, c.pol.selectLimiter fallback = a) ∧
      (∀ r ∈ c.reply, r.retryAfterMs ≠ -1) ∧
      ∀ resp, c.stage = .answered resp → resp.retryAfterMs ≠ -1 := by
  intro c hc
  have hs := (served_of_reached h).checks c hc
  have hne : ∀ {n : ℤ}, 0 ≤ n → n ≠ -1 := fun hn h => absurd (h ▸ hn) (by decide)
  exact ⟨hs.limit, hs.pol.2.1, hs.pol.exists_limiter, fun r hr => hne (hs.reply r hr),
    fun resp hresp => hne (hs.answer resp hresp)⟩

/-- A refresh meets a policy without a limit, and a user has an override. -/
def overriddenArrival : List Event :=
  [.cluster (.refresh .us fun _ => some (utf8Encode (str "\x7b\"limit_per_minute\":0\x7d"))),
    .bind .us .free Cluster.sampleUser, .begin 0 0, .lookup 0 (.lock 0),
    .lookup 0 (.fetch 0 (.value (utf8Encode (str "\x7b\"limit_per_minute\":5\x7d")))),
    .lookup 0 .publish, .enter 0, .cluster (.decide 0 .slidingWindow 0 0 0 .ok)]

theorem inputs_sane_sample : ∃ g, Run (Steps step) init overriddenArrival g ∧
    g.cluster.checks.map Check.limit = [5] ∧ ∀ c ∈ g.cluster.checks, 1 ≤ c.limit ∧
      0 ≤ c.pol.burst ∧
      (∃ a : Algorithm, c.pol.algorithm = a.name ∧
        ∀ fallback, c.pol.selectLimiter fallback = a) ∧
      (∀ r ∈ c.reply, r.retryAfterMs ≠ -1) ∧
      ∀ resp, c.stage = .answered resp → resp.retryAfterMs ≠ -1 := by
  have hend : (exec step init overriddenArrival).map
      (fun g => g.cluster.checks.map Check.limit) = some [5] := by decide +kernel
  obtain ⟨g, hg, hlimit⟩ := Option.map_eq_some_iff.mp hend
  have hrun := run_of_exec hg
  exact ⟨g, hrun, hlimit, inputs_sane hrun⟩

end Gateways

end Gdrl
