import Gdrl.Remaining

/-!
# Answers

What `/check` answers goes together : an allowed request has something left or is the last one,
and need not wait; a denied one has nothing left and may have to wait; an error is a denial for
a second. The buckets of the scripts never run into debt, so a denial of theirs leaves less than
a token. All of this holds of every answer in every run of the gateways (`coherent_of_run`).
-/

namespace Gdrl

/-! ## The limiters -/

/-- A reply whose parts go together, of a limiter that has room for `cap` requests. -/
structure Reply.Coherent (cap : ℤ) (r : Reply) : Prop where
  allowed : r.allowed = true → 0 ≤ r.remaining ∧ r.remaining < cap ∧ r.retryAfterMs = 0
  denied : r.allowed = false → r.remaining = 0 ∧ 0 ≤ r.retryAfterMs

theorem TokenBucket.coherent_call {c : Call} (hl : 0 < c.limit) (hb : 0 ≤ c.burst)
    {data : Option Bucket} (hd : ∀ b ∈ data, 0 ≤ b.tokens) :
    (call c data).1.Coherent c.burst := by
  have h0 := refill_nonneg hl.le hb hd
  have hle := refill_le_burst hl data
  have hretry := retryAfterMs_nonneg hl data
  unfold call at hretry ⊢
  dsimp only at hretry ⊢
  split_ifs at hretry ⊢ with h
  · refine ⟨fun _ => ⟨Int.floor_nonneg.mpr (by linarith), ?_, rfl⟩, nofun⟩
    rw [Int.floor_lt]
    linarith
  · exact ⟨nofun, fun _ => ⟨Int.floor_eq_zero_iff.mpr ⟨h0, not_le.mp h⟩, hretry⟩⟩

theorem SlidingWindow.coherent_call (c : Call) (data : Option Log) :
    (call c data).1.Coherent c.limit := by
  have hretry := retryAfterMs_nonneg c data
  unfold call at hretry ⊢
  dsimp only at hretry ⊢
  split_ifs at hretry ⊢ with h
  · exact ⟨nofun, fun _ => ⟨rfl, hretry⟩⟩
  · refine ⟨fun _ => ⟨?_, ?_, rfl⟩, nofun⟩
    · dsimp only
      omega
    · dsimp only
      omega

/-- No bucket is in debt. -/
def LocalRedis.Solvent (m : LocalRedis) : Prop :=
  ∀ key, ∀ e ∈ m key, ∀ b, e.value = .bucket b → 0 ≤ b.tokens

theorem LocalRedis.Solvent.set {m : LocalRedis} (hm : m.Solvent) (key : Str)
    {o : Option LocalEntry} (ho : ∀ e ∈ o, ∀ b, e.value = .bucket b → 0 ≤ b.tokens) :
    LocalRedis.Solvent fun k => if k = key then o else m k := by
  intro k e he
  dsimp only at he
  split_ifs at he
  · exact ho e he
  · exact hm k e he

theorem Limiter.coherent_check (a : Algorithm) (key : Str) {c : Call} (hl : 0 < c.limit)
    (hb : 0 ≤ c.burst) {m : LocalRedis} (hm : m.Solvent) :
    (∀ r ∈ (check a key c m).1, r.Coherent (max c.limit c.burst)) ∧
      (check a key c m).2.Solvent := by
  have hwiden : ∀ {cap : ℤ} {r : Reply}, cap ≤ max c.limit c.burst → r.Coherent cap →
      r.Coherent (max c.limit c.burst) := fun hcap hr =>
    ⟨fun h => ⟨(hr.allowed h).1, (hr.allowed h).2.1.trans_le hcap, (hr.allowed h).2.2⟩, hr.denied⟩
  cases hreply : (check a key c m).1 with
  | none =>
    refine ⟨nofun, ?_⟩
    unfold check at hreply ⊢
    split at hreply
    · exact hm
    · exact absurd hreply nofun
  | some reply =>
    cases a with
    | tokenBucket =>
      obtain ⟨data, hread, rfl⟩ := TokenBucket.read_of_reply hreply
      have hd : ∀ b ∈ data, 0 ≤ b.tokens := by
        rintro b rfl
        obtain ⟨e, he, hv⟩ := LocalRedis.exists_of_read hread
        exact hm key e he b hv
      rw [TokenBucket.check_eq hread]
      have hcall := @TokenBucket.coherent_call ⟨c.limit, c.burst, c.nowMs⟩ hl hb data hd
      refine ⟨fun r hr => ?_, hm.set key fun e he b hv => ?_⟩
      · rw [← Option.some.inj hr]
        exact hwiden (le_max_right _ _) hcall
      · obtain rfl := Option.some.inj he
        rw [← LocalValue.bucket.inj hv]
        exact TokenBucket.call_tokens_nonneg hl.le hb hd
    | slidingWindow =>
      obtain ⟨data, hread, rfl⟩ := SlidingWindow.read_of_reply hreply
      rw [SlidingWindow.check_eq hread]
      have hcall := SlidingWindow.coherent_call ⟨c.limit, c.nowMs, natText c.nonce⟩ data
      refine ⟨fun r hr => ?_, hm.set key fun e he b hv => ?_⟩
      · rw [← Option.some.inj hr]
        exact hwiden (le_max_left _ _) hcall
      · obtain ⟨log, -, rfl⟩ := Option.map_eq_some_iff.mp he
        exact absurd hv nofun

/-! ## The answers -/

/-- An answer to `c` whose parts go together. -/
structure CheckResponse.Coherent (c : Check) (resp : CheckResponse) : Prop where
  limit : resp.limit = c.limit
  policyID : resp.policyID = c.pol.policyID
  allowed : resp.allowed = true → 0 ≤ resp.remaining ∧
    resp.remaining < max c.limit c.pol.burst ∧ resp.retryAfterMs = 0 ∧
    ∃ r ∈ c.reply, r.allowed = true ∧ r.remaining = resp.remaining
  denied : resp.allowed = false → resp.remaining = 0 ∧ 0 ≤ resp.retryAfterMs
  error : c.reply = none → resp.allowed = false ∧ resp.retryAfterMs = 1000

/-- A request with a coherent reply, and a coherent answer if it is answered. Behind the limiter
and before the answer there is a reply. -/
structure Check.Coherent (c : Check) : Prop where
  limit : 0 < c.limit
  burst : 0 ≤ c.pol.burst
  reply : ∀ r ∈ c.reply, r.Coherent (max c.limit c.pol.burst)
  replied : c.stage = .resolved ∨ c.reply.isSome = true ∨ ∃ resp, c.stage = .answered resp
  answer : ∀ resp, c.stage = .answered resp → resp.Coherent c

theorem Check.Coherent.localResponse {c : Check} (h : c.Coherent) :
    c.localResponse.Coherent c := by
  unfold Check.localResponse
  cases hr : c.reply with
  | none => exact ⟨rfl, rfl, nofun, fun _ => ⟨rfl, (by decide : (0 : ℤ) ≤ 1000)⟩,
    fun _ => ⟨rfl, rfl⟩⟩
  | some r =>
    have hcoherent := h.reply r hr
    refine ⟨rfl, rfl, fun ha => ?_, hcoherent.denied, fun hnone => ?_⟩
    · obtain ⟨h0, hlt, hretry⟩ := hcoherent.allowed ha
      exact ⟨h0, hlt, hretry, r, hr, ha, rfl⟩
    · rw [hr] at hnone
      cases hnone

/-- The answer of the global cap, to a request that the limiter has replied to. -/
theorem Check.Coherent.response {c : Check} (h : c.Coherent) (hr : c.reply.isSome = true)
    (hash : Hash) (nowMs : ℤ) : (c.response hash nowMs).Coherent c := by
  unfold Check.response
  split_ifs
  · refine ⟨rfl, rfl, nofun, fun _ => ⟨rfl, le_max_left _ _⟩, fun hnone => ?_⟩
    rw [hnone] at hr
    cases hr
  · exact h.localResponse

/-- A request that goes on, with a coherent answer if it has one. -/
theorem Check.Coherent.next {c : Check} (h : c.Coherent) (hr : c.reply.isSome = true)
    (windowId : ℤ) (slot : Option ℤ) {stage : Stage}
    (hstage : ∀ resp, stage = .answered resp → resp.Coherent c) :
    Check.Coherent { c with windowId, slot, stage } where
  limit := h.limit
  burst := h.burst
  reply := h.reply
  replied := Or.inr (Or.inl hr)
  answer resp hresp := ⟨(hstage resp hresp).limit, (hstage resp hresp).policyID,
    (hstage resp hresp).allowed, (hstage resp hresp).denied, (hstage resp hresp).error⟩

/-! ## Runs -/

namespace Cluster

/-- Solvent buckets, and coherent requests. -/
structure Coherent (s : Cluster) : Prop where
  locals : ∀ r, (s.locals r).Solvent
  checks : ∀ c ∈ s.checks, c.Coherent

theorem coherent_runLimiter {s : Cluster} (hs : s.Coherent) {i : ℕ} {c : Check}
    (hi : s.checks[i]? = some c) (fallback : Algorithm) (nowMs : ℤ) (nonce : ℕ) (redisMs : ℤ)
    (out : Outcome) :
    (s.runLimiter i c fallback ⟨c.limit, c.pol.burst, nowMs, nonce, redisMs⟩ out).Coherent := by
  have hc := hs.checks c (List.mem_of_getElem? hi)
  have hcheck := @Limiter.coherent_check (c.pol.selectLimiter fallback) c.localKey
    ⟨c.limit, c.pol.burst, nowMs, nonce, redisMs⟩ hc.limit hc.burst _ (hs.locals c.region)
  unfold runLimiter
  generalize Limiter.check (c.pol.selectLimiter fallback) c.localKey
    ⟨c.limit, c.pol.burst, nowMs, nonce, redisMs⟩ (s.locals c.region) = r at hcheck
  obtain ⟨reply, m⟩ := r
  obtain ⟨hreply, hm⟩ := hcheck
  dsimp only at hreply hm ⊢
  have hreply' : ∀ r ∈ if out = .ok then reply else none,
      r.Coherent (max c.limit c.pol.burst) := by
    split_ifs
    · exact hreply
    · exact nofun
  generalize (if out = .ok then reply else none) = reply' at hreply'
  have hlocal : Check.Coherent { c with reply := reply', stage := .resolved } :=
    ⟨hc.limit, hc.burst, hreply', Or.inl rfl, nofun⟩
  refine ⟨fun r => ?_, fun d hd => ?_⟩
  · have happlied : LocalRedis.Solvent (if r = c.region then m else s.locals r) := by
      split_ifs
      · exact hm
      · exact hs.locals r
    cases out with
    | ok | lost => exact happlied
    | failed => exact hs.locals r
  · have hd' : d ∈ s.checks.set i { c with
        reply := reply'
        stage := if reply'.isSome then .decided
          else .answered { c with reply := reply' }.localResponse } := by
      revert hd
      cases out <;> exact id
    rcases List.mem_or_eq_of_mem_set hd' with hd' | rfl
    · exact hs.checks d hd'
    · refine ⟨hc.limit, hc.burst, hreply', ?_, fun resp hresp => ?_⟩
      · cases reply' with
        | none => exact Or.inr (Or.inr ⟨_, rfl⟩)
        | some r => exact Or.inr (Or.inl rfl)
      · dsimp only at hresp
        split_ifs at hresp
        have hanswer := hlocal.localResponse
        rw [← Stage.answered.inj hresp]
        exact ⟨hanswer.limit, hanswer.policyID, hanswer.allowed, hanswer.denied, hanswer.error⟩

theorem step_coherent {s s' : Cluster} {e : Event} (hs : s.Coherent) (he : e.isStart = false)
    (h : s.step e = some s') : s'.Coherent := by
  by_cases hdecide : ∃ i fallback nowMs nonce redisMs out,
      e = .decide i fallback nowMs nonce redisMs out
  · obtain ⟨i, fallback, nowMs, nonce, redisMs, out, rfl⟩ := hdecide
    obtain ⟨c, hi, rfl⟩ := Option.map_eq_some_iff.mp h
    exact coherent_runLimiter hs (checkAt_eq_some.mp hi).1 fallback nowMs nonce redisMs out
  have hlocals : ∀ r, (s'.locals r).Solvent := by
    rw [(step_frame h).2 fun i fallback nowMs nonce redisMs out heq =>
      hdecide ⟨i, fallback, nowMs, nonce, redisMs, out, heq⟩]
    exact hs.locals
  refine ⟨hlocals, ?_⟩
  have hset : ∀ {i : ℕ} {c : Check} {windowId : ℤ} {slot : Option ℤ} {stage : Stage},
      s.checks[i]? = some c → c.stage ≠ .resolved → (∀ resp, c.stage ≠ .answered resp) →
      s'.checks = s.checks.set i { c with windowId, slot, stage } →
      (∀ resp, stage = .answered resp → c.Coherent → c.reply.isSome = true → resp.Coherent c) →
      ∀ d ∈ s'.checks, d.Coherent := by
    intro i c windowId slot stage hi hresolved hanswered hchecks hstage d hd
    have hc := hs.checks c (List.mem_of_getElem? hi)
    have hr : c.reply.isSome = true := by
      rcases hc.replied with h | h | ⟨resp, h⟩
      · exact absurd h hresolved
      · exact h
      · exact absurd h (hanswered resp)
    rcases List.mem_or_eq_of_mem_set (hchecks ▸ hd) with hd | rfl
    · exact hs.checks d hd
    · exact hc.next hr windowId slot fun resp h => hstage resp h hc hr
  cases effect h with
  | refresh hc hg | merge hne hc hg | evict hc hg => exact hc ▸ hs.checks
  | start => exact absurd he nofun
  | decide => exact absurd ⟨_, _, _, _, _, _, rfl⟩ hdecide
  | skip c hunix hi hstage hfail hc hg =>
    refine hset hi (hstage ▸ nofun) (hstage ▸ nofun) hc fun resp hresp hcoh _ => ?_
    exact Stage.answered.inj hresp ▸ hcoh.localResponse
  | incr c c' n hash stage hunix hi hstage hc' hincr hnext hc hg =>
    subst hc'
    refine hset hi (hstage ▸ nofun) (hstage ▸ nofun) hc fun resp hresp hcoh _ => ?_
    rcases hnext with ⟨-, rfl⟩ | ⟨-, rfl⟩
    · exact absurd hresp nofun
    · exact Stage.answered.inj hresp ▸ hcoh.localResponse
  | expire c hi hstage hc hg | publish c hi hstage hts hc hg =>
    exact hset hi (hstage ▸ nofun) (hstage ▸ nofun) hc nofun
  | read c resp hi hstage hresp hc hg =>
    refine hset hi (hstage ▸ nofun) (hstage ▸ nofun) hc fun resp' hresp' hcoh hr => ?_
    obtain rfl := Stage.answered.inj hresp'
    rw [hresp]
    split_ifs
    · exact hcoh.response hr _ _
    · exact hcoh.localResponse

end Cluster

namespace Gateways

theorem coherent_init : init.cluster.Coherent :=
  ⟨fun _ _ _ h => absurd h nofun, fun _ h => absurd h List.not_mem_nil⟩

/-- A step of gateways with sane inputs keeps their clusters coherent. -/
theorem step_coherent {g g' : Gateways} {e : Event} (hg : g.Served) (hc : g.cluster.Coherent)
    (h : g.step e = some g') : g'.cluster.Coherent := by
  cases e with
  | cluster e =>
    rw [step] at h
    split_ifs at h with he
    obtain ⟨s, hs, rfl⟩ := Option.map_eq_some_iff.mp h
    exact Cluster.step_coherent hc (Bool.eq_false_of_not_eq_true he) hs
  | bind r tier userId =>
    obtain rfl := Option.some.inj h
    exact hc
  | begin i now =>
    rw [step] at h
    split at h
    · obtain rfl := Option.some.inj h
      exact hc
    · cases h
  | lookup i e =>
    rw [step] at h
    split at h
    · obtain ⟨⟨l', cache⟩, hadv, rfl⟩ := Option.map_eq_some_iff.mp h
      exact hc
    · cases h
  | enter i =>
    have hserved := step_served hg h
    rw [step] at h
    split at h
    · rename_i r tier userId pol limit hasOverride hi
      obtain rfl := Option.some.inj h
      refine ⟨hc.locals, fun c hmem => ?_⟩
      have hsane := hserved.checks c hmem
      rcases List.mem_append.mp hmem with hmem | hmem
      · exact hc.checks c hmem
      · rw [List.mem_singleton.mp hmem] at hsane ⊢
        refine ⟨hsane.limit, hsane.pol.2.1, fun r hr => ?_, Or.inl rfl, fun resp hr => ?_⟩
        · cases hr
        · cases hr
    · cases h

/-- **Coherent answers.** In every run of the gateways, with whatever Redis holds, the parts of
every answer go together : it names the limit and the policy the request was decided with, an
allowed request was allowed by its limiter with what is left, less than the larger of limit and
burst, and need not wait, a denied one has nothing left, and an error is a denial for a
second. No bucket is ever in debt. -/
theorem coherent_of_run {es : List Event} {g : Gateways} (h : Run (Steps step) init es g) :
    (∀ c ∈ g.cluster.checks, ∀ resp, c.stage = .answered resp → resp.Coherent c) ∧
      ∀ r, (g.cluster.locals r).Solvent := by
  have hI := h.invariant (I := fun g => g.Served ∧ g.cluster.Coherent)
    (fun _ _ _ hg hstep => ⟨step_served hg.1 hstep, step_coherent hg.1 hg.2 hstep⟩)
    ⟨init_served, coherent_init⟩
  exact ⟨fun c hc resp hresp => (hI.2.checks c hc).answer resp hresp, hI.2.locals⟩

/-- The request of `overriddenArrival` up to its answer. -/
def answeredArrival : List Event :=
  overriddenArrival ++ [.cluster (.incr 0 0 .ok), .cluster (.expire 0 0 .ok),
    .cluster (.publish 0 0 .ok), .cluster (.read 0 0 .ok)]

theorem coherent_sample : ∃ g, Run (Steps step) init answeredArrival g ∧
    g.cluster.checks.map Check.stage =
      [.answered ⟨true, 4, 5, 0, str "pol_static_free"⟩] ∧
    (∀ c ∈ g.cluster.checks, ∀ resp, c.stage = .answered resp → resp.Coherent c) ∧
      ∀ r, (g.cluster.locals r).Solvent := by
  have hend : (exec step init answeredArrival).map (fun g => g.cluster.checks.map Check.stage) =
      some [.answered ⟨true, 4, 5, 0, str "pol_static_free"⟩] := by decide +kernel
  obtain ⟨g, hg, hstage⟩ := Option.map_eq_some_iff.mp hend
  have hrun := run_of_exec hg
  exact ⟨g, hrun, hstage, coherent_of_run hrun⟩

end Gateways

end Gdrl
