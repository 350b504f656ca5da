import Gdrl.SlidingWindow
import Gdrl.Policy
import Mathlib.Data.List.Chain

/-!
# The local limiter

Both limiters keep their state at `rl:local:{region}:{tier}:{user_id}`, a token bucket as
a hash and a sliding window as a sorted set, and both set the same time to live on every
call. `check` runs the script of one algorithm on what Redis has at the key : nothing, a
value of its own, or a value of the other algorithm, on which the script's first command
fails.

Two facts about the time to live follow. Dropping a bucket is invisible exactly if two
minutes refill it (`expiry_invisible_iff`). A sequence of requests meets no value of the
other algorithm exactly if the two never follow each other within the time to live
(`answered_iff`).
-/

open Finset

namespace Gdrl

/-- `ttl_secs` of both scripts, in milliseconds. -/
def localTtlMs : ℤ := 120000

/-- The value at a key of a local limiter. -/
inductive LocalValue
  | bucket (b : Bucket)
  | window (log : SlidingWindow.Log)

/-- A value with the moment of Redis's clock after which it is gone. -/
structure LocalEntry where
  value : LocalValue
  expireAtMs : ℤ

abbrev LocalRedis := Str → Option LocalEntry

/-- What Redis has at a key at some moment. -/
def LocalRedis.read (m : LocalRedis) (key : Str) (redisMs : ℤ) : Option LocalValue :=
  (m key).bind fun e => if e.expireAtMs < redisMs then none else some e.value

namespace Limiter

/-- A call of `Limiter.Check`, with the clock of the gateway, the counter behind the
nonce, and the clock of Redis when the script runs. -/
structure Call where
  limit : ℤ
  burst : ℤ
  nowMs : ℤ
  nonce : ℕ
  redisMs : ℤ

/-- The script of an algorithm on the value at its key : the reply and the new value.
The outer `none` is `WRONGTYPE`, where nothing has been written. -/
def script (a : Algorithm) (c : Call) (v : Option LocalValue) :
    Option (Reply × Option LocalValue) :=
  match a, v with
  | .tokenBucket, none =>
    let (reply, b) := TokenBucket.call ⟨c.limit, c.burst, c.nowMs⟩ none
    some (reply, some (.bucket b))
  | .tokenBucket, some (.bucket b) =>
    let (reply, b) := TokenBucket.call ⟨c.limit, c.burst, c.nowMs⟩ (some b)
    some (reply, some (.bucket b))
  | .tokenBucket, some (.window _) => none
  | .slidingWindow, none =>
    let (reply, log) := SlidingWindow.call ⟨c.limit, c.nowMs, natText c.nonce⟩ none
    some (reply, log.map .window)
  | .slidingWindow, some (.window log) =>
    let (reply, log) := SlidingWindow.call ⟨c.limit, c.nowMs, natText c.nonce⟩ (some log)
    some (reply, log.map .window)
  | .slidingWindow, some (.bucket _) => none

/-- `Limiter.Check` : the reply, `none` for an error, and Redis afterwards. -/
def check (a : Algorithm) (key : Str) (c : Call) (m : LocalRedis) : Option Reply × LocalRedis :=
  match script a c (m.read key c.redisMs) with
  | none => (none, m)
  | some (reply, v) =>
    (some reply, fun k => if k = key then v.map (⟨·, c.redisMs + localTtlMs⟩) else m k)

end Limiter

/-! ## What the handler passes -/

/-- `effectiveLimit` : the override where there is one. -/
def Policy.effectiveLimit (p : Policy) (override : Option ℤ) : ℤ := override.getD p.limit

/-- The limiter of a policy's algorithm. A name that is not registered falls back to
whichever limiter the map yields first. -/
def Policy.selectLimiter (p : Policy) (fallback : Algorithm) : Algorithm :=
  if p.algorithm = Algorithm.tokenBucket.name then .tokenBucket
  else if p.algorithm = Algorithm.slidingWindow.name then .slidingWindow
  else fallback

/-- A policy as the store holds it. -/
def Policy.Accepted (p : Policy) : Prop :=
  0 < p.limit ∧ 0 ≤ p.burst ∧
    (p.algorithm = Algorithm.tokenBucket.name ∨ p.algorithm = Algorithm.slidingWindow.name)

theorem Policy.accepted_lookup (t : Tier) : (Policy.lookup t).Accepted := by
  cases t <;> exact ⟨by decide, by decide, Or.inl rfl⟩

/-- What `validate` lets through is accepted. -/
theorem Store.accepted_of_validate {s : Store} {c : Contract4} {t : Tier}
    (h : s.validate c t = none) : (Store.ofContract4 c).Accepted := by
  unfold Store.validate at h
  split_ifs at h with h1 h2 h3
  refine ⟨not_le.mp h1, not_lt.mp h2, ?_⟩
  by_contra hne
  exact h3 (not_or.mp hne)

/-- The store holds accepted policies, whatever Redis holds. -/
theorem Store.accepted_refreshTier {s : Store} (hs : ∀ t, (s.get t).Accepted) (tier : Tier)
    (raw : Option (List Byte)) (t : Tier) : ((s.refreshTier tier raw).get t).Accepted := by
  have hset : ∀ p : Policy, p.Accepted → ((s.setCache tier p).get t).Accepted := by
    intro p hp
    show (if t = tier then p else s.cache t).Accepted
    split_ifs
    · exact hp
    · exact hs t
  have hstatic := hset _ (Policy.accepted_lookup tier)
  unfold Store.refreshTier
  split
  · exact hstatic
  · split
    · exact hstatic
    · split
      · exact hstatic
      · exact hset _ (Store.accepted_of_validate ‹_›)

/-! ## The bucket's expiry -/

namespace TokenBucket

/-- A kept bucket that two minutes refill. -/
theorem refill_eq_burst {c : Call} {b : Bucket} (hl : 0 < c.limit) (hb : c.burst ≤ 2 * c.limit)
    (ht : 0 ≤ b.tokens) (hgap : b.lastRefillMs + localTtlMs ≤ c.nowMs) :
    refill c (some b) = c.burst := by
  have helapsed : localTtlMs ≤ elapsedMs c (some b) := by
    rw [elapsedMs_some]
    exact le_max_of_le_right (by omega)
  have h1 : (120000 : ℚ) ≤ elapsedMs c (some b) := by exact_mod_cast helapsed
  have h2 : (0 : ℚ) < c.limit := by exact_mod_cast hl
  have h3 : (c.burst : ℚ) ≤ 2 * c.limit := by exact_mod_cast hb
  have h4 := mul_le_mul_of_nonneg_right h1 h2.le
  simp only [refill, if_pos hl, Option.elim_some]
  refine min_eq_left ?_
  linarith

theorem refill_none {c : Call} : refill c none = c.burst := by
  simp [refill, elapsedMs]

/-- The call depends on what the key holds through the refilled tokens and the refill
time only. -/
theorem call_congr {c : Call} {d d' : Option Bucket} (hr : refill c d = refill c d')
    (ht : newRefillMs c d = newRefillMs c d') : call c d = call c d' := by
  unfold call
  rw [hr, ht]

theorem newRefillMs_of_le {c : Call} {b : Bucket} (h : b.lastRefillMs ≤ c.nowMs) :
    newRefillMs c (some b) = newRefillMs c none := by
  rw [newRefillMs_some, newRefillMs_none, max_eq_right h]

/-- For a limit and a burst, dropping the key gives the decision
and the state that keeping it gives, for every stored bucket at least two minutes old,
exactly if two minutes are worth the burst. -/
theorem expiry_invisible_iff {limit burst : ℤ} (hl : 0 < limit) :
    (∀ (b : Bucket) (nowMs : ℤ), 0 ≤ b.tokens → b.lastRefillMs + localTtlMs ≤ nowMs →
      call ⟨limit, burst, nowMs⟩ none = call ⟨limit, burst, nowMs⟩ (some b)) ↔
      burst ≤ 2 * limit := by
  constructor
  · intro h
    -- an empty bucket, exactly two minutes later
    have h0 := h ⟨0, 0⟩ localTtlMs le_rfl (by decide)
    have hrefill : ∀ d d' : Option Bucket, ∀ c : Call, (call c d) = call c d' →
        refill c d = refill c d' := by
      intro d d' c hc
      have h1 := call_tokens c d
      have h2 := call_tokens c d'
      rw [cost, hc] at h1
      rw [cost] at h2
      linarith
    have h1 := hrefill _ _ _ h0
    rw [refill_none] at h1
    have h2 : ((burst : ℤ) : ℚ) ≤ 0 + (120000 : ℚ) * limit / 60000 := by
      have hle := min_le_right (burst : ℚ) (0 + (120000 : ℚ) * limit / 60000)
      refine le_trans (le_of_eq h1) (le_trans (le_of_eq ?_) hle)
      simp [refill, elapsedMs, hl, localTtlMs]
    have h3 : (burst : ℚ) ≤ ((2 * limit : ℤ) : ℚ) := by
      push_cast
      linarith
    exact_mod_cast h3
  · intro hle b nowMs ht hgap
    refine call_congr ?_ (newRefillMs_of_le ?_).symm
    · rw [refill_none, refill_eq_burst hl hle ht hgap]
    · simp only [localTtlMs] at hgap
      show b.lastRefillMs ≤ nowMs
      omega

/-- What the key holds before call `n` where Redis drops it behind the calls that
`dropped` marks. -/
def expiringRun (cs : ℕ → Call) (dropped : ℕ → Bool) : ℕ → Option Bucket
  | 0 => none
  | n + 1 => if dropped n then none else some (call (cs n) (expiringRun cs dropped n)).2

/-- How many calls from `m` on and before `n` are allowed in a run with expiry. -/
def expiringCount (cs : ℕ → Call) (dropped : ℕ → Bool) (m n : ℕ) : ℕ :=
  ((Ico m n).filter fun i => (call (cs i) (expiringRun cs dropped i)).1.allowed).card

theorem peak_eq_nowMs {cs : ℕ → Call} (hclock : ∀ n, (cs n).nowMs ≤ (cs (n + 1)).nowMs) (n : ℕ) :
    peak cs n = (cs n).nowMs := by
  cases n with
  | zero => rfl
  | succ n => rw [peak, peak_eq_nowMs hclock n, max_eq_right (hclock n)]

/-- Where two minutes are worth the burst, a run with expiry answers as one without. -/
theorem expiringRun_call {cs : ℕ → Call} {dropped : ℕ → Bool} {limit burst : ℤ} (hl : 0 < limit)
    (hb : 0 ≤ burst) (hle : burst ≤ 2 * limit) (hlimit : ∀ n, (cs n).limit = limit)
    (hburst : ∀ n, (cs n).burst = burst) (hclock : ∀ n, (cs n).nowMs ≤ (cs (n + 1)).nowMs)
    (hdrop : ∀ n, dropped n = true → (cs n).nowMs + localTtlMs ≤ (cs (n + 1)).nowMs) (n : ℕ) :
    call (cs n) (expiringRun cs dropped n) = call (cs n) (run cs n) := by
  induction n with
  | zero => rfl
  | succ n ih =>
    rw [expiringRun, ih, run]
    split_ifs with hd
    · have hlast : (call (cs n) (run cs n)).2.lastRefillMs = (cs n).nowMs := by
        rw [call_lastRefillMs, newRefillMs_eq_peak, peak_eq_nowMs hclock]
      have htokens : 0 ≤ (call (cs n) (run cs n)).2.tokens :=
        level_nonneg cs (fun n => (hlimit n).symm ▸ hl.le) (fun n => (hburst n).symm ▸ hb) (n + 1)
      have hcall := (expiry_invisible_iff hl).mpr hle _ _ htokens (hlast.symm ▸ hdrop n hd)
      rw [← hlimit (n + 1), ← hburst (n + 1)] at hcall
      exact hcall
    · rfl

/-- **Expiry of a bucket.** For a limit and a burst that the handler can pass, the expiry
of the key is invisible exactly if two minutes are worth the burst. In this case pausing
until the key expires buys nothing : in any span of a run with expiry the allowed calls
are bounded by the burst and the refill of the span. -/
theorem expiry_invisible {limit burst : ℤ} (hl : 0 < limit) (hb : 0 ≤ burst) :
    ((∀ (b : Bucket) (nowMs : ℤ), 0 ≤ b.tokens → b.lastRefillMs + localTtlMs ≤ nowMs →
      call ⟨limit, burst, nowMs⟩ none = call ⟨limit, burst, nowMs⟩ (some b)) ↔
      burst ≤ 2 * limit) ∧
    (burst ≤ 2 * limit → ∀ (cs : ℕ → Call) (dropped : ℕ → Bool),
      (∀ n, (cs n).limit = limit) → (∀ n, (cs n).burst = burst) →
      (∀ n, (cs n).nowMs ≤ (cs (n + 1)).nowMs) →
      (∀ n, dropped n = true → (cs n).nowMs + localTtlMs ≤ (cs (n + 1)).nowMs) →
      ∀ i j, i ≤ j → (expiringCount cs dropped i (j + 1) : ℚ) ≤
        burst + limit * ((cs j).nowMs - (cs i).nowMs : ℤ) / 60000) := by
  refine ⟨expiry_invisible_iff hl, ?_⟩
  intro hle cs dropped hlimit hburst hclock hdrop i j hij
  have hcount : expiringCount cs dropped i (j + 1) = allowedCount cs i (j + 1) := by
    refine congrArg card (filter_congr fun n _ => ?_)
    rw [expiringRun_call hl hb hle hlimit hburst hclock hdrop, allowed]
  have hbound := allowedCount_segment cs hl hb hlimit hburst hij
  rw [peak_eq_nowMs hclock, peak_eq_nowMs hclock] at hbound
  rw [hcount]
  exact hbound

/-- A tier with burst 5 and a user override of one request a minute : the refilled bucket
differs from a fresh one, and a pause until the key expires buys ten requests where the
bound allows seven. -/
theorem expiry_visible_of_override :
    let p := Policy.lookup .free
    let limit := p.effectiveLimit (some 1)
    let cs : ℕ → Call := fun n => ⟨limit, p.burst, if n < 5 then 0 else 120001⟩
    p.Accepted ∧ 0 < limit ∧
    call ⟨limit, p.burst, localTtlMs⟩ none ≠ call ⟨limit, p.burst, localTtlMs⟩ (some ⟨0, 0⟩) ∧
    ¬ (expiringCount cs (fun n => n = 4) 0 10 : ℚ) ≤
      p.burst + limit * ((cs 9).nowMs - (cs 0).nowMs : ℤ) / 60000 :=
  ⟨Policy.accepted_lookup .free, by decide, by decide +kernel, by decide +kernel⟩

/-- The static policy of the premium tier. -/
theorem expiry_invisible_premium :
    (∀ (b : Bucket) (nowMs : ℤ), 0 ≤ b.tokens → b.lastRefillMs + localTtlMs ≤ nowMs →
      call ⟨100, 20, nowMs⟩ none = call ⟨100, 20, nowMs⟩ (some b)) ∧
    (expiringCount (fun n => ⟨100, 20, 200000 * n⟩) (fun _ => true) 0 (2 + 1) : ℚ) ≤
      20 + 100 * (200000 * 2 - 200000 * 0 : ℤ) / 60000 := by
  have h := @expiry_invisible 100 20 (by decide) (by decide)
  refine ⟨h.1.mpr (by decide), ?_⟩
  exact h.2 (by decide) (fun n => ⟨100, 20, 200000 * n⟩) (fun _ => true) (fun _ => rfl)
    (fun _ => rfl) (fun n => by dsimp only; push_cast; omega)
    (fun n _ => by simp only [localTtlMs]; push_cast; omega) 0 2 (by decide)

end TokenBucket

/-! ## Switching algorithms -/

/-- The algorithm whose script writes such a value. -/
def LocalValue.algorithm : LocalValue → Algorithm
  | .bucket _ => .tokenBucket
  | .window _ => .slidingWindow

/-- A request as its limiter sees it : the policy and the override in force when it is
decided, and the clocks. -/
structure LocalRequest where
  pol : Policy
  override : Option ℤ
  fallback : Algorithm
  nowMs : ℤ
  nonce : ℕ
  redisMs : ℤ

namespace LocalRequest

def algorithm (r : LocalRequest) : Algorithm := r.pol.selectLimiter r.fallback

def call (r : LocalRequest) : Limiter.Call :=
  ⟨r.pol.effectiveLimit r.override, r.pol.burst, r.nowMs, r.nonce, r.redisMs⟩

/-- The policy is accepted, and an override is positive, as the cache returns it. -/
def Sane (r : LocalRequest) : Prop := r.pol.Accepted ∧ ∀ l ∈ r.override, 0 < l

theorem Sane.limit_pos {r : LocalRequest} (h : r.Sane) : 0 < r.call.limit := by
  show 0 < r.override.getD r.pol.limit
  cases ho : r.override with
  | none => exact h.1.1
  | some l => exact h.2 l ho

end LocalRequest

namespace Limiter

/-- The answers of requests for one user, in the order in which their scripts run. The
answer `none` ends with decision `error`. -/
def answers (key : Str) : LocalRedis → List LocalRequest → List (Option Reply)
  | _, [] => []
  | m, r :: rs =>
    (check r.algorithm key r.call m).1 :: answers key (check r.algorithm key r.call m).2 rs

/-- A script fails exactly on a value of the other algorithm. -/
theorem check_isSome_iff (a : Algorithm) (key : Str) (c : Call) (m : LocalRedis) :
    (check a key c m).1.isSome = true ↔ ∀ v ∈ m.read key c.redisMs, v.algorithm = a := by
  unfold check
  cases m.read key c.redisMs with
  | none => cases a <;> simp [script]
  | some v => cases a <;> cases v <;> simp [script, LocalValue.algorithm]

/-- A script that runs leaves a value of its own, good for two minutes. -/
theorem check_kept {a : Algorithm} {key : Str} {c : Call} {m : LocalRedis} (hl : 0 < c.limit)
    (h : (check a key c m).1.isSome = true) :
    ∃ v, (check a key c m).2 key = some ⟨v, c.redisMs + localTtlMs⟩ ∧ v.algorithm = a := by
  have hlog : ∀ data, ∃ log, (SlidingWindow.call ⟨c.limit, c.nowMs, natText c.nonce⟩ data).2 =
      some log := fun data => Option.isSome_iff_exists.mp (SlidingWindow.call_isSome hl data)
  unfold check at h ⊢
  cases a with
  | tokenBucket =>
    match m.read key c.redisMs, h with
    | none, _ => exact ⟨_, if_pos rfl, rfl⟩
    | some (.bucket b), _ => exact ⟨_, if_pos rfl, rfl⟩
  | slidingWindow =>
    match m.read key c.redisMs, h with
    | none, _ =>
      obtain ⟨log, hsome⟩ := hlog none
      refine ⟨.window log, ?_, rfl⟩
      simp [script, hsome]
    | some (.window log), _ =>
      obtain ⟨log', hsome⟩ := hlog (some log)
      refine ⟨.window log', ?_, rfl⟩
      simp [script, hsome]

/-- Two requests in a row that do not disturb each other : one algorithm, or more than
the time to live between them. -/
def Follows (a b : LocalRequest) : Prop :=
  a.algorithm = b.algorithm ∨ a.redisMs + localTtlMs < b.redisMs

/-- The run behind a request whose value is at the key. -/
theorem answered_iff_of_kept {key : Str} {prev : LocalRequest} {v : LocalValue} {m : LocalRedis}
    (hm : m key = some ⟨v, prev.redisMs + localTtlMs⟩) (hv : v.algorithm = prev.algorithm)
    {rs : List LocalRequest} (hs : ∀ r ∈ rs, r.Sane) :
    (∀ x ∈ answers key m rs, x.isSome = true) ↔ (prev :: rs).IsChain Follows := by
  induction rs generalizing prev v m with
  | nil => simp [answers]
  | cons r rs ih =>
    have hread : (∀ w ∈ m.read key r.call.redisMs, w.algorithm = r.algorithm) ↔ Follows prev r := by
      rw [LocalRedis.read, hm, Option.bind_some, Follows, ← hv]
      show (∀ w ∈ if prev.redisMs + localTtlMs < r.redisMs then none else some v, _) ↔ _
      split_ifs with h <;> simp [h]
    rw [answers, List.forall_mem_cons, check_isSome_iff, hread, List.isChain_cons_cons]
    refine and_congr_right fun hf => ?_
    have hsome := (check_isSome_iff r.algorithm key r.call m).mpr (hread.mpr hf)
    obtain ⟨w, hw, hwa⟩ := check_kept (hs r List.mem_cons_self).limit_pos hsome
    exact ih hw hwa fun x hx => hs x (List.mem_cons_of_mem r hx)

/-- **Switching algorithms.** Requests for one user that start on an absent key are all
answered exactly if requests of different algorithms never follow each other within the
time to live. -/
theorem answered_iff (key : Str) {rs : List LocalRequest} (hs : ∀ r ∈ rs, r.Sane) :
    (∀ x ∈ answers key (fun _ => none) rs, x.isSome = true) ↔ rs.IsChain Follows := by
  cases rs with
  | nil => simp [answers]
  | cons r rs =>
    have hsome : (check r.algorithm key r.call fun _ => none).1.isSome = true :=
      (check_isSome_iff _ _ _ _).mpr (by simp [LocalRedis.read])
    obtain ⟨w, hw, hwa⟩ := check_kept (hs r List.mem_cons_self).limit_pos hsome
    rw [answers, List.forall_mem_cons, ← answered_iff_of_kept hw hwa fun x hx =>
      hs x (List.mem_cons_of_mem r hx)]
    exact and_iff_right hsome

/-- The static free policy, and the same policy with the other algorithm. -/
def switched (a : Algorithm) : Policy := { Policy.lookup .free with algorithm := a.name }

theorem switched_accepted (a : Algorithm) : (switched a).Accepted := by
  cases a
  · exact ⟨by decide, by decide, Or.inl rfl⟩
  · exact ⟨by decide, by decide, Or.inr rfl⟩

/-- A request under `switched a`, all clocks at `t`. -/
def switchedRequest (a : Algorithm) (t : ℤ) : LocalRequest :=
  ⟨switched a, none, .tokenBucket, t, 1, t⟩

theorem switchedRequest_sane (a : Algorithm) (t : ℤ) : (switchedRequest a t).Sane :=
  ⟨switched_accepted a, by simp [switchedRequest]⟩

/-- A token bucket request and, a second later, one under a sliding window : the second
ends in an error. -/
theorem switch_fails :
    let rs := [switchedRequest .tokenBucket 0, switchedRequest .slidingWindow 1000]
    (∀ r ∈ rs, r.Sane) ∧
    ¬ ∀ x ∈ answers (str "rl:local:us:free:u_1") (fun _ => none) rs, x.isSome = true := by
  refine ⟨by simp [switchedRequest_sane], ?_⟩
  decide +kernel

/-- Switching behind the time to live. -/
theorem switch_answered :
    let rs := [switchedRequest .tokenBucket 0, switchedRequest .tokenBucket 1000,
      switchedRequest .slidingWindow 121001]
    (answers (str "rl:local:us:free:u_1") (fun _ => none) rs).all Option.isSome = true := by
  refine List.all_eq_true.mpr ((answered_iff _ (by simp [switchedRequest_sane])).mpr ?_)
  simp only [List.isChain_cons_cons, List.isChain_singleton, and_true]
  exact ⟨Or.inl rfl, Or.inr (by decide)⟩

end Limiter

end Gdrl
