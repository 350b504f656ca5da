import Gdrl.Inputs
import Gdrl.Window

/-!
# What a limiter has left

The limiter that allows a request with `remaining = n` allows the next `n` requests of the
same policy at the same time (`supplies_of_check`), whatever Redis's clock does to the key
in between. A bucket does not refill then and loses one token a request, and a log loses no
entry and gets one more.
-/

namespace Gdrl

/-! ## The limiters -/

/-- What is at a key after a call. It depends on what was there before only. -/
theorem Limiter.check_congr {a : Algorithm} {key : Str} {c : Call} {m m' : LocalRedis}
    (h : m key = m' key) : (check a key c m).1 = (check a key c m').1 ∧
      (check a key c m).2 key = (check a key c m').2 key := by
  have hread : m.read key c.redisMs = m'.read key c.redisMs := by
    rw [LocalRedis.read, LocalRedis.read, h]
  unfold check
  rw [hread]
  split
  · exact ⟨rfl, h⟩
  · exact ⟨rfl, (if_pos rfl).trans (if_pos rfl).symm⟩

/-- `k` calls of the same policy at the same time are all allowed, whatever Redis's clock
and the nonces are. -/
def Supplies (a : Algorithm) (key : Str) (limit burst nowMs : ℤ) : ℕ → LocalRedis → Prop
  | 0, _ => True
  | k + 1, m => ∀ nonce redisMs,
    let r := Limiter.check a key ⟨limit, burst, nowMs, nonce, redisMs⟩ m
    (∃ reply, r.1 = some reply ∧ reply.allowed = true) ∧
      Supplies a key limit burst nowMs k r.2

theorem Supplies.congr {a : Algorithm} {key : Str} {limit burst nowMs : ℤ} {k : ℕ}
    {m m' : LocalRedis} (h : Supplies a key limit burst nowMs k m) (hm : m key = m' key) :
    Supplies a key limit burst nowMs k m' := by
  induction k generalizing m m' with
  | zero => trivial
  | succ k ih =>
    intro nonce redisMs
    obtain ⟨hreply, hkey⟩ :=
      @Limiter.check_congr a key ⟨limit, burst, nowMs, nonce, redisMs⟩ m m' hm
    obtain ⟨hallowed, hrest⟩ := h nonce redisMs
    exact ⟨hreply ▸ hallowed, ih hrest hkey⟩

theorem Supplies.mono {a : Algorithm} {key : Str} {limit burst nowMs : ℤ} {j k : ℕ}
    {m : LocalRedis} (h : Supplies a key limit burst nowMs k m) (hjk : j ≤ k) :
    Supplies a key limit burst nowMs j m := by
  induction j generalizing k m with
  | zero => trivial
  | succ j ih =>
    obtain ⟨k, rfl⟩ : ∃ i, k = i + 1 := ⟨k - 1, by omega⟩
    intro nonce redisMs
    obtain ⟨hallowed, hrest⟩ := h nonce redisMs
    exact ⟨hallowed, ih hrest (by omega)⟩

/-- `k` calls are allowed where some stock of `k` is used up by one a call. -/
theorem supplies_of_stock {a : Algorithm} {key : Str} {limit burst nowMs : ℤ}
    {Stock : ℕ → LocalRedis → Prop}
    (hstock : ∀ k m nonce redisMs, Stock (k + 1) m →
      let r := Limiter.check a key ⟨limit, burst, nowMs, nonce, redisMs⟩ m
      (∃ reply, r.1 = some reply ∧ reply.allowed = true) ∧ Stock k r.2)
    {k : ℕ} {m : LocalRedis} (h : Stock k m) : Supplies a key limit burst nowMs k m := by
  induction k generalizing m with
  | zero => trivial
  | succ k ih =>
    intro nonce redisMs
    obtain ⟨hallowed, hrest⟩ := hstock k m nonce redisMs h
    exact ⟨hallowed, ih hrest⟩

theorem LocalRedis.exists_of_read {m : LocalRedis} {key : Str} {redisMs : ℤ} {v : LocalValue}
    (h : m.read key redisMs = some v) : ∃ e ∈ m key, e.value = v := by
  obtain ⟨e, he, hv⟩ := Option.bind_eq_some_iff.mp h
  split_ifs at hv
  exact ⟨e, he, Option.some.inj hv⟩

namespace TokenBucket

/-- A bucket with `k` tokens that does not refill at `nowMs`, or no bucket. -/
structure Stock (key : Str) (burst nowMs : ℤ) (k : ℕ) (m : LocalRedis) : Prop where
  fresh : (k : ℤ) ≤ burst
  kept : ∀ e ∈ m key, ∃ b, e.value = .bucket b ∧ nowMs ≤ b.lastRefillMs ∧ (k : ℚ) ≤ b.tokens

theorem check_eq {key : Str} {c : Limiter.Call} {m : LocalRedis} {data : Option Bucket}
    (hread : m.read key c.redisMs = data.map .bucket) :
    let r := call ⟨c.limit, c.burst, c.nowMs⟩ data
    Limiter.check .tokenBucket key c m = (some r.1,
      fun k => if k = key then some ⟨.bucket r.2, c.redisMs + localTtlMs⟩ else m k) := by
  unfold Limiter.check
  rw [hread]
  cases data <;> rfl

/-- The script answers only behind a value of its own. -/
theorem read_of_reply {key : Str} {c : Limiter.Call} {m : LocalRedis} {reply : Reply}
    (h : (Limiter.check .tokenBucket key c m).1 = some reply) :
    ∃ data : Option Bucket, m.read key c.redisMs = data.map .bucket ∧
      (call ⟨c.limit, c.burst, c.nowMs⟩ data).1 = reply := by
  obtain ⟨data, hread⟩ : ∃ data : Option Bucket, m.read key c.redisMs = data.map .bucket := by
    cases hread : m.read key c.redisMs with
    | none => exact ⟨none, rfl⟩
    | some v =>
      cases v with
      | bucket b => exact ⟨some b, rfl⟩
      | window log => simp [Limiter.check, hread, Limiter.script] at h
  rw [check_eq hread] at h
  exact ⟨data, hread, Option.some.inj h⟩

theorem le_newRefillMs (c : Call) (data : Option Bucket) : c.nowMs ≤ newRefillMs c data := by
  cases data with
  | none => exact (newRefillMs_none c).ge
  | some b =>
    rw [newRefillMs_some]
    exact le_max_right _ _

/-- An allowed call that leaves `k` tokens leaves a stock of `k`. -/
theorem stock_check {key : Str} {c : Limiter.Call} (hl : 0 < c.limit) {m : LocalRedis} {k : ℕ}
    {data : Option Bucket} (hread : m.read key c.redisMs = data.map .bucket)
    (hk : (k : ℚ) + 1 ≤ refill ⟨c.limit, c.burst, c.nowMs⟩ data) :
    (∃ reply, (Limiter.check .tokenBucket key c m).1 = some reply ∧ reply.allowed = true) ∧
      Stock key c.burst c.nowMs k (Limiter.check .tokenBucket key c m).2 := by
  have hone : 1 ≤ refill ⟨c.limit, c.burst, c.nowMs⟩ data :=
    (le_add_of_nonneg_left (Nat.cast_nonneg k)).trans hk
  have hallowed : (call ⟨c.limit, c.burst, c.nowMs⟩ data).1.allowed = true := by
    rw [call_allowed]
    exact decide_eq_true hone
  have hburst := hk.trans (@refill_le_burst ⟨c.limit, c.burst, c.nowMs⟩ hl data)
  rw [check_eq hread]
  refine ⟨⟨_, rfl, hallowed⟩, ?_, fun e he => ?_⟩
  · have : ((k : ℤ) : ℚ) ≤ (c.burst : ℤ) := by
      push_cast
      linarith
    exact_mod_cast this
  · obtain rfl := Option.some.inj ((if_pos rfl).symm.trans he)
    refine ⟨_, rfl, ?_, ?_⟩
    · rw [call_lastRefillMs]
      exact le_newRefillMs _ _
    · rw [call_tokens, cost, if_pos hallowed]
      linarith

/-- At the time of the stock nothing is refilled. -/
theorem stock_step {key : Str} {limit burst nowMs : ℤ} (hl : 0 < limit) (k : ℕ) (m : LocalRedis)
    (nonce : ℕ) (redisMs : ℤ) (h : Stock key burst nowMs (k + 1) m) :
    let r := Limiter.check .tokenBucket key ⟨limit, burst, nowMs, nonce, redisMs⟩ m
    (∃ reply, r.1 = some reply ∧ reply.allowed = true) ∧ Stock key burst nowMs k r.2 := by
  have hburst : (k : ℚ) + 1 ≤ burst := by exact_mod_cast h.fresh
  cases hread : m.read key redisMs with
  | none =>
    refine @stock_check key ⟨limit, burst, nowMs, nonce, redisMs⟩ hl m k none hread ?_
    rw [refill_none]
    exact hburst
  | some v =>
    obtain ⟨e, he, rfl⟩ := LocalRedis.exists_of_read hread
    obtain ⟨b, hb, hlast, htokens⟩ := h.kept e he
    rw [hb] at hread
    refine @stock_check key ⟨limit, burst, nowMs, nonce, redisMs⟩ hl m k (some b) hread ?_
    have helapsed : elapsedMs ⟨limit, burst, nowMs⟩ (some b) = 0 :=
      (elapsedMs_some _ b).trans (max_eq_left (by dsimp only; omega))
    push_cast at htokens
    simp only [refill, if_pos hl, helapsed, Option.elim_some]
    refine le_min hburst ?_
    simpa using htokens

end TokenBucket

namespace SlidingWindow

/-- A log with room for `k` entries, or no log. -/
structure Stock (key : Str) (limit nowMs : ℤ) (k : ℕ) (m : LocalRedis) : Prop where
  fresh : (k : ℤ) ≤ limit
  kept : ∀ e ∈ m key, ∃ log, e.value = .window log ∧ ((prune nowMs log).size : ℤ) + k ≤ limit

theorem check_eq {key : Str} {c : Limiter.Call} {m : LocalRedis} {data : Option Log}
    (hread : m.read key c.redisMs = data.map .window) :
    let r := call ⟨c.limit, c.nowMs, natText c.nonce⟩ data
    Limiter.check .slidingWindow key c m = (some r.1, fun k => if k = key then
      r.2.map fun log => ⟨.window log, c.redisMs + localTtlMs⟩ else m k) := by
  unfold Limiter.check
  rw [hread]
  cases data <;> simp [Limiter.script, Option.map_map, Function.comp_def]

/-- The script answers only behind a value of its own. -/
theorem read_of_reply {key : Str} {c : Limiter.Call} {m : LocalRedis} {reply : Reply}
    (h : (Limiter.check .slidingWindow key c m).1 = some reply) :
    ∃ data : Option Log, m.read key c.redisMs = data.map .window ∧
      (call ⟨c.limit, c.nowMs, natText c.nonce⟩ data).1 = reply := by
  obtain ⟨data, hread⟩ : ∃ data : Option Log, m.read key c.redisMs = data.map .window := by
    cases hread : m.read key c.redisMs with
    | none => exact ⟨none, rfl⟩
    | some v =>
      cases v with
      | bucket b => simp [Limiter.check, hread, Limiter.script] at h
      | window log => exact ⟨some log, rfl⟩
  rw [check_eq hread] at h
  exact ⟨data, hread, Option.some.inj h⟩

/-- An allowed call that leaves room for `k` entries leaves a stock of `k`. -/
theorem stock_check {key : Str} {c : Limiter.Call} {m : LocalRedis} {k : ℕ}
    {data : Option Log} (hread : m.read key c.redisMs = data.map .window)
    (hk : ((counted ⟨c.limit, c.nowMs, natText c.nonce⟩ data).size : ℤ) + (k + 1) ≤ c.limit) :
    (∃ reply, (Limiter.check .slidingWindow key c m).1 = some reply ∧ reply.allowed = true) ∧
      Stock key c.limit c.nowMs k (Limiter.check .slidingWindow key c m).2 := by
  have hallowed : (call ⟨c.limit, c.nowMs, natText c.nonce⟩ data).1.allowed = true := by
    rw [call_allowed]
    exact decide_eq_true (by dsimp only; omega)
  have hleft := getD_call ⟨c.limit, c.nowMs, natText c.nonce⟩ data
  rw [if_pos hallowed] at hleft
  rw [check_eq hread]
  refine ⟨⟨_, rfl, hallowed⟩, by omega, fun e he => ?_⟩
  obtain ⟨log, hlog, rfl⟩ := Option.map_eq_some_iff.mp ((if_pos rfl).symm.trans he)
  refine ⟨log, rfl, ?_⟩
  rw [hlog, Option.getD_some] at hleft
  have hprune : (prune c.nowMs log).size ≤ log.size := List.length_filter_le _ _
  have hset := Dict.size_set_le (member ⟨c.limit, c.nowMs, natText c.nonce⟩) c.nowMs
    (counted ⟨c.limit, c.nowMs, natText c.nonce⟩ data)
  rw [← hleft] at hset
  omega

/-- At the time of the stock no entry gets old. -/
theorem stock_step {key : Str} {limit burst nowMs : ℤ} (k : ℕ) (m : LocalRedis) (nonce : ℕ)
    (redisMs : ℤ) (h : Stock key limit nowMs (k + 1) m) :
    let r := Limiter.check .slidingWindow key ⟨limit, burst, nowMs, nonce, redisMs⟩ m
    (∃ reply, r.1 = some reply ∧ reply.allowed = true) ∧ Stock key limit nowMs k r.2 := by
  have hlimit := h.fresh
  cases hread : m.read key redisMs with
  | none =>
    refine @stock_check key ⟨limit, burst, nowMs, nonce, redisMs⟩ m k none hread ?_
    show ((0 : ℕ) : ℤ) + (k + 1) ≤ limit
    omega
  | some v =>
    obtain ⟨e, he, rfl⟩ := LocalRedis.exists_of_read hread
    obtain ⟨log, hlog, hsize⟩ := h.kept e he
    rw [hlog] at hread
    refine @stock_check key ⟨limit, burst, nowMs, nonce, redisMs⟩ m k (some log) hread ?_
    push_cast at hsize
    exact hsize

end SlidingWindow

namespace Limiter

/-- The limiter's `remaining` holds of the limiter. -/
theorem supplies_of_check {a : Algorithm} {key : Str} {c : Call} (hl : 0 < c.limit)
    {m : LocalRedis} {reply : Reply} (hreply : (check a key c m).1 = some reply)
    (hallowed : reply.allowed = true) {n : ℕ} (hn : reply.remaining = n) :
    Supplies a key c.limit c.burst c.nowMs n (check a key c m).2 := by
  cases a with
  | tokenBucket =>
    obtain ⟨data, hread, rfl⟩ := TokenBucket.read_of_reply hreply
    refine supplies_of_stock (TokenBucket.stock_step hl) (TokenBucket.stock_check hl hread ?_).2
    rw [TokenBucket.call_allowed] at hallowed
    rw [TokenBucket.call, if_pos (of_decide_eq_true hallowed)] at hn
    have hfloor := Int.floor_le (TokenBucket.refill ⟨c.limit, c.burst, c.nowMs⟩ data - 1)
    rw [show ⌊TokenBucket.refill ⟨c.limit, c.burst, c.nowMs⟩ data - 1⌋ = n from hn] at hfloor
    push_cast at hfloor
    linarith
  | slidingWindow =>
    obtain ⟨data, hread, rfl⟩ := SlidingWindow.read_of_reply hreply
    refine supplies_of_stock SlidingWindow.stock_step (SlidingWindow.stock_check hread ?_).2
    rw [SlidingWindow.call_remaining hallowed] at hn
    dsimp only at hn
    omega

end Limiter

end Gdrl
