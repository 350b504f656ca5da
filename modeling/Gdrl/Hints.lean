import Gdrl.Window

/-!
# Retry hints

A denied call is told how many milliseconds to wait. The hint is exact if a call is allowed
when they are over and none is before, with nothing else on the key (`ExactHint`).

The token bucket's hint is exact, whatever limits, bursts and expiries are behind the
bucket (`retry_exact`). The sliding window's hint is the time until its oldest entry is
gone. One entry less is enough at a limit that the window has just reached. After a policy
has lowered the limit it is not, and the hint is exact if and only if fewer entries than the
limit are younger than the oldest (`hint_iff`).
-/

namespace Gdrl

/-- A call that waits `r` milliseconds from `t` on is allowed, and one that waits less is
not. -/
structure ExactHint (answer : ℤ → Reply) (t r : ℤ) : Prop where
  pos : 0 < r
  allowed : (answer (t + r)).allowed = true
  denied : ∀ u, t ≤ u → u < t + r → (answer u).allowed = false

namespace TokenBucket

variable {c : Call} {data : Option Bucket}

/-- The tokens at a later call of the same policy. -/
theorem refill_later (hl : 0 < c.limit) {b : Bucket} {u : ℤ} (hu : b.lastRefillMs ≤ u) :
    refill { c with nowMs := u } (some b) =
      min (c.burst : ℚ) (b.tokens + (u - b.lastRefillMs : ℤ) * c.limit / 60000) := by
  have helapsed : elapsedMs { c with nowMs := u } (some b) = u - b.lastRefillMs :=
    (elapsedMs_some _ b).trans (max_eq_right (by dsimp only; omega))
  simp only [refill, helapsed, Option.elim_some]
  exact if_pos hl

/-- With nothing else on the key an empty bucket has its next token as soon as the refill has
paid for it. -/
theorem allowed_later (hl : 0 < c.limit) (hb : 1 ≤ c.burst) {tokens : ℚ} {t u : ℤ} (hu : t ≤ u) :
    (call { c with nowMs := u } (some ⟨tokens, t⟩)).1.allowed =
      decide (⌈(1 - tokens) * 60000 / c.limit⌉ ≤ u - t) := by
  have hlimit : (0 : ℚ) < c.limit := by exact_mod_cast hl
  have hburst : (1 : ℚ) ≤ c.burst := by exact_mod_cast hb
  rw [call_allowed, decide_eq_decide, refill_later hl hu, le_min_iff, Int.ceil_le,
    div_le_iff₀ hlimit]
  dsimp only
  constructor
  · rintro ⟨-, h⟩
    linarith
  · intro h
    exact ⟨hburst, by linarith⟩

/-- The hint of a denied call whose clock is not behind. -/
theorem exactHint_call (hl : 0 < c.limit) (hb : 1 ≤ c.burst)
    (hlast : ∀ b ∈ data, b.lastRefillMs ≤ c.nowMs) (hdenied : (call c data).1.allowed = false) :
    ExactHint (fun u => (call { c with nowMs := u } (some (call c data).2)).1) c.nowMs
      (call c data).1.retryAfterMs := by
  have hempty : refill c data < 1 := by
    rw [call_allowed] at hdenied
    exact not_le.mp (of_decide_eq_false hdenied)
  -- the call leaves its own time at the key
  have htime : newRefillMs c data = c.nowMs := by
    cases data with
    | none => exact newRefillMs_none c
    | some b => exact (newRefillMs_some c b).trans (max_eq_right (hlast b rfl))
  have hkept : (call c data).2 = ⟨refill c data, c.nowMs⟩ := by
    rw [call, if_neg (not_le.mpr hempty), htime]
  have hretry : (call c data).1.retryAfterMs = ⌈(1 - refill c data) * 60000 / c.limit⌉ := by
    rw [call, if_neg (not_le.mpr hempty)]
    exact if_pos hl
  have hpos : 0 < ⌈(1 - refill c data) * 60000 / c.limit⌉ := by
    have hlimit : (0 : ℚ) < c.limit := by exact_mod_cast hl
    have hmissing := sub_pos.mpr hempty
    exact Int.ceil_pos.mpr (by positivity)
  rw [hkept, hretry]
  refine ⟨hpos, ?_, fun u hu hlt => ?_⟩
  · rw [allowed_later hl hb (by omega)]
    exact decide_eq_true (by omega)
  · rw [allowed_later hl hb hu]
    exact decide_eq_false (by omega)

/-- The bucket before call `n` is not ahead of the clock, whatever was dropped. -/
theorem lastRefillMs_le {cs : ℕ → Call} (dropped : ℕ → Bool)
    (hclock : ∀ n, (cs n).nowMs ≤ (cs (n + 1)).nowMs) (n : ℕ) :
    ∀ b ∈ expiringRun cs dropped n, b.lastRefillMs ≤ (cs n).nowMs := by
  induction n with
  | zero =>
    intro b hb
    cases hb
  | succ n ih =>
    intro b hb
    rw [expiringRun] at hb
    split_ifs at hb with hdrop
    · cases hb
    obtain rfl := Option.some.inj hb
    refine le_trans ?_ (hclock n)
    rw [call_lastRefillMs]
    cases hdata : expiringRun cs dropped n with
    | none => exact (newRefillMs_none _).le
    | some b =>
      rw [newRefillMs_some]
      exact max_le (ih b hdata) le_rfl

/-- **The token bucket's hint.** Behind any run of calls in the order of their clocks, with
any limits, bursts and expiries, the hint of a denied call is exact. -/
theorem retry_exact {cs : ℕ → Call} (hclock : ∀ n, (cs n).nowMs ≤ (cs (n + 1)).nowMs)
    (dropped : ℕ → Bool) {n : ℕ} (hl : 0 < (cs n).limit) (hb : 1 ≤ (cs n).burst)
    (hdenied : (call (cs n) (expiringRun cs dropped n)).1.allowed = false) :
    let r := call (cs n) (expiringRun cs dropped n)
    ExactHint (fun u => (call { cs n with nowMs := u } (some r.2)).1) (cs n).nowMs
      r.1.retryAfterMs :=
  exactHint_call hl hb (lastRefillMs_le dropped hclock n) hdenied

/-- Seven requests a minute, raised to nine behind the first call : the second one has
`3 / 20` of a token and waits for the rest, rounded up to a millisecond. -/
def raisedLimit (n : ℕ) : Call := ⟨if n = 0 then 7 else 9, 1, 1000 * n⟩

theorem retry_exact_sample :
    let r := call (raisedLimit 1) (expiringRun raisedLimit (fun _ => false) 1)
    r.1 = ⟨false, 0, 5667⟩ ∧
      ExactHint (fun u => (call { raisedLimit 1 with nowMs := u } (some r.2)).1) 1000 5667 := by
  have hreply : (call (raisedLimit 1) (expiringRun raisedLimit (fun _ => false) 1)).1 =
      ⟨false, 0, 5667⟩ := by decide +kernel
  have hclock : ∀ n, (raisedLimit n).nowMs ≤ (raisedLimit (n + 1)).nowMs := by
    intro n
    simp only [raisedLimit]
    push_cast
    omega
  have hint := @retry_exact raisedLimit hclock (fun _ => false) 1 (by decide) (by decide)
    (congrArg Reply.allowed hreply)
  dsimp only at hint
  rw [hreply] at hint
  exact ⟨hreply, hint⟩

end TokenBucket

namespace SlidingWindow

/-- The entries of a log that are younger than its oldest. -/
def younger (log : Log) : ℕ := (log.entries.filter fun e => (oldest log).any (· < e.2)).length

theorem oldest_eq_some {log : Log} {t : ℤ} (h : oldest log = some t) :
    (∃ e ∈ log.entries, e.2 = t) ∧ ∀ e ∈ log.entries, t ≤ e.2 := by
  obtain ⟨hmem, hle⟩ := List.min?_eq_some_iff.mp h
  refine ⟨List.mem_map.mp hmem, fun e he => hle _ (List.mem_map_of_mem he)⟩

theorem exists_oldest {log : Log} (h : log.size ≠ 0) : ∃ t, oldest log = some t := by
  refine Option.ne_none_iff_exists'.mp fun hnone => h ?_
  rw [oldest, List.min?_eq_none_iff, List.map_eq_nil_iff] at hnone
  rw [Dict.size, hnone, List.length_nil]

/-- A prune at a time that still counts the oldest entry takes nothing. -/
theorem size_prune_of_lt {log : Log} {t u : ℤ} (ht : oldest log = some t) (hu : u - windowMs < t) :
    (prune u log).size = log.size := by
  refine congrArg List.length (List.filter_eq_self.mpr fun e he => decide_eq_true ?_)
  exact hu.trans_le ((oldest_eq_some ht).2 e he)

/-- The prune that takes the oldest entry leaves the younger ones. -/
theorem size_prune_of_eq {log : Log} {t u : ℤ} (ht : oldest log = some t) (hu : u - windowMs = t) :
    (prune u log).size = younger log := by
  refine congrArg List.length (List.filter_congr fun e _ => ?_)
  rw [hu, ht, Option.any_some]

namespace Window

variable {w : Window} {c : Call}

/-- What a denied call counted is what later calls count from, up to two minutes. -/
theorem counted_serve {d : Call} {u : ℤ} (hdenied : (w.answer c c.nowMs).allowed = false)
    (hu : u ≤ c.nowMs + localTtlMs) :
    counted d ((w.serve c c.nowMs).read u) = prune d.nowMs (counted c (w.read c.nowMs)) := by
  rw [counted, read_serve, if_neg (not_lt.mpr hu), getD_call, if_neg (by
    rw [show (call c (w.read c.nowMs)).1.allowed = false from hdenied]; exact Bool.false_ne_true)]

/-- The log has no entry ahead of the clock. -/
theorem mem_read_run {cs : List Call} {t : ℤ} (hle : ∀ d ∈ cs, d.nowMs ≤ t) (u : ℤ) :
    ∀ e ∈ (((run cs).read u).getD Dict.empty).entries, e.2 ≤ t := by
  induction cs using List.reverseRecOn generalizing u with
  | nil => exact fun e he => absurd he List.not_mem_nil
  | append_singleton cs c ih =>
    intro e he
    have hbefore := ih fun d hd => hle d (List.mem_append_left _ hd)
    have hcounted : ∀ e ∈ (counted c ((run cs).read c.nowMs)).entries, e.2 ≤ t := fun e he =>
      hbefore c.nowMs e (List.mem_filter.mp he).1
    rw [run_snoc, read_serve] at he
    split_ifs at he
    · exact absurd he List.not_mem_nil
    · rw [getD_call] at he
      split_ifs at he
      · rcases Dict.mem_entries_set he with rfl | he
        · exact hle c (by simp)
        · exact hcounted e he
      · exact hcounted e he

/-- The hint of a denied call is the time to the end of its oldest entry. -/
theorem retryAfterMs_answer {t : ℤ} (ht : oldest (counted c (w.read c.nowMs)) = some t)
    (hdenied : (w.answer c c.nowMs).allowed = false) (hlate : c.nowMs - windowMs < t) :
    (w.answer c c.nowMs).retryAfterMs = t + windowMs - c.nowMs := by
  unfold answer call at *
  unfold counted at ht
  dsimp only at *
  split_ifs at hdenied ⊢ with hfull
  · rw [retryAfter, ht]
    exact max_eq_right (by omega)

/-- **The sliding window's hint.** Behind any run of calls in the order of their clocks the
hint of a denied call is at most a minute, and it is exact if and only if fewer of the entries
that the call has counted than its limit are younger than the oldest of them. -/
theorem hint_iff {cs : List Call} {c : Call}
    (htime : (cs ++ [c]).Pairwise fun d e => d.nowMs ≤ e.nowMs) (hl : 1 ≤ c.limit)
    (hdenied : ((run cs).answer c c.nowMs).allowed = false) (nonce : Str) :
    let r := ((run cs).answer c c.nowMs).retryAfterMs
    ExactHint (fun u => (run (cs ++ [c])).answer ⟨c.limit, u, nonce⟩ u) c.nowMs r ∧
        r ≤ windowMs ↔
      (younger (counted c ((run cs).read c.nowMs)) : ℤ) < c.limit := by
  have hfull : c.limit ≤ (counted c ((run cs).read c.nowMs)).size := by
    rw [answer, call_allowed] at hdenied
    exact not_lt.mp (of_decide_eq_false hdenied)
  obtain ⟨t, ht⟩ := @exists_oldest (counted c ((run cs).read c.nowMs)) (by omega)
  obtain ⟨⟨e, he, rfl⟩, -⟩ := oldest_eq_some ht
  obtain ⟨hread, hlate⟩ := List.mem_filter.mp he
  have hlate : c.nowMs - windowMs < e.2 := of_decide_eq_true hlate
  have hearly : e.2 ≤ c.nowMs := by
    refine mem_read_run (fun d hd => ?_) c.nowMs e hread
    exact (List.pairwise_append.mp htime).2.2 d hd c (List.mem_singleton_self c)
  have hanswer : ∀ u, u ≤ c.nowMs + localTtlMs →
      ((run (cs ++ [c])).answer ⟨c.limit, u, nonce⟩ u).allowed =
        decide (((prune u (counted c ((run cs).read c.nowMs))).size : ℤ) < c.limit) := by
    intro u hu
    rw [run_snoc, answer, call_allowed, counted_serve hdenied hu]
  intro r
  have hr : r = e.2 + windowMs - c.nowMs := retryAfterMs_answer ht hdenied hlate
  unfold windowMs at *
  unfold localTtlMs at hanswer
  have hend := hanswer (e.2 + 60000) (by omega)
  rw [size_prune_of_eq ht (by unfold windowMs; omega)] at hend
  have hover : c.nowMs + r = e.2 + 60000 := by omega
  constructor
  · rintro ⟨h, -⟩
    have hallowed := h.allowed
    rw [hover, hend] at hallowed
    exact of_decide_eq_true hallowed
  · intro hroom
    refine ⟨⟨by omega, ?_, fun u hu hlt => ?_⟩, by omega⟩
    · rw [hover, hend]
      exact decide_eq_true hroom
    · -- the oldest entry still counts, and so do all others
      rw [hanswer u (by omega), size_prune_of_lt ht (by unfold windowMs; omega)]
      exact decide_eq_false (not_lt.mpr hfull)

/-- Two calls under a limit of two, then one under a limit of one. -/
def lowered : List Call := [⟨2, 0, str "1"⟩, ⟨2, 1, str "2"⟩]

/-- The hint ends with the first entry, and the second still meets the lowered limit. -/
theorem not_exactHint :
    ((run lowered).answer ⟨1, 10, str "3"⟩ 10) = ⟨false, 0, 59990⟩ ∧
      ((run (lowered ++ [⟨1, 10, str "3"⟩])).answer ⟨1, 60000, str "4"⟩ 60000).allowed = false ∧
      ¬ ExactHint (fun u => (run (lowered ++ [⟨1, 10, str "3"⟩])).answer ⟨1, u, str "4"⟩ u) 10
        59990 := by
  have hlater : ((run (lowered ++ [⟨1, 10, str "3"⟩])).answer ⟨1, 60000, str "4"⟩ 60000).allowed =
      false := by decide +kernel
  refine ⟨by decide +kernel, hlater, fun h => ?_⟩
  exact Bool.false_ne_true (hlater.symm.trans h.allowed)

/-- Two entries of one millisecond under a limit that is lowered by one. -/
theorem hint_iff_sample :
    let cs : List Call := [⟨2, 0, str "1"⟩, ⟨2, 0, str "2"⟩]
    ExactHint (fun u => (run (cs ++ [⟨1, 10, str "3"⟩])).answer ⟨1, u, str "4"⟩ u) 10 59990 := by
  intro cs
  have hreply : (run cs).answer ⟨1, 10, str "3"⟩ 10 = ⟨false, 0, 59990⟩ := by decide +kernel
  have hroom : (younger (counted ⟨1, 10, str "3"⟩ ((run cs).read 10)) : ℤ) < 1 := by
    decide +kernel
  have hint := ((@hint_iff cs ⟨1, 10, str "3"⟩ (by decide) (by decide)
    (congrArg Reply.allowed hreply) (str "4")).mpr hroom).1
  rw [hreply] at hint
  exact hint

end Window

end SlidingWindow

end Gdrl
