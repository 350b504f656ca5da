import Gdrl.Number
import Gdrl.Dict
import Gdrl.TokenBucket

/-!
# Sliding window

`SlidingWindow.script` is `sliding_window.lua` : a log of the allowed calls of the last
`windowMs` milliseconds, kept in a sorted set whose members are the calls and whose
scores are their times. Redis has no empty sorted set, so a log that loses its last
entry is no key.

Redis's Lua has no integers. Limits beyond `2 ^ 53` are rounded on their way in, and so is
what remains of them. `SlidingWindow.call` is the script over the integers, and up to
`2 ^ 53` the script does the same (`script_eq_call`).
-/

namespace Gdrl

namespace SlidingWindow

/-- `windowMs` of `sliding_window.go`. -/
def windowMs : ℤ := 60000

/-- The arguments of one call. -/
structure Call where
  limit : ℤ
  nowMs : ℤ
  nonce : Str
  deriving DecidableEq

/-- The sorted set : members with their scores. -/
abbrev Log := Dict Str ℤ

/-- `ZREMRANGEBYSCORE key -inf (now - window)` -/
def prune (nowMs : ℤ) (log : Log) : Log := log.filter fun e => nowMs - windowMs < e.2

/-- The lowest score, as `ZRANGE key 0 0 WITHSCORES` returns it. -/
def oldest (log : Log) : Option ℤ := (log.entries.map Prod.snd).min?

/-- The member of a call, `now_ms .. ":" .. nonce`. Lua prints a number below `10 ^ 14`
in full. -/
def member (c : Call) : Str := intText c.nowMs ++ 58 :: c.nonce

/-- A log as Redis keeps it. -/
def stored (log : Log) : Option Log := if log.entries.isEmpty then none else some log

/-- How long until the oldest entry is gone. -/
def retryAfter (nowMs : ℤ) (log : Log) : ℤ :=
  match oldest log with
  | some t => max 0 (t + windowMs - nowMs)
  | none => 0

theorem retryAfter_nonneg (nowMs : ℤ) (log : Log) : 0 ≤ retryAfter nowMs log := by
  unfold retryAfter
  split
  · exact le_max_left _ _
  · exact le_rfl

/-- What Redis replies for an integer result of a script : `(long long)` of a double, the least
64-bit integer where it is too large. -/
def longLong (n : ℤ) : ℤ := if -2 ^ 63 ≤ n ∧ n < 2 ^ 63 then n else -2 ^ 63

/-- `sliding_window.lua` on the log at the key, an absent key being an empty log. Times are
milliseconds far below `2 ^ 53`, and exact. -/
def script (c : Call) (data : Option Log) : Reply × Option Log :=
  let limit := luaNumber c.limit
  let log := prune c.nowMs (data.getD Dict.empty)
  let count := luaNumber log.size
  if limit ≤ count then (⟨false, 0, retryAfter c.nowMs log⟩, stored log)
  else
    (⟨true, longLong (luaNumber (luaNumber (limit - count) - 1)), 0⟩,
      stored (log.set (member c) c.nowMs))

/-- The script over the integers. -/
def call (c : Call) (data : Option Log) : Reply × Option Log :=
  let log := prune c.nowMs (data.getD Dict.empty)
  if c.limit ≤ log.size then (⟨false, 0, retryAfter c.nowMs log⟩, stored log)
  else
    (⟨true, c.limit - log.size - 1, 0⟩, stored (log.set (member c) c.nowMs))

theorem script_eq_call {c : Call} (hl : c.limit ≤ 2 ^ 53) (data : Option Log) :
    script c data = call c data := by
  unfold script call
  dsimp only
  generalize prune c.nowMs (data.getD Dict.empty) = log
  have hiff := luaNumber_le_iff (Int.natCast_nonneg log.size) (Or.inr hl)
  split_ifs with h h' h'
  · rfl
  · exact absurd (hiff.mp h) h'
  · exact absurd (hiff.mpr h') h
  · have hsize : (0 : ℤ) ≤ log.size := Int.natCast_nonneg _
    have hroom := not_le.mp h'
    have hremaining : longLong (luaNumber (luaNumber
        (luaNumber c.limit - luaNumber log.size) - 1)) = c.limit - log.size - 1 := by
      have hsmall : ∀ n : ℤ, 0 ≤ n → n ≤ c.limit → luaNumber n = n := fun n hn hle =>
        luaNumber_of_nonneg hn (hle.trans hl)
      rw [hsmall c.limit (by omega) le_rfl, hsmall log.size hsize (by omega),
        hsmall (c.limit - log.size) (by omega) (by omega),
        hsmall (c.limit - log.size - 1) (by omega) (by omega)]
      exact if_pos (by omega)
    rw [hremaining]

theorem setEntry_ne_nil {α β : Type*} [DecidableEq α] (k : α) (v : β) (l : List (α × β)) :
    Dict.setEntry k v l ≠ [] := by
  cases l with
  | nil => exact List.cons_ne_nil _ _
  | cons e l =>
    unfold Dict.setEntry
    split_ifs <;> exact List.cons_ne_nil _ _

/-- With a limit that is met by no empty log, a call leaves a log behind. -/
theorem call_isSome {c : Call} (hl : 0 < c.limit) (data : Option Log) :
    (call c data).2.isSome = true := by
  unfold call
  dsimp only
  split_ifs with h
  · have hne : (prune c.nowMs (data.getD Dict.empty)).entries ≠ [] := by
      intro hnil
      have hsize : (prune c.nowMs (data.getD Dict.empty)).size = 0 := by
        rw [Dict.size, hnil, List.length_nil]
      omega
    simp [stored, hne]
  · simp [stored, Dict.set, setEntry_ne_nil]

end SlidingWindow

end Gdrl
