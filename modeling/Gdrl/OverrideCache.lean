import Gdrl.GoJson

/-!
# The override cache

`OverrideCache` is `override.Cache`, with the lookups of all goroutines side by side. A
lookup that misses takes the lock, and there finds an entry after all, joins the lookup
that is in flight for the same user, or starts one. `advance` is one step of one lookup
between two points where others may run.

Entries come out of `fetch` only, which lets no limit through that is not positive
(`positive_ofReply`). So neither a cached entry nor a shared one ever hands out another
(`advance_positive`).
-/

namespace Gdrl

/-- `redisEntry` -/
structure RedisEntry where
  limitPerMinute : ℤ
  ttl : ℤ
  reason : Str

namespace RedisEntry

/-- The zero value. -/
def zero : RedisEntry := ⟨0, 0, []⟩

/-- The fields with their JSON keys, in the order of the struct. -/
def fields : List (GoField RedisEntry) :=
  [goIntField (str "limit_per_minute") fun v e => { e with limitPerMinute := v },
    goIntField (str "ttl") fun v e => { e with ttl := v },
    goStringField (str "reason") fun v e => { e with reason := v }]

end RedisEntry

/-- `cacheEntry`, with times in nanoseconds. -/
structure CacheEntry where
  limit : ℤ
  hasValue : Bool
  expiresAt : ℤ
  deriving DecidableEq

/-- How `GET override:{user_id}` ends : no key, another error, or a value. -/
inductive GetReply
  | nil | error
  | value (raw : List Byte)

namespace CacheEntry

/-- What `fetch` makes of the reply. An error is not kept. -/
def ofReply (ttl now : ℤ) : GetReply → CacheEntry
  | .nil => ⟨0, false, now + ttl⟩
  | .error => ⟨0, false, now⟩
  | .value raw =>
    match unmarshal RedisEntry.fields raw RedisEntry.zero with
    | .error _ => ⟨0, false, now + ttl⟩
    | .ok re =>
      if re.limitPerMinute ≤ 0 then ⟨0, false, now + ttl⟩
      else ⟨re.limitPerMinute, true, now + ttl⟩

/-- The entry hands out no limit or a positive one. -/
def Positive (e : CacheEntry) : Prop := e.hasValue = true → 0 < e.limit

theorem positive_ofReply (ttl now : ℤ) (reply : GetReply) : (ofReply ttl now reply).Positive := by
  intro h
  cases reply with
  | nil => exact absurd h Bool.false_ne_true
  | error => exact absurd h Bool.false_ne_true
  | value raw =>
    unfold ofReply at h ⊢
    dsimp only at h ⊢
    split at h
    · exact absurd h Bool.false_ne_true
    · split_ifs at h ⊢ with hle
      exact not_le.mp hle

end CacheEntry

/-- `override.Cache`. `inflight` has the number of a lookup in `flights`, which are all
lookups that were ever in flight, with the result of each, `none` until it is done. -/
structure OverrideCache where
  ttl : ℤ
  entries : Str → Option CacheEntry
  inflight : Str → Option ℕ
  flights : List (Option CacheEntry)

/-- Where a lookup is : its fast path has missed, it is to query Redis for a flight, it has
the reply, it waits for another's flight, or it has returned. -/
inductive LookupStage
  | missed
  | leading (flight : ℕ)
  | fetched (flight : ℕ) (entry : CacheEntry)
  | waiting (flight : ℕ)
  | returned (limit : ℤ) (hasOverride : Bool)
  deriving DecidableEq

/-- The next step of a lookup : it gets the lock, Redis replies, the result is published, or
the channel of the flight it waits for is closed. -/
inductive LookupEvent
  | lock (now : ℤ)
  | fetch (now : ℤ) (reply : GetReply)
  | publish
  | wake

namespace OverrideCache

/-- `New` -/
def new (ttl : ℤ) : OverrideCache := ⟨ttl, fun _ => none, fun _ => none, []⟩

/-- The entry that is there and not expired. -/
def hit (c : OverrideCache) (user : Str) (now : ℤ) : Option CacheEntry :=
  (c.entries user).filter fun e => now < e.expiresAt

/-- The fast path of `Lookup`. -/
def begin (c : OverrideCache) (user : Str) (now : ℤ) : LookupStage :=
  match c.hit user now with
  | some e => .returned e.limit e.hasValue
  | none => .missed

/-- The slow path under the lock. -/
def lock (c : OverrideCache) (user : Str) (now : ℤ) : LookupStage × OverrideCache :=
  match c.hit user now with
  | some e => (.returned e.limit e.hasValue, c)
  | none =>
    match c.inflight user with
    | some f => (.waiting f, c)
    | none =>
      (.leading c.flights.length,
        { c with
          inflight := fun u => if u = user then some c.flights.length else c.inflight u
          flights := c.flights ++ [none] })

/-- The result goes into the map and to the waiting lookups. -/
def publish (c : OverrideCache) (user : Str) (flight : ℕ) (e : CacheEntry) : OverrideCache :=
  { c with
    entries := fun u => if u = user then some e else c.entries u
    inflight := fun u => if u = user then none else c.inflight u
    flights := c.flights.set flight (some e) }

/-- One step of a lookup, `none` where it cannot be taken. -/
def advance (c : OverrideCache) (user : Str) :
    LookupStage → LookupEvent → Option (LookupStage × OverrideCache)
  | .missed, .lock now => some (c.lock user now)
  | .leading f, .fetch now reply => some (.fetched f (.ofReply c.ttl now reply), c)
  | .fetched f e, .publish => some (.returned e.limit e.hasValue, c.publish user f e)
  | .waiting f, .wake =>
    match c.flights[f]? with
    | some (some e) => some (.returned e.limit e.hasValue, c)
    | _ => none
  | _, _ => none

/-- All entries of the map and of the flights hand out positive limits. -/
structure Positive (c : OverrideCache) : Prop where
  entries : ∀ user, ∀ e ∈ c.entries user, e.Positive
  flights : ∀ e, some e ∈ c.flights → e.Positive

theorem new_positive (ttl : ℤ) : (new ttl).Positive := ⟨nofun, nofun⟩

end OverrideCache

/-- The lookup hands out no limit or a positive one. -/
def LookupStage.Positive : LookupStage → Prop
  | .fetched _ e => e.Positive
  | .returned limit hasOverride => hasOverride = true → 0 < limit
  | _ => True

namespace OverrideCache

variable {c : OverrideCache}

theorem Positive.hit (hc : c.Positive) {user : Str} {now : ℤ} {e : CacheEntry}
    (h : c.hit user now = some e) : e.Positive :=
  hc.entries user e (Option.filter_eq_some_iff.mp h).1

theorem Positive.begin (hc : c.Positive) (user : Str) (now : ℤ) :
    (c.begin user now).Positive := by
  unfold OverrideCache.begin
  split
  · exact hc.hit ‹_›
  · trivial

theorem Positive.lock (hc : c.Positive) (user : Str) (now : ℤ) :
    (c.lock user now).1.Positive ∧ (c.lock user now).2.Positive := by
  unfold OverrideCache.lock
  split
  · exact ⟨hc.hit ‹_›, hc⟩
  · split
    · exact ⟨trivial, hc⟩
    · refine ⟨trivial, hc.entries, fun e he => hc.flights e ?_⟩
      rcases List.mem_append.mp he with he | he
      · exact he
      · exact absurd (List.mem_singleton.mp he) (Option.some_ne_none e)

theorem Positive.publish (hc : c.Positive) (user : Str) (flight : ℕ) {e : CacheEntry}
    (he : e.Positive) : (c.publish user flight e).Positive := by
  refine ⟨fun u e' he' => ?_, fun e' he' => ?_⟩
  · simp only [OverrideCache.publish, Option.mem_def] at he'
    split_ifs at he'
    · exact Option.some.inj he' ▸ he
    · exact hc.entries u e' he'
  · rcases List.mem_or_eq_of_mem_set he' with he' | he'
    · exact hc.flights e' he'
    · exact Option.some.inj he' ▸ he

/-- Every step of every lookup keeps limits positive. -/
theorem advance_positive (hc : c.Positive) {user : Str} {stage : LookupStage}
    (hs : stage.Positive) {e : LookupEvent} {r : LookupStage × OverrideCache}
    (h : c.advance user stage e = some r) : r.1.Positive ∧ r.2.Positive := by
  unfold advance at h
  split at h
  · obtain rfl := Option.some.inj h
    exact hc.lock user _
  · obtain rfl := Option.some.inj h
    exact ⟨CacheEntry.positive_ofReply _ _ _, hc⟩
  · obtain rfl := Option.some.inj h
    exact ⟨hs, hc.publish user _ hs⟩
  · split at h
    · rename_i entry hflight
      obtain rfl := Option.some.inj h
      exact ⟨hc.flights entry (List.mem_of_getElem? hflight), hc⟩
    · exact absurd h nofun
  · exact absurd h nofun

end OverrideCache

end Gdrl
