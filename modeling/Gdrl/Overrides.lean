import Gdrl.Cancellation
import Gdrl.PolicyWriter

/-!
# Overrides from the agent to the gateway

What `write_override` stores is what `fetch` reads : the limit as it was written, whatever the
user and the reason are, if it is positive and an `int` of Go holds it, and no override
otherwise (`ofReply_writeOverride`). With the bounded staleness of the cache, a lookup that
begins when the entries of the time before have expired returns the limit
(`override_reaches`). An entry is stamped some time after Redis has answered, and lives for
that much longer.
-/

namespace Gdrl

namespace PolicyWriter

/-! ## What is stored -/

/-- What the gateway decodes, member by member. Strings go through `text`. -/
def decodedOverride (text : Str → Str) (a : OverrideArgs) : List (Str × Json) :=
  [(str "policy_id", .str (text (str "ovr_" ++ a.localTime.compact ++ 95 :: a.hex6))),
    (str "user_id", .str (text a.userId)),
    (str "limit_per_minute", .int a.limitPerMinute),
    (str "ttl_seconds", .int a.ttlSeconds),
    (str "reason", .str (text a.reason)),
    (str "created_at", .str (text a.gmTime.iso))]

theorem reads_override (py : Python) (a : OverrideArgs) :
    ∃ text, ReadsMembers goDialect (defaultStyle py) 1 (override a) (decodedOverride text a) := by
  have hint : ∀ n : ℤ, goDialect.word (intText n) = .ok (.int n) := goWord_intText
  have hkey : ∀ {k : Str}, Scalar k → goDialect.string (k.flatMap (defaultStyle py).units) = k :=
    goString_pyUnits
  exact ⟨fun s => goDialect.string (s.flatMap (defaultStyle py).units),
    readsMembers_cons (hkey (by decide)) .str <| readsMembers_cons (hkey (by decide)) .str <|
    readsMembers_cons (hkey (by decide)) (.int (hint _)) <|
    readsMembers_cons (hkey (by decide)) (.int (hint _)) <|
    readsMembers_cons (hkey (by decide)) .str <|
    readsMembers_cons (hkey (by decide)) .str .nil⟩

/-- The members that are no field of the entry are passed over. -/
theorem foldl_decodedOverride (text : Str → Str) (a : OverrideArgs) :
    (decodedOverride text a).foldl (setField RedisEntry.fields) (RedisEntry.zero, none) =
      if Fits a.limitPerMinute then (⟨a.limitPerMinute, 0, text a.reason⟩, none)
      else (⟨0, 0, text a.reason⟩, some .unmarshalType) := by
  have hlimit : findField RedisEntry.fields (str "limit_per_minute") =
    some (goIntField (str "limit_per_minute") fun v e => { e with limitPerMinute := v }) := rfl
  have hreason : findField RedisEntry.fields (str "reason") =
    some (goStringField (str "reason") fun v e => { e with reason := v }) := rfl
  have hid : findField RedisEntry.fields (str "policy_id") = none := rfl
  have huser : findField RedisEntry.fields (str "user_id") = none := rfl
  have httl : findField RedisEntry.fields (str "ttl_seconds") = none := rfl
  have hat : findField RedisEntry.fields (str "created_at") = none := rfl
  simp only [decodedOverride, List.foldl_cons, List.foldl_nil, setField_none hid,
    setField_none huser, setField_none httl, setField_none hat, setField_int hlimit,
    setField_string hreason]
  split_ifs <;> rfl

theorem unmarshal_override (py : Python) (a : OverrideArgs) :
    ∃ reason, unmarshal RedisEntry.fields
        (utf8Encode ((defaultStyle py).print (.obj (override a)))) RedisEntry.zero =
      if Fits a.limitPerMinute then .ok ⟨a.limitPerMinute, 0, reason⟩
      else .error .unmarshalType := by
  obtain ⟨text, hreads⟩ := reads_override py a
  have hparse : goDialect.parse ((defaultStyle py).print (.obj (override a))) =
      .ok (.obj (decodedOverride text a)) := Json.parse_print (.obj (by decide) hreads)
  have hascii : Ascii ((defaultStyle py).print (.obj (override a))) := ascii_pyStyle py _ _
  refine ⟨text a.reason, ?_⟩
  rw [unmarshal, utf8Lenient_of_ascii hascii, hparse]
  simp only [Except.bind, foldl_decodedOverride]
  split_ifs <;> rfl

/-- **Override round trip.** What the agent stores for any user and any reason, the gateway
reads as the limit that was written if this is positive and fits an `int`, and as no override
otherwise. -/
theorem ofReply_writeOverride {py : Python} {a : OverrideArgs} {stored : Setex}
    (hw : writeOverride py a = .ok stored) (ttl now : ℤ) :
    CacheEntry.ofReply ttl now (.value stored.value) =
      if 0 < a.limitPerMinute ∧ a.limitPerMinute < 2 ^ 63 then
        ⟨a.limitPerMinute, true, now + ttl⟩
      else ⟨0, false, now + ttl⟩ := by
  obtain ⟨reason, hu⟩ := unmarshal_override py a
  rw [writeOverride_ok hw, CacheEntry.ofReply, hu]
  by_cases hfits : Fits a.limitPerMinute
  · rw [if_pos hfits]
    dsimp only
    by_cases hpos : a.limitPerMinute ≤ 0
    · rw [if_pos hpos, if_neg fun h => absurd h.1 (not_lt.mpr hpos)]
    · rw [if_neg hpos, if_pos ⟨not_le.mp hpos, hfits.2⟩]
  · rw [if_neg hfits, if_neg fun h => hfits ⟨by omega, h.2⟩]

/-- A positive limit that fits succeeds. -/
theorem writeOverride_eq {a : OverrideArgs} (hlimit : Printable a.limitPerMinute)
    (httl : Printable a.ttlSeconds) (hexp : Expires a.redisMs a.ttlSeconds) (py : Python) :
    writeOverride py a = .ok ⟨overrideKey a.userId, a.ttlSeconds,
      utf8Encode ((defaultStyle py).print (.obj (override a)))⟩ := by
  have hprint : (Json.obj (override a)).printable = true := by
    simp [override, Json.printable, Json.printableMembers, hlimit, httl]
  rw [writeOverride, dumps, if_pos hprint]
  simp only [Except.bind, if_pos hexp]

/-- What is stored means the limit to a lookup. -/
theorem storedOverride_writeOverride {py : Python} {a : OverrideArgs} {stored : Setex}
    (hw : writeOverride py a = .ok stored) (hpos : 0 < a.limitPerMinute)
    (hlt : a.limitPerMinute < 2 ^ 63) :
    storedOverride (some stored.value) = (a.limitPerMinute, true) := by
  rw [storedOverride, GetReply.ofStored, ofReply_writeOverride hw, if_pos ⟨hpos, hlt⟩]

/-- The decider's override of a noisy user. -/
def sampleOverride : OverrideArgs where
  userId := str "u_1"
  limitPerMinute := 5
  reason := str "noisy"
  ttlSeconds := 120
  localTime := ⟨2026, 4, 25, 12, 0, 0⟩
  gmTime := ⟨2026, 4, 25, 19, 0, 0⟩
  hex6 := str "a1b2c3"
  redisMs := ⟨1777143600000, by norm_num⟩

def sampleStored : Setex where
  key := overrideKey sampleOverride.userId
  ttlSeconds := 120
  value := utf8Encode ((defaultStyle samplePython).print (.obj (override sampleOverride)))

theorem write_sampleOverride : writeOverride samplePython sampleOverride = .ok sampleStored :=
  writeOverride_eq (by decide +kernel) (by decide +kernel)
    (expires_of_le _ (by decide) (by decide)) samplePython

end PolicyWriter

namespace Lookups

open PolicyWriter

variable {Stored : ℤ → Str → Option (List Byte) → Prop}

/-- What Redis held at most `d` before : what it answers a GET whose entry is stamped so much
later. -/
def Late (d : ℤ) (Stored : ℤ → Str → Option (List Byte) → Prop) (now : ℤ) (u : Str)
    (v : Option (List Byte)) : Prop :=
  ∃ t, now - d ≤ t ∧ t ≤ now ∧ Stored t u v

/-- **An override takes hold.** Once the agent's override is in a region's Redis and for as long
as it stays there, a lookup of the user that begins after the time to live of the cache has gone
by, and the time `d` from an answer of Redis to the stamp of its entry, returns the limit that
the agent wrote, unless it wakes on a flight that has failed or is too old. The other lookups
may fare as they will. -/
theorem override_reaches {py : Python} {a : OverrideArgs} {stored : Setex}
    (hw : writeOverride py a = .ok stored) (hpos : 0 < a.limitPerMinute)
    (hlt : a.limitPerMinute < 2 ^ 63) {since till : ℤ}
    (hstored : ∀ t v, since ≤ t → t < till → Stored t a.userId v → v = some stored.value)
    {ttl d t₀ : ℤ} (httl : 0 ≤ ttl) {i : ℕ} {es : List Event} {s : Lookups}
    (h : Run (fun s e s' => s.step e = some s' ∧ s.Answers (Late d Stored) e ∧
      (e = .advance i .wake → s.Undisturbed e)) (init ttl t₀) es s) {c : Lookup}
    (hc : s.calls[i]? = some c) (huser : c.user = a.userId) (hlive : c.live = true)
    (hbegan : since + ttl + d ≤ c.beganAt) (hstepped : c.steppedAt < till)
    {limit : ℤ} {hasOverride : Bool} (hret : c.stage = .returned limit hasOverride) :
    limit = a.limitPerMinute ∧ hasOverride = true := by
  obtain ⟨hsame, hreads⟩ := reads_of_run h
  obtain ⟨t, v, ⟨t', hlate, hle', hv⟩, hrecent, hle, hval⟩ :=
    (hreads c hc).current hlive (limit, hasOverride) (by rw [hret]; rfl)
  -- the value read is one that Redis held behind the write
  have hsince : since ≤ t' := by
    rw [hsame] at hrecent
    omega
  have hsome := hstored t' v hsince (by omega) (huser ▸ hv)
  rw [hsome, storedOverride_writeOverride hw hpos hlt] at hval
  obtain ⟨hlimit, hhas⟩ := Prod.mk.inj hval
  exact ⟨hlimit.symm, hhas.symm⟩

theorem ofReply_writeOverride_sample :
    CacheEntry.ofReply 5 0 (.value sampleStored.value) = ⟨5, true, 5⟩ :=
  ofReply_writeOverride write_sampleOverride 5 0

/-- One lookup at time 6 of an override written at time 0, and a GET that Redis answers at time
7 and whose entry is stamped at time 8. -/
theorem override_reaches_sample : ∃ es s, Run (fun s e s' => s.step e = some s' ∧
      s.Answers (Late 1 (Always (some sampleStored.value))) e ∧
      (e = .advance 0 .wake → s.Undisturbed e)) (init 5 6) es s ∧
    ∃ c, s.calls[0]? = some c ∧ c.user = str "u_1" ∧ ∀ limit hasOverride,
      c.stage = .returned limit hasOverride → limit = 5 ∧ hasOverride = true := by
  have hfetch : ∀ c, ([⟨str "u_1", true, 6, 0, 6, 6, .leading 0⟩] : List Lookup)[0]? = some c →
      (∃ v, Late 1 (Always (some sampleStored.value)) 8 c.user v ∧
        GetReply.value sampleStored.value = .ofStored v) ∨
      c.live = false ∧ GetReply.value sampleStored.value = .error :=
    fun c _ => Or.inl ⟨some sampleStored.value, ⟨7, by decide, by decide, rfl⟩, rfl⟩
  have hrun : ∃ s, Run (fun s e s' => s.step e = some s' ∧
      s.Answers (Late 1 (Always (some sampleStored.value))) e ∧
      (e = .advance 0 .wake → s.Undisturbed e)) (init 5 6)
      [.start (str "u_1") 6, .advance 0 (.lock 6),
        .advance 0 (.fetch 8 (.value sampleStored.value)), .advance 0 .publish] s ∧
      ∃ c, s.calls[0]? = some c ∧ c.user = str "u_1" ∧ c.live = true ∧ c.beganAt = 6 ∧
        c.steppedAt = 8 :=
    ⟨_, .cons ⟨rfl, trivial, fun _ => trivial⟩ (.cons ⟨rfl, trivial, fun _ => trivial⟩
      (.cons ⟨rfl, hfetch, fun _ => trivial⟩ (.cons ⟨rfl, trivial, fun _ => trivial⟩ (.nil _)))),
      _, rfl, rfl, rfl, rfl, rfl⟩
  obtain ⟨s, hrun, c, hc, huser, hlive, hbegan, hstepped⟩ := hrun
  have hstored : ∀ (t : ℤ) v, 0 ≤ t → t < 100 →
      Always (some sampleStored.value) t sampleOverride.userId v → v = some sampleStored.value :=
    fun t v _ _ hv => hv
  refine ⟨_, s, hrun, c, hc, huser, fun limit hasOverride hret => ?_⟩
  exact override_reaches write_sampleOverride (by decide) (by decide) hstored (by decide) hrun
    hc huser hlive (by omega) (by omega) hret

end Lookups

end Gdrl
