import Gdrl.PyJson
import Gdrl.Limiter

/-!
# The agent's policy writer

`writePolicy` is `PolicyWriter.write_policy` : the value it puts at a region's policy key
for the gateway's store to find. The two sides agree on every field but one. The writer
puts down no `algorithm`, the store requires one, and a store that refreshes from what
the agent wrote therefore goes back to its static policy (`refresh_writePolicy`).
-/

namespace Gdrl

namespace PolicyWriter

/-- A moment as `time.strftime` prints it. -/
structure Stamp where
  year : ℕ
  month : ℕ
  day : ℕ
  hour : ℕ
  minute : ℕ
  second : ℕ

/-- Two digits. -/
def pad2 (n : ℕ) : Str := if n < 10 then 48 :: natText n else natText n

/-- `%Y%m%d_%H%M%S` -/
def Stamp.compact (t : Stamp) : Str :=
  natText t.year ++ pad2 t.month ++ pad2 t.day ++ 95 :: pad2 t.hour ++ pad2 t.minute ++
    pad2 t.second

/-- `%Y-%m-%dT%H:%M:%SZ` -/
def Stamp.iso (t : Stamp) : Str :=
  natText t.year ++ 45 :: pad2 t.month ++ 45 :: pad2 t.day ++ 84 :: pad2 t.hour ++
    58 :: pad2 t.minute ++ 58 :: pad2 t.second ++ [90]

/-- Redis's clock in milliseconds, below `2 ^ 62` for some hundred million years. -/
abbrev RedisMs := Fin (2 ^ 62)

/-- `SETEX` refuses a time to live that is not positive, and one with an end that does not fit
64 bits. -/
def Expires (redisMs : RedisMs) (ttlSeconds : ℤ) : Prop :=
  0 < ttlSeconds ∧ ttlSeconds ≤ (2 ^ 63 - 1 - (redisMs : ℕ)) / 1000

instance (redisMs : RedisMs) (ttlSeconds : ℤ) : Decidable (Expires redisMs ttlSeconds) :=
  inferInstanceAs (Decidable (_ ∧ _))

/-- What counts in minutes is never refused. -/
theorem expires_of_le (redisMs : RedisMs) {ttlSeconds : ℤ} (hpos : 0 < ttlSeconds)
    (hle : ttlSeconds ≤ 2 ^ 50) : Expires redisMs ttlSeconds := by
  have hlt := redisMs.isLt
  exact ⟨hpos, by omega⟩

/-- The arguments of `write_policy`, with what it reads from the clock and from `uuid`, and
Redis's clock. -/
structure Args where
  region : Region
  tier : Tier
  limitPerMinute : ℤ
  burst : ℤ
  reason : Str
  ttlSeconds : ℤ
  localTime : Stamp
  gmTime : Stamp
  hex6 : Str
  redisMs : RedisMs

/-- `policy_id` -/
def Args.policyID (a : Args) : Str := str "pol_" ++ a.localTime.compact ++ 95 :: a.hex6

/-- The `policy` dictionary. -/
def policy (a : Args) : List (Str × Json) :=
  [(str "policy_id", .str a.policyID),
    (str "region", .str a.region.name),
    (str "tier", .str a.tier.name),
    (str "limit_per_minute", .int a.limitPerMinute),
    (str "burst", .int a.burst),
    (str "ttl_seconds", .int a.ttlSeconds),
    (str "reason", .str a.reason),
    (str "created_at", .str a.gmTime.iso)]

/-- `json.dumps` with the default separators. -/
def defaultStyle (py : Python) : Style := pyStyle py [32] (by simp [isSpace])

/-- What `SETEX` stores, and for how long. -/
structure Setex where
  key : Str
  ttlSeconds : ℤ
  value : List Byte

/-- `PolicyWriter.write_policy` with the region's Redis reachable. -/
def writePolicy (py : Python) (a : Args) : Except PyError Setex :=
  (dumps (defaultStyle py) (.obj (policy a))).bind fun text =>
    if Expires a.redisMs a.ttlSeconds then
      .ok ⟨Store.redisKey a.region a.tier, a.ttlSeconds, utf8Encode text⟩
    else .error .redis

/-- The arguments of `write_override`, with what it reads from the clock and from `uuid`, and
the Redises' clock. -/
structure OverrideArgs where
  userId : Str
  limitPerMinute : ℤ
  reason : Str
  ttlSeconds : ℤ
  localTime : Stamp
  gmTime : Stamp
  hex6 : Str
  redisMs : RedisMs

/-- The `override` dictionary. -/
def override (a : OverrideArgs) : List (Str × Json) :=
  [(str "policy_id", .str (str "ovr_" ++ a.localTime.compact ++ 95 :: a.hex6)),
    (str "user_id", .str a.userId),
    (str "limit_per_minute", .int a.limitPerMinute),
    (str "ttl_seconds", .int a.ttlSeconds),
    (str "reason", .str a.reason),
    (str "created_at", .str a.gmTime.iso)]

/-- The key of a user's override. -/
def overrideKey (userId : Str) : Str := str "override:" ++ userId

/-- `PolicyWriter.write_override`, as it writes to each region. -/
def writeOverride (py : Python) (a : OverrideArgs) : Except PyError Setex :=
  (dumps (defaultStyle py) (.obj (override a))).bind fun text =>
    if Expires a.redisMs a.ttlSeconds then
      .ok ⟨overrideKey a.userId, a.ttlSeconds, utf8Encode text⟩
    else .error .redis

/-- What a write that succeeds stores. -/
theorem writeOverride_ok {py : Python} {a : OverrideArgs} {stored : Setex}
    (hw : writeOverride py a = .ok stored) :
    stored = ⟨overrideKey a.userId, a.ttlSeconds,
      utf8Encode ((defaultStyle py).print (.obj (override a)))⟩ := by
  unfold writeOverride dumps at hw
  by_cases h : (Json.obj (override a)).printable = true
  · rw [if_pos h] at hw
    simp only [Except.bind] at hw
    split_ifs at hw
    exact (Except.ok.inj hw).symm
  · rw [if_neg h] at hw
    exact absurd hw (by simp [Except.bind])

/-- No override is at the key of a policy. -/
theorem overrideKey_ne (userId : Str) (r : Region) (t : Tier) :
    overrideKey userId ≠ Store.redisKey r t := by
  intro h
  have hhead : some (111 : CodePoint) = some 112 := congrArg List.head? h
  exact absurd hhead (by decide)

/-- The member `key` sets no field that `algorithm` depends on. -/
def KeepsAlgorithm (key : Str) : Prop :=
  ∀ s v, (setField Contract4.fields s (key, v)).1.algorithm = s.1.algorithm

theorem keepsAlgorithm_string {key : Str} {k : Str} {set : Str → Contract4 → Contract4}
    (hf : findField Contract4.fields key = some (goStringField k set))
    (hset : ∀ t c, (set t c).algorithm = c.algorithm) : KeepsAlgorithm key := by
  intro s v
  rw [setField, hf]
  cases v with
  | str t => exact hset t s.1
  | _ => rfl

theorem keepsAlgorithm_int {key : Str} {k : Str} {set : ℤ → Contract4 → Contract4}
    (hf : findField Contract4.fields key = some (goIntField k set))
    (hset : ∀ t c, (set t c).algorithm = c.algorithm) : KeepsAlgorithm key := by
  intro s v
  rw [setField, hf]
  cases v with
  | int n =>
    dsimp only [goIntField]
    split_ifs
    · exact hset n s.1
    · rfl
  | _ => rfl

/-- None of the keys that the writer uses is the key of the algorithm. -/
theorem keepsAlgorithm_policy (a : Args) : ∀ e ∈ policy a, KeepsAlgorithm e.1 := by
  simp only [policy, List.forall_mem_cons]
  refine ⟨?_, ?_, ?_, ?_, ?_, ?_, ?_, ?_, by simp⟩
  · exact keepsAlgorithm_string rfl fun _ _ => rfl
  · exact keepsAlgorithm_string rfl fun _ _ => rfl
  · exact keepsAlgorithm_string rfl fun _ _ => rfl
  · exact keepsAlgorithm_int rfl fun _ _ => rfl
  · exact keepsAlgorithm_int rfl fun _ _ => rfl
  · exact keepsAlgorithm_int rfl fun _ _ => rfl
  · exact keepsAlgorithm_string rfl fun _ _ => rfl
  · exact keepsAlgorithm_string rfl fun _ _ => rfl

theorem foldl_setField_algorithm {kvs : List (Str × Json)} (h : ∀ e ∈ kvs, KeepsAlgorithm e.1)
    (s : Contract4 × Option GoError) :
    (kvs.foldl (setField Contract4.fields) s).1.algorithm = s.1.algorithm := by
  induction kvs generalizing s with
  | nil => rfl
  | cons e kvs ih =>
    rw [List.foldl_cons, ih fun x hx => h x (List.mem_cons_of_mem e hx)]
    exact h e List.mem_cons_self s e.2

/-! ## What the store makes of it -/

/-- A string without surrogates goes from Python to Go as it is. -/
theorem goString_pyUnits {s : Str} (hs : Scalar s) : goString (s.flatMap pyUnits) = s := by
  rw [goString, joinPairs_pyUnits hs]
  refine (List.map_congr_left fun c hc => ?_).trans (List.map_id s)
  rw [hs c hc]
  exact if_neg Bool.false_ne_true

/-- What the gateway decodes, member by member. Strings go through `text`. -/
def decoded (text : Str → Str) (a : Args) : List (Str × Json) :=
  [(str "policy_id", .str (text a.policyID)),
    (str "region", .str (text a.region.name)),
    (str "tier", .str (text a.tier.name)),
    (str "limit_per_minute", .int a.limitPerMinute),
    (str "burst", .int a.burst),
    (str "ttl_seconds", .int a.ttlSeconds),
    (str "reason", .str (text a.reason)),
    (str "created_at", .str (text a.gmTime.iso))]

theorem reads_policy (py : Python) (a : Args) :
    ∃ text, ReadsMembers goDialect (defaultStyle py) 1 (policy a) (decoded text a) := by
  have hint : ∀ n : ℤ, goDialect.word (intText n) = .ok (.int n) := goWord_intText
  have hkey : ∀ {k : Str}, Scalar k → goDialect.string (k.flatMap (defaultStyle py).units) = k :=
    goString_pyUnits
  exact ⟨fun s => goDialect.string (s.flatMap (defaultStyle py).units),
    readsMembers_cons (hkey (by decide)) .str <| readsMembers_cons (hkey (by decide)) .str <|
    readsMembers_cons (hkey (by decide)) .str <|
    readsMembers_cons (hkey (by decide)) (.int (hint _)) <|
    readsMembers_cons (hkey (by decide)) (.int (hint _)) <|
    readsMembers_cons (hkey (by decide)) (.int (hint _)) <|
    readsMembers_cons (hkey (by decide)) .str <|
    readsMembers_cons (hkey (by decide)) .str .nil⟩

/-- The policy as the gateway decodes it : every member under its own key. -/
theorem parse_policy (py : Python) (a : Args) :
    ∃ kvs, goDialect.parse ((defaultStyle py).print (.obj (policy a))) = .ok (.obj kvs) ∧
      kvs.map Prod.fst = (policy a).map Prod.fst := by
  obtain ⟨text, hreads⟩ := reads_policy py a
  exact ⟨decoded text a, Json.parse_print (.obj (by decide) hreads), rfl⟩

/-- What the store decodes has no algorithm. -/
theorem unmarshal_policy (py : Python) (a : Args) :
    ∀ c, unmarshal Contract4.fields (utf8Encode ((defaultStyle py).print (.obj (policy a))))
      Contract4.zero = .ok c → c.algorithm = [] := by
  intro c hc
  obtain ⟨kvs, hparse, hkeys⟩ := parse_policy py a
  have hkeep : ∀ e ∈ kvs, KeepsAlgorithm e.1 := by
    intro e he
    have hmem : e.1 ∈ (policy a).map Prod.fst := hkeys ▸ List.mem_map_of_mem he
    obtain ⟨e', he', heq⟩ := List.mem_map.mp hmem
    exact heq ▸ keepsAlgorithm_policy a e' he'
  have halg := foldl_setField_algorithm hkeep (Contract4.zero, none)
  have hascii : Ascii ((defaultStyle py).print (.obj (policy a))) := ascii_pyStyle py _ _
  rw [unmarshal, utf8Lenient_of_ascii hascii, hparse] at hc
  simp only [Except.bind] at hc
  split at hc
  · rename_i s hs
    rw [hs] at halg
    exact Except.ok.inj hc ▸ halg
  · exact absurd hc (by simp)

theorem foldl_decoded {text : Str → Str} {a : Args}
    (hlimit : Fits a.limitPerMinute) (hburst : Fits a.burst) (httl : Fits a.ttlSeconds) :
    (decoded text a).foldl (setField Contract4.fields) (Contract4.zero, none) =
      (⟨text a.policyID, text a.region.name, text a.tier.name, a.limitPerMinute, a.burst, [],
        a.ttlSeconds, text a.reason, text a.gmTime.iso⟩, none) := by
  have hid : findField Contract4.fields (str "policy_id") =
    some (goStringField (str "policy_id") fun v c => { c with policyID := v }) := rfl
  have hregion : findField Contract4.fields (str "region") =
    some (goStringField (str "region") fun v c => { c with region := v }) := rfl
  have htier : findField Contract4.fields (str "tier") =
    some (goStringField (str "tier") fun v c => { c with tier := v }) := rfl
  have hlim : findField Contract4.fields (str "limit_per_minute") =
    some (goIntField (str "limit_per_minute") fun v c => { c with limitPerMinute := v }) := rfl
  have hbur : findField Contract4.fields (str "burst") =
    some (goIntField (str "burst") fun v c => { c with burst := v }) := rfl
  have hsec : findField Contract4.fields (str "ttl_seconds") =
    some (goIntField (str "ttl_seconds") fun v c => { c with ttlSeconds := v }) := rfl
  have hreason : findField Contract4.fields (str "reason") =
    some (goStringField (str "reason") fun v c => { c with reason := v }) := rfl
  have hat : findField Contract4.fields (str "created_at") =
    some (goStringField (str "created_at") fun v c => { c with createdAt := v }) := rfl
  simp only [decoded, List.foldl_cons, List.foldl_nil, setField_string hid,
    setField_string hregion, setField_string htier, setField_int hlim, setField_int hbur,
    setField_int hsec, setField_string hreason, setField_string hat, if_pos hlimit, if_pos hburst,
    if_pos httl]
  rfl

/-- Numbers of 64 bits are decoded as they were written. -/
theorem unmarshal_policy_ok (py : Python) (a : Args)
    (hlimit : Fits a.limitPerMinute) (hburst : Fits a.burst) (httl : Fits a.ttlSeconds) :
    ∃ c, unmarshal Contract4.fields (utf8Encode ((defaultStyle py).print (.obj (policy a))))
      Contract4.zero = .ok c ∧ c.limitPerMinute = a.limitPerMinute ∧ c.burst = a.burst := by
  obtain ⟨text, hreads⟩ := reads_policy py a
  have hparse : goDialect.parse ((defaultStyle py).print (.obj (policy a))) =
      .ok (.obj (decoded text a)) := Json.parse_print (.obj (by decide) hreads)
  have hascii : Ascii ((defaultStyle py).print (.obj (policy a))) := ascii_pyStyle py _ _
  refine ⟨⟨text a.policyID, text a.region.name, text a.tier.name, a.limitPerMinute, a.burst, [],
    a.ttlSeconds, text a.reason, text a.gmTime.iso⟩, ?_, rfl, rfl⟩
  rw [unmarshal, utf8Lenient_of_ascii hascii, hparse]
  simp only [Except.bind, foldl_decoded hlimit hburst httl]

/-- A write with numbers that print succeeds. -/
theorem writePolicy_eq {a : Args} (hlimit : Printable a.limitPerMinute) (hburst : Printable a.burst)
    (httl : Printable a.ttlSeconds) (hexp : Expires a.redisMs a.ttlSeconds) (py : Python) :
    writePolicy py a = .ok ⟨Store.redisKey a.region a.tier, a.ttlSeconds,
      utf8Encode ((defaultStyle py).print (.obj (policy a)))⟩ := by
  have hprint : (Json.obj (policy a)).printable = true := by
    simp [policy, Json.printable, Json.printableMembers, hlimit, hburst, httl]
  rw [writePolicy, dumps, if_pos hprint]
  simp only [Except.bind, if_pos hexp]

/-- What a write that succeeds stores. -/
theorem writePolicy_ok {py : Python} {a : Args} {stored : Setex}
    (hw : writePolicy py a = .ok stored) :
    stored.key = Store.redisKey a.region a.tier ∧
      stored.value = utf8Encode ((defaultStyle py).print (.obj (policy a))) := by
  unfold writePolicy dumps at hw
  by_cases h1 : (Json.obj (policy a)).printable = true
  · rw [if_pos h1] at hw
    simp only [Except.bind] at hw
    split_ifs at hw
    obtain rfl := Except.ok.inj hw
    exact ⟨rfl, rfl⟩
  · rw [if_neg h1] at hw
    exact absurd hw (by simp [Except.bind])

/-- A store that finds the agent's policy goes back to its static policy. -/
theorem refresh_writePolicy {py : Python} {a : Args} {stored : Setex}
    (hw : writePolicy py a = .ok stored) (s : Store) (hs : s.region = a.region)
    {get : Str → Option (List Byte)} (hget : get stored.key = some stored.value) :
    (s.refresh get).get a.tier = Policy.lookup a.tier := by
  obtain ⟨hkey, hvalue⟩ := writePolicy_ok hw
  have hset : ∀ p, (s.setCache a.tier p).get a.tier = p := fun p => if_pos rfl
  rw [Store.refresh_get, hs, ← hkey, hget, hvalue, Store.refreshTier]
  cases hu : unmarshal Contract4.fields
      (utf8Encode ((defaultStyle py).print (.obj (policy a)))) Contract4.zero with
  | error e => exact hset _
  | ok c =>
    have halg := unmarshal_policy py a c hu
    cases hv : s.validate c a.tier with
    | some e =>
      simp only [hv]
      exact hset _
    | none =>
      -- the empty name is the name of no algorithm
      have hname := (Store.accepted_of_validate hv).2.2
      rw [show (Store.ofContract4 c).algorithm = [] from halg] at hname
      exact absurd hname (by decide)

/-- A written identifier has a digit where a static one has a letter. -/
theorem policyID_ne_static (a : Args) (t : Tier) : (Policy.lookup t).policyID ≠ a.policyID := by
  intro h
  obtain ⟨c, s, hcs⟩ := List.exists_cons_of_ne_nil (natText_ne_nil a.localTime.year)
  have hdigit : isDigit c = true := isDigit_of_mem_natText (hcs ▸ List.mem_cons_self)
  have h4 : (Policy.lookup t).policyID[4]? = some 115 := by cases t <;> rfl
  rw [h, Args.policyID, Stamp.compact, hcs] at h4
  have hc : c = 115 := Option.some.inj h4
  rw [hc] at hdigit
  exact absurd hdigit (by decide)

/-- The store adopts a policy : the write stores it, and when `GET` finds it a refresh
takes its limit, its burst and its identifier. -/
def Adopted (py : Python) (a : Args) (s : Store) (get : Str → Option (List Byte)) : Prop :=
  ∃ stored, writePolicy py a = .ok stored ∧ s.region = a.region ∧
    get stored.key = some stored.value ∧
    ((s.refresh get).get a.tier).limit = a.limitPerMinute ∧
    ((s.refresh get).get a.tier).burst = a.burst ∧
    ((s.refresh get).get a.tier).policyID = a.policyID

/-- **Agent to gateway.** No policy that the agent writes is adopted by a store. -/
theorem not_adopted (py : Python) (a : Args) (s : Store) (get : Str → Option (List Byte)) :
    ¬ Adopted py a s get := by
  rintro ⟨stored, hw, hs, hget, -, -, hid⟩
  rw [refresh_writePolicy hw s hs hget] at hid
  exact policyID_ne_static a a.tier hid

/-- An agent's policy of 20 requests a minute for the free tier in `us`. -/
def sample : Args where
  region := .us
  tier := .free
  limitPerMinute := 20
  burst := 5
  reason := str "predicted_spike"
  ttlSeconds := 300
  localTime := ⟨2026, 4, 25, 10, 0, 0⟩
  gmTime := ⟨2026, 4, 25, 10, 0, 0⟩
  hex6 := str "0a1b2c"
  redisMs := ⟨1777111200000, by norm_num⟩

/-- The write succeeds, and a store that finds it under its key answers with the static
limit of 10. -/
theorem sample_not_adopted :
    let value := utf8Encode ((defaultStyle samplePython).print (.obj (policy sample)))
    let get := fun key => if key = str "policy:us:free" then some value else none
    writePolicy samplePython sample = .ok ⟨str "policy:us:free", 300, value⟩ ∧
      ((Store.new .us).refresh get).get .free = Policy.lookup .free ∧
      (Policy.lookup .free).limit ≠ sample.limitPerMinute ∧
      (Policy.lookup .free).policyID ≠ sample.policyID := by
  intro value get
  have hw : writePolicy samplePython sample = .ok ⟨str "policy:us:free", 300, value⟩ := by
    rw [writePolicy, dumps, if_pos (by rfl)]
    rfl
  have hget : get (str "policy:us:free") = some value := if_pos rfl
  have hstatic := refresh_writePolicy hw (Store.new .us) rfl hget
  exact ⟨hw, hstatic, by decide, policyID_ne_static sample .free⟩

end PolicyWriter

end Gdrl
