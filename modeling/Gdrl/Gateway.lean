import Gdrl.Limiter
import Gdrl.Counter
import Gdrl.Run

/-!
# The gateways

`Cluster` is the three gateways with their Redises, and the `/check` requests they work
on. The handler of a request goes through the stages of `Stage`, one Redis command after
the other, and the handlers of all requests interleave : an event of `Cluster.step` moves
one of them by one command. What sync writes between two commands is the event `merge`.

The handler counts every request that its limiter has decided, whether it was allowed or
not, in its own region's slot, and then reads the slots of all regions. It denies what
the limiter allowed if they sum up to more than the policy's global limit.
-/

namespace Gdrl

/-! ## Go integers -/

/-- What a 64-bit integer holds. -/
def fits64 (n : ℤ) : Bool := -2 ^ 63 ≤ n && n < 2 ^ 63

/-- 64-bit arithmetic. -/
def wrap64 (n : ℤ) : ℤ := n.bmod (2 ^ 64)

theorem wrap64_of_fits {n : ℤ} (h : fits64 n = true) : wrap64 n = n := by
  simp only [fits64, Bool.and_eq_true, decide_eq_true_eq] at h
  rw [wrap64, Int.bmod_def]
  split_ifs <;> omega

theorem wrap64_le {n : ℤ} (h : 0 ≤ n) : wrap64 n ≤ n := by
  rw [wrap64, Int.bmod_def]
  split_ifs <;> omega

namespace Hash

/-- A slot as `strconv.Atoi` reads it. What it refuses does not enter the sum. -/
def goSlot (h : Hash) (r : Region) : ℤ := if fits64 (h.slot r) then h.slot r else 0

/-- The sum over the values of `HGETALL`. -/
def goSum (h : Hash) : ℤ := wrap64 (h.goSlot .us + h.goSlot .eu + h.goSlot .asia)

/-- The slots added up. -/
def total (h : Hash) : ℤ := h.slot .us + h.slot .eu + h.slot .asia

/-- Slots that Go reads, and adds up without overflow. -/
def Readable (h : Hash) : Prop := (∀ r, fits64 (h.slot r) = true) ∧ fits64 h.total = true

instance (h : Hash) : Decidable h.Readable := inferInstanceAs (Decidable (_ ∧ _))

theorem goSum_eq_total {h : Hash} (hr : h.Readable) : h.goSum = h.total := by
  simp only [goSum, goSlot, hr.1, if_true]
  exact wrap64_of_fits hr.2

/-- Slots that no step ever makes negative. -/
def Nonneg (h : Hash) : Prop := ∀ r, 0 ≤ h.slot r

theorem total_nonneg {h : Hash} (hn : h.Nonneg) : 0 ≤ h.total := by
  unfold total
  linarith [hn .us, hn .eu, hn .asia]

theorem goSum_le_total {h : Hash} (hn : h.Nonneg) : h.goSum ≤ h.total := by
  have hslot : ∀ r, 0 ≤ h.goSlot r ∧ h.goSlot r ≤ h.slot r := by
    intro r
    unfold goSlot
    split_ifs
    · exact ⟨hn r, le_rfl⟩
    · exact ⟨le_rfl, hn r⟩
  refine (wrap64_le ?_).trans ?_
  · linarith [(hslot .us).1, (hslot .eu).1, (hslot .asia).1]
  · unfold total
    linarith [(hslot .us).2, (hslot .eu).2, (hslot .asia).2]

/-- `HINCRBY key r 1`, an error where the slot is no 64-bit integer or overflows. -/
def incr (h : Hash) (r : Region) : Option (ℤ × Hash) :=
  let n := h.slot r + 1
  if fits64 (h.slot r) && fits64 n then
    some (n, { h with slots := fun q => if q = r then some n else h.slots q })
  else none

theorem incr_eq_some {h h' : Hash} {r : Region} {n : ℤ} (hi : h.incr r = some (n, h')) :
    n = h.slot r + 1 ∧ n < 2 ^ 63 ∧ h'.slots r = some n ∧ ∀ q, q ≠ r → h'.slots q = h.slots q := by
  unfold incr at hi
  dsimp only at hi
  split_ifs at hi with hfit
  obtain ⟨rfl, rfl⟩ := Prod.mk.inj (Option.some.inj hi)
  simp only [fits64, Bool.and_eq_true, decide_eq_true_eq] at hfit
  exact ⟨rfl, hfit.2.2, if_pos rfl, fun q hq => if_neg hq⟩

theorem slot_of_incr {h h' : Hash} {r : Region} {n : ℤ} (hi : h.incr r = some (n, h'))
    (q : Region) : h'.slot q = h.slot q + if q = r then 1 else 0 := by
  obtain ⟨rfl, -, hself, hother⟩ := incr_eq_some hi
  by_cases hq : q = r
  · subst hq
    rw [if_pos rfl, slot, hself, Option.getD_some]
  · rw [if_neg hq, slot, hother q hq, slot, add_zero]

theorem total_of_incr {h h' : Hash} {r : Region} {n : ℤ} (hi : h.incr r = some (n, h')) :
    h'.total = h.total + 1 := by
  unfold total
  rw [slot_of_incr hi, slot_of_incr hi, slot_of_incr hi]
  cases r <;> simp <;> ring

/-- `HINCRBY` leaves the expiry alone. -/
theorem expireAtMs_of_incr {h h' : Hash} {r : Region} {n : ℤ} (hi : h.incr r = some (n, h')) :
    h'.expireAtMs = h.expireAtMs := by
  unfold incr at hi
  dsimp only at hi
  split_ifs at hi
  obtain ⟨-, rfl⟩ := Prod.mk.inj (Option.some.inj hi)
  rfl

end Hash

/-! ## Requests -/

/-- A `user_id` that the request's binding lets through. Go's decoder leaves no
surrogates. -/
abbrev UserId := { s : Str // s ≠ [] ∧ Scalar s }

/-- `checkResponse` -/
structure CheckResponse where
  allowed : Bool
  remaining : ℤ
  limit : ℤ
  retryAfterMs : ℤ
  policyID : Str
  deriving DecidableEq

/-- How far the handler is : it has its policy, the limiter has answered, `HINCRBY`,
`EXPIRE` and `PUBLISH` are done, or the response is out. -/
inductive Stage
  | resolved | decided | counted | kept | published
  | answered (resp : CheckResponse)
  deriving DecidableEq

/-- Before `HINCRBY`. -/
def Stage.pending : Stage → Bool
  | resolved | decided => true
  | _ => false

/-- Between `HINCRBY` and the response. -/
def Stage.underway : Stage → Bool
  | counted | kept | published => true
  | _ => false

/-- A request in its handler. `reply` is the limiter's, `none` for an error, and `slot`
what `HINCRBY` made of the region's slot, `none` where it has not taken effect. -/
structure Check where
  region : Region
  tier : Tier
  userId : UserId
  pol : Policy
  limit : ℤ
  reply : Option Reply
  windowId : ℤ
  slot : Option ℤ
  stage : Stage

namespace Check

/-- The key of the local limiter. -/
def localKey (c : Check) : Str :=
  str "rl:local:" ++ c.region.name ++ 58 :: c.tier.name ++ 58 :: c.userId.val

/-- `globalKey` -/
def key (c : Check) : Str := globalKey c.tier.name c.userId.val c.windowId

/-- The key once the clock is read. -/
def keyAt (c : Check) (unix : ℤ) : Str := { c with windowId := unix.tdiv 60 }.key

/-- The response without the global cap. -/
def localResponse (c : Check) : CheckResponse :=
  match c.reply with
  | none => ⟨false, 0, c.limit, 1000, c.pol.policyID⟩
  | some r => ⟨r.allowed, r.remaining, c.limit, r.retryAfterMs, c.pol.policyID⟩

/-- The response to a sum above the global limit : wait for the next window. -/
def cappedResponse (c : Check) (nowMs : ℤ) : CheckResponse :=
  ⟨false, 0, c.limit, max 0 (wrap64 ((c.windowId + 1) * 60 * 1000 - nowMs)), c.pol.policyID⟩

/-- The response after `HGETALL`. -/
def response (c : Check) (h : Hash) (nowMs : ℤ) : CheckResponse :=
  if c.pol.globalLimit < h.goSum then c.cappedResponse nowMs else c.localResponse

/-- `syncMessage` -/
def syncMessage (c : Check) (value tsMs : ℤ) : Json :=
  .obj [(str "tier", .str c.tier.name),
    (str "user_id", .str c.userId.val),
    (str "window_id", .int c.windowId),
    (str "region", .str c.region.name),
    (str "value", .int value),
    (str "ts_ms", .int tsMs)]

/-- The payload that the handler publishes. -/
def payload (c : Check) (value tsMs : ℤ) : List Byte :=
  utf8Encode (goStyle.print (c.syncMessage value tsMs))

/-- The slot is there exactly behind `HINCRBY`. -/
structure Sane (c : Check) : Prop where
  fresh : c.stage.pending = true → c.slot = none
  counted : c.stage.underway = true → c.slot.isSome = true

/-- The request was answered `allowed=true`. -/
def allowed (c : Check) : Bool :=
  match c.stage with
  | .answered resp => resp.allowed
  | _ => false

/-- The limiter allowed the request and the answer is `allowed=false` all the same. -/
def capped (c : Check) : Bool :=
  match c.stage, c.reply with
  | .answered resp, some reply => reply.allowed && !resp.allowed
  | _, _ => false

end Check

/-! ## The system -/

/-- The gateways : their policy stores, the Redis of each region, and all requests so
far. -/
structure Cluster where
  stores : Region → Store
  locals : Region → LocalRedis
  globals : Region → GlobalRedis
  checks : List Check

namespace Cluster

/-- What happens next. Requests go by their place in `checks`. -/
inductive Event
  /-- The policy store refreshes. -/
  | refresh (r : Region) (get : Str → Option (List Byte))
  /-- A request is bound and finds its policy and its override. -/
  | start (r : Region) (tier : Tier) (userId : UserId) (override : Option ℤ)
  /-- The limiter's script, with its clocks and the counter of its nonce. -/
  | decide (i : ℕ) (fallback : Algorithm) (nowMs : ℤ) (nonce : ℕ) (redisMs : ℤ) (out : Outcome)
  /-- `HINCRBY`, in the window of the gateway's clock. -/
  | incr (i : ℕ) (unix : ℤ) (out : Outcome)
  /-- `EXPIRE` -/
  | expire (i : ℕ) (redisMs : ℤ) (out : Outcome)
  /-- `PUBLISH`. The handler does not look at how it ends. -/
  | publish (i : ℕ) (tsMs : ℤ) (out : Outcome)
  /-- `HGETALL`, and the response. -/
  | read (i : ℕ) (nowMs : ℤ) (out : Outcome)
  /-- Sync merges a slot of a peer. -/
  | merge (q : Region) (w : SlotWrite) (redisMs : ℤ)
  /-- Redis drops a key whose time is over. -/
  | evict (q : Region) (key : Str) (redisMs : ℤ)

/-- The `rl:global` keys of one region replaced. -/
def setGlobal (s : Cluster) (q : Region) (m : GlobalRedis) : Cluster :=
  { s with globals := fun r => if r = q then m else s.globals r }

/-- One request replaced. -/
def setCheck (s : Cluster) (i : ℕ) (c : Check) : Cluster :=
  { s with checks := s.checks.set i c }

/-- Request `i`, if its handler is at a stage. -/
def checkAt (s : Cluster) (i : ℕ) (stage : Stage) : Option Check :=
  s.checks[i]?.filter fun c => c.stage = stage

/-- The limiter's script. An error skips the global cap. -/
def runLimiter (s : Cluster) (i : ℕ) (c : Check) (fallback : Algorithm) (call : Limiter.Call)
    (out : Outcome) : Cluster :=
  let (reply, m) := Limiter.check (c.pol.selectLimiter fallback) c.localKey call (s.locals c.region)
  let reply := if out = .ok then reply else none
  let c := { c with reply }
  let c := { c with stage := if reply.isSome then .decided else .answered c.localResponse }
  let s := if out.applied then
      { s with locals := fun r => if r = c.region then m else s.locals r }
    else s
  s.setCheck i c

/-- `HINCRBY`. An error, also a reply that is lost, skips the global cap. -/
def runIncr (s : Cluster) (i : ℕ) (c : Check) (unix : ℤ) (out : Outcome) : Cluster :=
  let c := { c with windowId := unix.tdiv 60 }
  match out.applied, (s.globals c.region c.key).incr c.region with
  | true, some (n, h) =>
    (s.setGlobal c.region ((s.globals c.region).set c.key h)).setCheck i
      { c with
        slot := some n
        stage := if out = .ok then .counted else .answered c.localResponse }
  | _, _ => s.setCheck i { c with stage := .answered c.localResponse }

/-- `EXPIRE key 120`, on a key that may be gone. -/
def runExpire (s : Cluster) (i : ℕ) (c : Check) (redisMs : ℤ) (out : Outcome) : Cluster :=
  let m := s.globals c.region
  let s := if out.applied && m.exists c.key then
      s.setGlobal c.region (m.set c.key { m c.key with expireAtMs := some (redisMs + 120000) })
    else s
  s.setCheck i { c with stage := .kept }

/-- `HGETALL` -/
def runRead (s : Cluster) (i : ℕ) (c : Check) (nowMs : ℤ) (out : Outcome) : Cluster :=
  let resp := if out = .ok then c.response (s.globals c.region c.key) nowMs else c.localResponse
  s.setCheck i { c with stage := .answered resp }

/-- One step of the cluster, `none` where it cannot be taken. Clocks are 64-bit. -/
def step (s : Cluster) : Event → Option Cluster
  | .refresh r get =>
    some { s with stores := fun q => if q = r then (s.stores q).refresh get else s.stores q }
  | .start r tier userId override =>
    let pol := (s.stores r).get tier
    some { s with checks := s.checks ++
      [⟨r, tier, userId, pol, pol.effectiveLimit override, none, 0, none, .resolved⟩] }
  | .decide i fallback nowMs nonce redisMs out =>
    (s.checkAt i .resolved).map fun c =>
      s.runLimiter i c fallback ⟨c.limit, c.pol.burst, nowMs, nonce, redisMs⟩ out
  | .incr i unix out =>
    if fits64 unix then (s.checkAt i .decided).map fun c => s.runIncr i c unix out else none
  | .expire i redisMs out => (s.checkAt i .counted).map fun c => s.runExpire i c redisMs out
  | .publish i tsMs _ =>
    if fits64 tsMs then (s.checkAt i .kept).map fun c => s.setCheck i { c with stage := .published }
    else none
  | .read i nowMs out => (s.checkAt i .published).map fun c => s.runRead i c nowMs out
  | .merge q w redisMs =>
    if w.peer = q then none
    else some (s.setGlobal q (applyRemoteSlot q w .ok redisMs (s.globals q)).2)
  | .evict q key redisMs =>
    if (s.globals q key).expireAtMs.any (· ≤ redisMs) then
      some (s.setGlobal q ((s.globals q).set key .empty))
    else none

/-- Gateways with static policies and nothing in their Redises. -/
def init : Cluster where
  stores := Store.new
  locals _ _ := none
  globals _ _ := .empty
  checks := []

/-! ## What a step does -/

theorem checkAt_eq_some {s : Cluster} {i : ℕ} {stage : Stage} {c : Check} :
    s.checkAt i stage = some c ↔ s.checks[i]? = some c ∧ c.stage = stage := by
  simp [checkAt, Option.filter_eq_some_iff]

/-- One hash of one region is replaced, all others stay. -/
structure Writes (s s' : Cluster) (q : Region) (key : Str) (h : Hash) : Prop where
  self : s'.globals q key = h
  other : ∀ p k, ¬ (p = q ∧ k = key) → s'.globals p k = s.globals p k

theorem writes_of_globals {s s' : Cluster} {q : Region} {key : Str} {h : Hash}
    (hs : s'.globals = (s.setGlobal q ((s.globals q).set key h)).globals) :
    Writes s s' q key h := by
  have hp : ∀ p, s'.globals p = if p = q then (s.globals q).set key h else s.globals p :=
    fun p => congrFun hs p
  refine ⟨?_, fun p k hne => ?_⟩
  · rw [hp, if_pos rfl, GlobalRedis.set_self]
  · rw [hp]
    split_ifs with hpq
    · rw [hpq]
      exact GlobalRedis.set_of_ne _ _ fun hk => hne ⟨hpq, hk⟩
    · rfl

/-- All slots of all hashes stay. -/
def SameSlots (s s' : Cluster) : Prop := ∀ q k, (s'.globals q k).slots = (s.globals q k).slots

/-- What an event does to the requests and to the slots. -/
inductive Effect (s s' : Cluster) : Event → Prop
  | refresh {r get} (hc : s'.checks = s.checks) (hg : SameSlots s s') :
    Effect s s' (.refresh r get)
  /-- A new request. -/
  | start {r tier userId override} (c : Check) (hslot : c.slot = none)
    (hwindow : c.windowId = 0) (hstage : c.stage = .resolved)
    (hc : s'.checks = s.checks ++ [c]) (hg : SameSlots s s') :
    Effect s s' (.start r tier userId override)
  /-- The limiter's reply, or an error, which is the answer. -/
  | decide {i fallback nowMs nonce redisMs out} (c : Check) (reply : Option Reply) (stage : Stage)
    (hi : s.checks[i]? = some c) (hstage : c.stage = .resolved)
    (hnext : stage = .decided ∧ reply.isSome = true ∨
      reply = none ∧ ∃ resp, stage = .answered resp ∧ resp.allowed = false)
    (hc : s'.checks = s.checks.set i { c with reply, stage }) (hg : SameSlots s s') :
    Effect s s' (.decide i fallback nowMs nonce redisMs out)
  /-- `HINCRBY` without effect. -/
  | skip {i unix out} (c : Check) (hunix : fits64 unix = true) (hi : s.checks[i]? = some c)
    (hstage : c.stage = .decided)
    (hfail : out.applied = true → (s.globals c.region (c.keyAt unix)).incr c.region = none)
    (hc : s'.checks = s.checks.set i
      { c with windowId := unix.tdiv 60, stage := .answered c.localResponse })
    (hg : SameSlots s s') :
    Effect s s' (.incr i unix out)
  /-- `HINCRBY`, with or without the reply. -/
  | incr {i unix out} (c c' : Check) (n : ℤ) (h : Hash) (stage : Stage)
    (hunix : fits64 unix = true) (hi : s.checks[i]? = some c) (hstage : c.stage = .decided)
    (hc' : c' = { c with windowId := unix.tdiv 60, slot := some n, stage })
    (hincr : (s.globals c.region (c.keyAt unix)).incr c.region = some (n, h))
    (hnext : out = .ok ∧ stage = .counted ∨ out = .lost ∧ stage = .answered c.localResponse)
    (hc : s'.checks = s.checks.set i c') (hg : Writes s s' c.region (c.keyAt unix) h) :
    Effect s s' (.incr i unix out)
  | expire {i redisMs out} (c : Check) (hi : s.checks[i]? = some c) (hstage : c.stage = .counted)
    (hc : s'.checks = s.checks.set i { c with stage := .kept }) (hg : SameSlots s s') :
    Effect s s' (.expire i redisMs out)
  | publish {i tsMs out} (c : Check) (hi : s.checks[i]? = some c) (hstage : c.stage = .kept)
    (hts : fits64 tsMs = true)
    (hc : s'.checks = s.checks.set i { c with stage := .published }) (hg : SameSlots s s') :
    Effect s s' (.publish i tsMs out)
  /-- The answer, behind a sum or behind an error. -/
  | read {i nowMs out} (c : Check) (resp : CheckResponse) (hi : s.checks[i]? = some c)
    (hstage : c.stage = .published)
    (hresp : resp = if out = .ok then c.response (s.globals c.region c.key) nowMs
      else c.localResponse)
    (hc : s'.checks = s.checks.set i { c with stage := .answered resp }) (hg : SameSlots s s') :
    Effect s s' (.read i nowMs out)
  /-- A peer's slot, kept or raised. -/
  | merge {q w redisMs} (hne : w.peer ≠ q) (hc : s'.checks = s.checks)
    (hg : SameSlots s s' ∨ Writes s s' q w.key
      (maxMerge redisMs (s.globals q w.key) w.peer w.value.toInt).2) :
    Effect s s' (.merge q w redisMs)
  | evict {q key redisMs} (hc : s'.checks = s.checks) (hg : Writes s s' q key .empty) :
    Effect s s' (.evict q key redisMs)

theorem SameSlots.refl {s s' : Cluster} (h : s'.globals = s.globals) : SameSlots s s' :=
  fun q k => by rw [h]

theorem effect_runLimiter (s : Cluster) {i : ℕ} {c : Check} (hi : s.checks[i]? = some c)
    (hstage : c.stage = .resolved) (fallback : Algorithm) (nowMs redisMs : ℤ) (nonce : ℕ)
    (out : Outcome) (call : Limiter.Call) :
    Effect s (s.runLimiter i c fallback call out) (.decide i fallback nowMs nonce redisMs out) := by
  unfold runLimiter
  obtain ⟨reply, m⟩ := Limiter.check (c.pol.selectLimiter fallback) c.localKey call
    (s.locals c.region)
  dsimp only
  generalize (if out = .ok then reply else none) = reply'
  cases reply' with
  | none =>
    refine .decide c none (.answered ⟨false, 0, c.limit, 1000, c.pol.policyID⟩) hi hstage
      (Or.inr ⟨rfl, _, rfl, rfl⟩) ?_ (.refl ?_)
    all_goals cases out <;> rfl
  | some r =>
    refine .decide c (some r) .decided hi hstage (Or.inl ⟨rfl, rfl⟩) ?_ (.refl ?_)
    all_goals cases out <;> rfl

theorem effect_runIncr (s : Cluster) {i : ℕ} {c : Check} (hi : s.checks[i]? = some c)
    (hstage : c.stage = .decided) {unix : ℤ} (hunix : fits64 unix = true) (out : Outcome) :
    Effect s (s.runIncr i c unix out) (.incr i unix out) := by
  unfold runIncr
  dsimp only
  split
  · rename_i n h happlied hincr
    refine .incr c _ n h _ hunix hi hstage rfl hincr ?_ rfl ?_
    · cases out with
      | ok => exact Or.inl ⟨rfl, rfl⟩
      | lost => exact Or.inr ⟨rfl, rfl⟩
      | failed => exact absurd happlied Bool.false_ne_true
    · exact writes_of_globals rfl
  · rename_i hno
    refine .skip c hunix hi hstage (fun happlied => ?_) rfl (.refl rfl)
    by_contra hne
    obtain ⟨⟨n, h⟩, hincr⟩ := Option.ne_none_iff_exists'.mp hne
    exact hno n h happlied hincr

theorem effect_runExpire (s : Cluster) {i : ℕ} {c : Check} (hi : s.checks[i]? = some c)
    (hstage : c.stage = .counted) (redisMs : ℤ) (out : Outcome) :
    Effect s (s.runExpire i c redisMs out) (.expire i redisMs out) := by
  unfold runExpire
  dsimp only
  split_ifs
  · refine .expire c hi hstage rfl fun q k => ?_
    have hw := @writes_of_globals s _ c.region c.key
      { s.globals c.region c.key with expireAtMs := some (redisMs + 120000) } rfl
    by_cases hqk : q = c.region ∧ k = c.key
    · obtain ⟨rfl, rfl⟩ := hqk
      have hslots := congrArg Hash.slots hw.self
      exact hslots
    · exact congrArg Hash.slots (hw.other q k hqk)
  · exact .expire c hi hstage rfl (.refl rfl)

/-- Every step is one of these effects. -/
theorem effect {s s' : Cluster} {e : Event} (h : s.step e = some s') : Effect s s' e := by
  have hat : ∀ {i stage} {f : Check → Cluster}, (s.checkAt i stage).map f = some s' →
      ∃ c, s.checks[i]? = some c ∧ c.stage = stage ∧ f c = s' := by
    intro i stage f hmap
    obtain ⟨c, hc, hf⟩ := Option.map_eq_some_iff.mp hmap
    exact ⟨c, (checkAt_eq_some.mp hc).1, (checkAt_eq_some.mp hc).2, hf⟩
  cases e with
  | refresh r get =>
    obtain rfl := Option.some.inj h
    exact .refresh rfl (.refl rfl)
  | start r tier userId override =>
    obtain rfl := Option.some.inj h
    exact .start _ rfl rfl rfl rfl (.refl rfl)
  | decide i fallback nowMs nonce redisMs out =>
    obtain ⟨c, hi, hstage, rfl⟩ := hat h
    exact s.effect_runLimiter hi hstage _ _ _ _ _ _
  | incr i unix out =>
    rw [step] at h
    split_ifs at h with hunix
    obtain ⟨c, hi, hstage, rfl⟩ := hat h
    exact s.effect_runIncr hi hstage hunix _
  | expire i redisMs out =>
    obtain ⟨c, hi, hstage, rfl⟩ := hat h
    exact s.effect_runExpire hi hstage _ _
  | publish i tsMs out =>
    rw [step] at h
    split_ifs at h with hts
    obtain ⟨c, hi, hstage, rfl⟩ := hat h
    exact .publish c hi hstage hts rfl (.refl rfl)
  | read i nowMs out =>
    obtain ⟨c, hi, hstage, rfl⟩ := hat h
    exact .read c _ hi hstage rfl rfl (.refl rfl)
  | merge q w redisMs =>
    rw [step] at h
    split_ifs at h with hne
    obtain rfl := Option.some.inj h
    refine .merge hne rfl ?_
    rw [applyRemoteSlot_redis]
    split_ifs
    · exact Or.inr (writes_of_globals rfl)
    · refine Or.inl (.refl (funext fun r => ?_))
      unfold setGlobal
      dsimp only
      split_ifs with hr
      · rw [hr]
      · rfl
  | evict q key redisMs =>
    rw [step] at h
    split_ifs at h
    obtain rfl := Option.some.inj h
    exact .evict rfl (writes_of_globals rfl)

/-- Only a refresh changes a store, and only the limiter's script its keys. -/
theorem step_frame {s s' : Cluster} {e : Event} (h : s.step e = some s') :
    ((∀ r get, e ≠ .refresh r get) → s'.stores = s.stores) ∧
      ((∀ i fallback nowMs nonce redisMs out, e ≠ .decide i fallback nowMs nonce redisMs out) →
        s'.locals = s.locals) := by
  cases e with
  | refresh r get =>
    obtain rfl := Option.some.inj h
    exact ⟨fun he => absurd rfl (he r get), fun _ => rfl⟩
  | start r tier userId override =>
    obtain rfl := Option.some.inj h
    exact ⟨fun _ => rfl, fun _ => rfl⟩
  | decide i fallback nowMs nonce redisMs out =>
    obtain ⟨c, -, rfl⟩ := Option.map_eq_some_iff.mp h
    exact ⟨fun _ => by cases out <;> rfl, fun he => absurd rfl (he _ _ _ _ _ _)⟩
  | incr i unix out =>
    rw [step] at h
    split_ifs at h
    obtain ⟨c, -, rfl⟩ := Option.map_eq_some_iff.mp h
    unfold runIncr
    dsimp only
    split <;> exact ⟨fun _ => rfl, fun _ => rfl⟩
  | expire i redisMs out =>
    obtain ⟨c, -, rfl⟩ := Option.map_eq_some_iff.mp h
    unfold runExpire
    dsimp only
    split_ifs <;> exact ⟨fun _ => rfl, fun _ => rfl⟩
  | publish i tsMs out =>
    rw [step] at h
    split_ifs at h
    obtain ⟨c, -, rfl⟩ := Option.map_eq_some_iff.mp h
    exact ⟨fun _ => rfl, fun _ => rfl⟩
  | read i nowMs out =>
    obtain ⟨c, -, rfl⟩ := Option.map_eq_some_iff.mp h
    exact ⟨fun _ => rfl, fun _ => rfl⟩
  | merge | evict =>
    rw [step] at h
    split_ifs at h
    obtain rfl := Option.some.inj h
    exact ⟨fun _ => rfl, fun _ => rfl⟩

def Event.isExpire : Event → Bool
  | .expire .. => true
  | _ => false

/-- What an event leaves at one key of one region. -/
inductive HashEffect (s : Cluster) (q : Region) (k : Str) : Event → Hash → Prop
  | same {e} (he : e.isExpire = false) : HashEffect s q k e (s.globals q k)
  | incr {i unix out} (c : Check) (n : ℤ) (h : Hash) (hi : s.checkAt i .decided = some c)
    (hq : c.region = q) (hk : c.keyAt unix = k) (hout : out.applied = true)
    (hincr : (s.globals q k).incr q = some (n, h)) : HashEffect s q k (.incr i unix out) h
  /-- `EXPIRE` of this key. -/
  | expire {i redisMs out} (c : Check) (hi : s.checkAt i .counted = some c) (hk : c.key = k) :
    HashEffect s q k (.expire i redisMs out)
      { s.globals q k with expireAtMs := some (redisMs + 120000) }
  /-- `EXPIRE` of another key, or without effect. -/
  | pass {i redisMs out} (c : Check) (hi : s.checkAt i .counted = some c)
    (hno : c.region = q → c.key = k → (out.applied && (s.globals q).exists k) = false) :
    HashEffect s q k (.expire i redisMs out) (s.globals q k)
  | merge {w redisMs} (hk : w.key = k) : HashEffect s q k (.merge q w redisMs)
      (maxMerge redisMs (s.globals q k) w.peer w.value.toInt).2
  | evict {redisMs} : HashEffect s q k (.evict q k redisMs) .empty

theorem hashEffect_of_globals {s s' : Cluster} {e : Event} (hg : s'.globals = s.globals)
    (he : e.isExpire = false) (q : Region) (k : Str) : HashEffect s q k e (s'.globals q k) := by
  rw [hg]
  exact .same he

theorem hashEffect_of_set {s s' : Cluster} {e : Event} {p : Region} {key : Str} {h : Hash}
    (hg : s'.globals = (s.setGlobal p ((s.globals p).set key h)).globals)
    (hself : HashEffect s p key e h)
    (hother : ∀ q k, ¬ (q = p ∧ k = key) → HashEffect s q k e (s.globals q k)) (q : Region)
    (k : Str) : HashEffect s q k e (s'.globals q k) := by
  have hw := writes_of_globals hg
  by_cases hqk : q = p ∧ k = key
  · obtain ⟨rfl, rfl⟩ := hqk
    rw [hw.self]
    exact hself
  · rw [hw.other q k hqk]
    exact hother q k hqk

/-- Every step, seen from one key. -/
theorem hashEffect {s s' : Cluster} {e : Event} (h : s.step e = some s') (q : Region) (k : Str) :
    HashEffect s q k e (s'.globals q k) := by
  cases e with
  | refresh r get =>
    obtain rfl := Option.some.inj h
    exact hashEffect_of_globals rfl rfl q k
  | start r tier userId override =>
    obtain rfl := Option.some.inj h
    exact hashEffect_of_globals rfl rfl q k
  | decide i fallback nowMs nonce redisMs out =>
    obtain ⟨c, hi, rfl⟩ := Option.map_eq_some_iff.mp h
    refine hashEffect_of_globals ?_ rfl q k
    unfold runLimiter
    cases out <;> rfl
  | incr i unix out =>
    rw [step] at h
    split_ifs at h with hunix
    obtain ⟨c, hi, rfl⟩ := Option.map_eq_some_iff.mp h
    unfold runIncr
    dsimp only
    split
    · rename_i n hash happlied hincr
      exact hashEffect_of_set rfl (.incr c n hash hi rfl rfl happlied hincr)
        (fun q k _ => .same rfl) q k
    · exact hashEffect_of_globals rfl rfl q k
  | expire i redisMs out =>
    obtain ⟨c, hi, rfl⟩ := Option.map_eq_some_iff.mp h
    unfold runExpire
    dsimp only
    split_ifs with hset
    · refine hashEffect_of_set rfl (.expire c hi rfl) (fun q k hne => .pass c hi ?_) q k
      exact fun hq hk => absurd ⟨hq.symm, hk.symm⟩ hne
    · refine .pass c hi ?_
      rintro rfl rfl
      exact Bool.eq_false_iff.mpr hset
  | publish i tsMs out =>
    rw [step] at h
    split_ifs at h with hts
    obtain ⟨c, hi, rfl⟩ := Option.map_eq_some_iff.mp h
    exact hashEffect_of_globals rfl rfl q k
  | read i nowMs out =>
    obtain ⟨c, hi, rfl⟩ := Option.map_eq_some_iff.mp h
    exact hashEffect_of_globals rfl rfl q k
  | merge p w redisMs =>
    rw [step] at h
    split_ifs at h with hne
    obtain rfl := Option.some.inj h
    rw [applyRemoteSlot_redis]
    split_ifs with hok
    · exact hashEffect_of_set rfl (.merge rfl) (fun q k _ => .same rfl) q k
    · refine hashEffect_of_globals (funext fun r => ?_) rfl q k
      show (if r = p then s.globals p else s.globals r) = s.globals r
      split_ifs with hr
      · rw [hr]
      · rfl
  | evict p key redisMs =>
    rw [step] at h
    split_ifs at h
    obtain rfl := Option.some.inj h
    exact hashEffect_of_set rfl .evict (fun q k _ => .same rfl) q k

/-- What an event does to one slot : nothing, the gateway's increment of its own slot, the
merge of a peer's slot by a larger value, or the loss of the key. -/
inductive SlotEffect (s : Cluster) (q : Region) (k : Str) (r : Region) :
    Event → Option ℤ → Prop
  | same {e} : SlotEffect s q k r e ((s.globals q k).slots r)
  | incr {i unix out} (c : Check) (hq : q = r) (hi : s.checks[i]? = some c)
    (hstage : c.stage = .decided) (hr : c.region = r) (hk : c.keyAt unix = k)
    (hlt : (s.globals q k).slot r + 1 < 2 ^ 63) :
    SlotEffect s q k r (.incr i unix out) (some ((s.globals q k).slot r + 1))
  | merge {w redisMs} (hq : q ≠ r) (hr : w.peer = r) (hk : w.key = k)
    (hlt : ∀ cur ∈ (s.globals q k).slots r, cur < w.value.toInt) :
    SlotEffect s q k r (.merge q w redisMs) (some w.value.toInt)
  | evict {redisMs} : SlotEffect s q k r (.evict q k redisMs) none

theorem SameSlots.slotEffect {s s' : Cluster} (h : SameSlots s s') (e : Event) (q : Region)
    (k : Str) (r : Region) : SlotEffect s q k r e ((s'.globals q k).slots r) := by
  rw [h q k]
  exact .same

theorem Effect.slotEffect {s s' : Cluster} {e : Event} (h : Effect s s' e) (q : Region) (k : Str)
    (r : Region) : SlotEffect s q k r e ((s'.globals q k).slots r) := by
  cases h with
  | refresh hc hg => exact hg.slotEffect _ q k r
  | start c hslot hwindow hstage hc hg => exact hg.slotEffect _ q k r
  | decide c reply stage hi hstage hnext hc hg => exact hg.slotEffect _ q k r
  | skip c hunix hi hstage hfail hc hg => exact hg.slotEffect _ q k r
  | expire c hi hstage hc hg => exact hg.slotEffect _ q k r
  | publish c hi hstage hts hc hg => exact hg.slotEffect _ q k r
  | read c resp hi hstage hresp hc hg => exact hg.slotEffect _ q k r
  | incr c c' n hash stage hunix hi hstage hc' hincr hnext hc hg =>
    rename_i i unix out
    obtain ⟨hn, hlt, hself, hother⟩ := Hash.incr_eq_some hincr
    by_cases hqk : q = c.region ∧ k = c.keyAt unix
    · obtain ⟨rfl, rfl⟩ := hqk
      rw [hg.self]
      by_cases hr : r = c.region
      · subst hr
        rw [hself, hn]
        exact .incr c rfl hi hstage rfl rfl (hn ▸ hlt)
      · rw [hother r hr]
        exact .same
    · rw [hg.other q k hqk]
      exact .same
  | merge hne hc hg =>
    rename_i p w redisMs
    rcases hg with hg | hg
    · exact hg.slotEffect _ q k r
    · by_cases hqk : q = p ∧ k = w.key
      · obtain ⟨rfl, rfl⟩ := hqk
        rw [hg.self]
        by_cases hr : r = w.peer
        · subst hr
          rcases maxMerge_slots_self redisMs (s.globals q w.key) w.peer w.value.toInt with h | h
          · rw [h]
            exact .same
          · rw [h.1]
            exact .merge (Ne.symm hne) rfl rfl h.2
        · rw [maxMerge_slots_of_ne _ _ _ hr]
          exact .same
      · rw [hg.other q k hqk]
        exact .same
  | evict hc hg =>
    rename_i p key redisMs
    by_cases hqk : q = p ∧ k = key
    · obtain ⟨rfl, rfl⟩ := hqk
      rw [hg.self]
      exact .evict
    · rw [hg.other q k hqk]
      exact .same

/-- What an event does to the request it is about. -/
inductive Update (s s' : Cluster) (i : ℕ) (c : Check) : Event → Check → Prop
  | decide {fallback nowMs nonce redisMs out} (reply : Option Reply) (stage : Stage)
    (hstage : c.stage = .resolved)
    (hnext : stage = .decided ∧ reply.isSome = true ∨
      reply = none ∧ ∃ resp, stage = .answered resp ∧ resp.allowed = false) :
    Update s s' i c (.decide i fallback nowMs nonce redisMs out) { c with reply, stage }
  | skip {unix out} (hunix : fits64 unix = true) (hstage : c.stage = .decided)
    (hfail : out.applied = true → (s.globals c.region (c.keyAt unix)).incr c.region = none) :
    Update s s' i c (.incr i unix out)
      { c with windowId := unix.tdiv 60, stage := .answered c.localResponse }
  | incr {unix out} (n : ℤ) (h : Hash) (stage : Stage) (hunix : fits64 unix = true)
    (hstage : c.stage = .decided)
    (hincr : (s.globals c.region (c.keyAt unix)).incr c.region = some (n, h))
    (hnext : out = .ok ∧ stage = .counted ∨ out = .lost ∧ stage = .answered c.localResponse)
    (hg : Writes s s' c.region (c.keyAt unix) h) :
    Update s s' i c (.incr i unix out) { c with windowId := unix.tdiv 60, slot := some n, stage }
  | expire {redisMs out} (hstage : c.stage = .counted) :
    Update s s' i c (.expire i redisMs out) { c with stage := .kept }
  | publish {tsMs out} (hstage : c.stage = .kept) (hts : fits64 tsMs = true) :
    Update s s' i c (.publish i tsMs out) { c with stage := .published }
  | read {nowMs out} (resp : CheckResponse) (hstage : c.stage = .published)
    (hresp : resp = if out = .ok then c.response (s.globals c.region c.key) nowMs
      else c.localResponse) :
    Update s s' i c (.read i nowMs out) { c with stage := .answered resp }

def Event.isStart : Event → Bool
  | .start .. => true
  | _ => false

/-- What a step does to the requests : nothing, a new one, or a step of one of them. -/
theorem Effect.checks_cases {s s' : Cluster} {e : Event} (h : Effect s s' e) :
    s'.checks = s.checks ∨
    (e.isStart = true ∧ ∃ d : Check, d.slot = none ∧ d.windowId = 0 ∧ d.stage = .resolved ∧
      s'.checks = s.checks ++ [d]) ∨
    ∃ i c d, s.checks[i]? = some c ∧ s'.checks = s.checks.set i d ∧ Update s s' i c e d := by
  cases h with
  | refresh hc hg => exact Or.inl hc
  | start c hslot hwindow hstage hc hg =>
    exact Or.inr (Or.inl ⟨rfl, c, hslot, hwindow, hstage, hc⟩)
  | decide c reply stage hi hstage hnext hc hg =>
    exact Or.inr (Or.inr ⟨_, c, _, hi, hc, .decide reply stage hstage hnext⟩)
  | skip c hunix hi hstage hfail hc hg =>
    exact Or.inr (Or.inr ⟨_, c, _, hi, hc, .skip hunix hstage hfail⟩)
  | incr c c' n hash stage hunix hi hstage hc' hincr hnext hc hg =>
    subst hc'
    exact Or.inr (Or.inr ⟨_, c, _, hi, hc, .incr n hash stage hunix hstage hincr hnext hg⟩)
  | expire c hi hstage hc hg => exact Or.inr (Or.inr ⟨_, c, _, hi, hc, .expire hstage⟩)
  | publish c hi hstage hts hc hg =>
    exact Or.inr (Or.inr ⟨_, c, _, hi, hc, .publish hstage hts⟩)
  | read c resp hi hstage hresp hc hg =>
    exact Or.inr (Or.inr ⟨_, c, _, hi, hc, .read resp hstage hresp⟩)
  | merge hne hc hg => exact Or.inl hc
  | evict hc hg => exact Or.inl hc

/-- Where a request behind a step comes from : it was there, it is new, or the step is one of
its own. -/
theorem Effect.mem_cases {s s' : Cluster} {e : Event} (h : Effect s s' e) {d : Check}
    (hd : d ∈ s'.checks) :
    d ∈ s.checks ∨ (d.slot = none ∧ d.windowId = 0 ∧ d.stage = .resolved) ∨
      ∃ i c, s.checks[i]? = some c ∧ Update s s' i c e d := by
  rcases h.checks_cases with hc | ⟨-, c, hslot, hwindow, hstage, hc⟩ | ⟨i, c, c', hi, hc, hu⟩
  · exact Or.inl (hc ▸ hd)
  · rw [hc] at hd
    rcases List.mem_append.mp hd with hd | hd
    · exact Or.inl hd
    · rw [List.mem_singleton.mp hd]
      exact Or.inr (Or.inl ⟨hslot, hwindow, hstage⟩)
  · rcases List.mem_or_eq_of_mem_set (hc ▸ hd) with hd | rfl
    · exact Or.inl hd
    · exact Or.inr (Or.inr ⟨i, c, hi, hu⟩)

/-- What new requests have and what every step of a request keeps, all requests have. -/
theorem Effect.forall_checks {s s' : Cluster} {e : Event} (h : Effect s s' e) {P : Check → Prop}
    (hs : ∀ c ∈ s.checks, P c)
    (hstart : ∀ c : Check, c.slot = none → c.windowId = 0 → c.stage = .resolved → P c)
    (hupdate : ∀ i c d, s.checks[i]? = some c → Update s s' i c e d → P d) :
    ∀ c ∈ s'.checks, P c := by
  intro d hd
  rcases h.mem_cases hd with hd | ⟨hslot, hwindow, hstage⟩ | ⟨i, c, hi, hu⟩
  · exact hs d hd
  · exact hstart d hslot hwindow hstage
  · exact hupdate i c d hi hu

theorem Update.sane {s s' : Cluster} {i : ℕ} {c d : Check} {e : Event} (h : Update s s' i c e d)
    (hc : c.Sane) : d.Sane := by
  cases h with
  | decide reply stage hstage hnext =>
    refine ⟨fun _ => hc.fresh (by rw [hstage]; rfl), fun h => ?_⟩
    rcases hnext with ⟨rfl, -⟩ | ⟨-, resp, rfl, -⟩ <;> exact absurd h Bool.false_ne_true
  | skip => exact ⟨fun h => absurd h Bool.false_ne_true, fun h => absurd h Bool.false_ne_true⟩
  | incr n hash stage hunix hstage hincr hnext =>
    refine ⟨fun h => ?_, fun _ => rfl⟩
    rcases hnext with ⟨-, rfl⟩ | ⟨-, rfl⟩ <;> exact absurd h Bool.false_ne_true
  | expire hstage =>
    exact ⟨fun h => absurd h Bool.false_ne_true, fun _ => hc.counted (by rw [hstage]; rfl)⟩
  | publish hstage =>
    exact ⟨fun h => absurd h Bool.false_ne_true, fun _ => hc.counted (by rw [hstage]; rfl)⟩
  | read => exact ⟨fun h => absurd h Bool.false_ne_true, fun h => absurd h Bool.false_ne_true⟩

/-- Every request stays sane. -/
theorem Effect.sane {s s' : Cluster} {e : Event} (h : Effect s s' e)
    (hs : ∀ c ∈ s.checks, c.Sane) : ∀ c ∈ s'.checks, c.Sane := by
  refine h.forall_checks hs (fun c hslot _ hstage => ⟨fun _ => hslot, fun h => ?_⟩)
    fun i c d hi hu => hu.sane (hs c (List.mem_of_getElem? hi))
  rw [hstage] at h
  exact absurd h Bool.false_ne_true

/-- Only the loss of its key takes a slot back. -/
theorem SlotEffect.le {s : Cluster} {q : Region} {k : Str} {r : Region} {e : Event} {o : Option ℤ}
    (h : SlotEffect s q k r e o) (he : ∀ ms, e ≠ .evict q k ms) :
    (s.globals q k).slot r ≤ o.getD 0 := by
  cases h with
  | same => exact le_rfl
  | incr c hq hi hstage hr hk hlt => exact (lt_add_one _).le
  | merge hq hr hk hlt =>
    rename_i w redisMs
    unfold Hash.slot
    cases hs : (s.globals q k).slots r with
    | none => exact w.value.nonneg
    | some cur => exact (hlt cur hs).le
  | evict => exact absurd rfl (he _)

theorem SlotEffect.nonneg {s : Cluster} {q : Region} {k : Str} {r : Region} {e : Event}
    {o : Option ℤ} (h : SlotEffect s q k r e o) (hn : 0 ≤ (s.globals q k).slot r) :
    0 ≤ o.getD 0 := by
  cases h with
  | same => exact hn
  | incr c hq hi hstage hr hk hlt => exact hn.trans (lt_add_one _).le
  | merge hq hr hk hlt =>
    rename_i w redisMs
    exact w.value.nonneg
  | evict => exact le_rfl

/-- `HINCRBY` adds one to one slot. -/
theorem Writes.slot_incr {s s' : Cluster} {q : Region} {key : Str} {n : ℤ} {h : Hash}
    (hw : Writes s s' q key h) (hincr : (s.globals q key).incr q = some (n, h)) (p : Region)
    (k : Str) (r : Region) :
    (s'.globals p k).slot r =
      (s.globals p k).slot r + if p = q ∧ k = key ∧ r = q then 1 else 0 := by
  by_cases hpk : p = q ∧ k = key
  · obtain ⟨rfl, rfl⟩ := hpk
    rw [hw.self, Hash.slot_of_incr hincr]
    simp only [true_and]
  · rw [hw.other p k hpk, if_neg fun h => hpk ⟨h.1, h.2.1⟩, add_zero]

/-! ## Samples -/

/-- The handling of one request from start to end, with all clocks at `t` seconds. -/
def handling (i : ℕ) (r : Region) (tier : Tier) (userId : UserId) (t : ℤ) : List Event :=
  [.start r tier userId none, .decide i .tokenBucket (1000 * t) 1 (1000 * t) .ok, .incr i t .ok,
    .expire i (1000 * t) .ok, .publish i (1000 * t) .ok, .read i (1000 * t) .ok]

def sampleUser : UserId := ⟨str "u_1", by decide, by decide⟩

end Cluster

end Gdrl
