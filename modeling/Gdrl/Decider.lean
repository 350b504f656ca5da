import Gdrl.PolicyWriter
import Mathlib.Algebra.Order.Ring.Rat
import Mathlib.Logic.Function.Basic

/-!
# The decider

`Decider.decide` goes over the regions. For each it compares the forecast of the free tier
with the region's capacity and throttles the tier or lets it recover, and then gives an
override to every user who takes too much of a tier. What it decides goes through
`PolicyWriter` to the Redis of the region, or of all regions, and into the decision log.

The decider remembers what it has written last to a region and does not read it back.
Writes to Redis succeed here.
-/

namespace Gdrl

/-! ## Strings that expire -/

/-- The strings of a Redis, each with the time at which it is dropped. -/
abbrev Strings := Str → Option (List Byte × ℚ)

namespace Strings

/-- `SETEX` at time `now`. -/
def setex (m : Strings) (now : ℚ) (w : PolicyWriter.Setex) : Strings :=
  fun k => if k = w.key then some (w.value, now + w.ttlSeconds) else m k

/-- `GET` at time `now`. -/
def get (m : Strings) (now : ℚ) (k : Str) : Option (List Byte) :=
  ((m k).filter fun e => now < e.2).map Prod.fst

theorem setex_of_ne (m : Strings) (now : ℚ) {w : PolicyWriter.Setex} {k : Str} (h : k ≠ w.key) :
    m.setex now w k = m k := if_neg h

theorem get_eq {m : Strings} {k : Str} {v : List Byte} {t : ℚ} (h : m k = some (v, t)) (now : ℚ) :
    m.get now k = if now < t then some v else none := by
  rw [get, h, Option.filter_some]
  by_cases hlt : now < t
  · simp [hlt]
  · rw [if_neg hlt, if_neg (by simpa using hlt)]
    rfl

end Strings

/-! ## The state -/

/-- A `Prediction` as the decider reads it. `rps` is `none` for a NaN, for which no
comparison holds, and `text` is how it prints with one decimal. -/
structure Prediction where
  rps : Option ℚ
  text : Str
  anomaly : Bool

namespace Prediction

/-- Above 80 % of the capacity of 60, or above 60 % for an anomalous series. -/
def spike (p : Prediction) : Bool := p.rps.any ((if p.anomaly then 36 else 48) < ·)

/-- What a throttle gives as its reason. -/
def tag (p : Prediction) : Str :=
  if p.anomaly then str "anomaly_spike" else str "predicted_spike"

/-- Below half the capacity. -/
def calm (p : Prediction) : Bool := p.rps.any (· < 30)

end Prediction

/-- `_TierState` -/
structure TierState where
  limitPerMinute : ℤ
  writtenAt : ℚ
  throttled : Bool

/-- What goes into the decision log. -/
inductive Decision
  | policy (region : Region) (limitPerMinute burst : ℤ) (reason : Str)
  | override (region : Region) (tier : Tier) (userId : Str) (share : ℚ)
  deriving DecidableEq

/-- The agent's writer stamps what it writes. Redis has its own clock. -/
structure Stamps where
  localTime : PolicyWriter.Stamp
  gmTime : PolicyWriter.Stamp
  hex6 : Str
  redisMs : PolicyWriter.RedisMs

/-- What Python and the clock give the writer : the encoder's floats, a share as a
percentage, and the stamps of the `n`-th decision. -/
structure Writer where
  py : Python
  percent : ℚ → Str
  stamps : ℕ → Stamps

def sampleWriter : Writer where
  py := samplePython
  percent _ := str "40%"
  stamps _ := ⟨⟨2026, 4, 25, 10, 0, 0⟩, ⟨2026, 4, 25, 10, 0, 0⟩, str "0a1b2c",
    PolicyWriter.sample.redisMs⟩

/-- `Decider` with its writer's Redises and log. `state` is about the free tier, the only
one that the rules look at, and `overrides` holds zero for a user without one. -/
structure Agent where
  state : Region → TierState
  overrides : Str → ℚ
  redis : Region → Strings
  log : List Decision

namespace Agent

/-- `DEFAULT_LIMITS["free"]` -/
def defaultLimit : ℤ := 100

/-- `DEFAULT_BURST["free"]` -/
def defaultBurst : ℤ := 20

/-- `HYSTERESIS_SECONDS` -/
def hysteresisSeconds : ℚ := 60

/-- `NOISY_NEIGHBOR_SHARE` -/
def noisyNeighborShare : ℚ := 3 / 10

/-- A decider at `now`, before its first decision. -/
def new (now : ℚ) : Agent :=
  ⟨fun _ => ⟨defaultLimit, now, false⟩, fun _ => 0, fun _ _ => none, []⟩

/-- The arguments of a policy for the free tier, with the default time to live. -/
def policyArgs (W : Writer) (a : Agent) (region : Region) (limitPerMinute burst : ℤ)
    (reason : Str) : PolicyWriter.Args :=
  let stamps := W.stamps a.log.length
  ⟨region, .free, limitPerMinute, burst, reason, 300, stamps.localTime, stamps.gmTime, stamps.hex6,
    stamps.redisMs⟩

/-- `PolicyWriter.write_policy` -/
def writePolicy (W : Writer) (a : Agent) (now : ℚ) (region : Region) (limitPerMinute burst : ℤ)
    (reason : Str) : Agent :=
  match PolicyWriter.writePolicy W.py (a.policyArgs W region limitPerMinute burst reason) with
  | .ok w =>
    { a with
      redis := Function.update a.redis region ((a.redis region).setex now w)
      log := a.log ++ [.policy region limitPerMinute burst reason] }
  | .error _ => a

/-- The arguments of an override, with the default time to live. -/
def overrideArgs (W : Writer) (a : Agent) (region : Region) (tier : Tier) (userId : Str)
    (share : ℚ) : PolicyWriter.OverrideArgs :=
  let stamps := W.stamps a.log.length
  let reason := str "noisy_neighbor_" ++ userId ++ 95 :: tier.name ++ 95 :: region.name ++
    95 :: W.percent share ++ str "_of_tier"
  ⟨userId, 5, reason, 120, stamps.localTime, stamps.gmTime, stamps.hex6, stamps.redisMs⟩

/-- `PolicyWriter.write_override`, to all regions. -/
def writeOverride (W : Writer) (a : Agent) (now : ℚ) (region : Region) (tier : Tier)
    (userId : Str) (share : ℚ) : Agent :=
  match PolicyWriter.writeOverride W.py (a.overrideArgs W region tier userId share) with
  | .ok w =>
    { a with
      redis := fun r => (a.redis r).setex now w
      log := a.log ++ [.override region tier userId share] }
  | .error _ => a

/-! ## The rules -/

/-- The state of a region's free tier behind a write. -/
def setState (a : Agent) (region : Region) (st : TierState) : Agent :=
  { a with state := Function.update a.state region st }

/-- `max(10, int(limit * 0.70))`, where `0.70` is a binary64. -/
def cut (limit : ℤ) : ℤ :=
  max 10 (((Float64.ofRatio (limit < 0) (limit.natAbs * 3152519739159347)
    (2 ^ 52)).toInt).toOption.getD 0)

/-- The `reason` of a policy. -/
def policyReason (tag : Str) (region : Region) (p : Prediction) : Str :=
  tag ++ 95 :: region.name ++ str "_free_" ++ p.text ++ str "_rps"

/-- `Decider._check_capacity` -/
def checkCapacity (W : Writer) (region : Region) (pred : Option Prediction) (now : ℚ)
    (a : Agent) : Agent :=
  match pred with
  | none => a
  | some p =>
    let st := a.state region
    if p.spike && !st.throttled && hysteresisSeconds < now - st.writtenAt then
      let limit := cut st.limitPerMinute
      (a.writePolicy W now region limit (max 5 (limit / 5)) (policyReason p.tag region p)).setState
        region ⟨limit, now, true⟩
    else if st.throttled && p.calm && hysteresisSeconds < now - st.writtenAt then
      (a.writePolicy W now region defaultLimit defaultBurst
        (policyReason (str "recovery") region p)).setState region ⟨defaultLimit, now, false⟩
    else a

/-- One tier of `Decider._check_noisy_neighbor` : the user with the largest share. -/
def checkTopUser (W : Writer) (region : Region) (now : ℚ) (a : Agent)
    (top : Tier × Str × ℚ) : Agent :=
  if noisyNeighborShare < top.2.2 && hysteresisSeconds < now - a.overrides top.2.1 then
    let a := a.writeOverride W now region top.1 top.2.1 top.2.2
    { a with overrides := Function.update a.overrides top.2.1 now }
  else a

/-- `Decider._check_noisy_neighbor` -/
def checkNoisyNeighbor (W : Writer) (region : Region) (topUsers : List (Tier × Str × ℚ)) (now : ℚ)
    (a : Agent) : Agent :=
  topUsers.foldl (checkTopUser W region now) a

/-- `Decider.decide` -/
def decide (W : Writer) (preds : Region → Option Prediction)
    (topUsers : Region → List (Tier × Str × ℚ)) (now : ℚ) (a : Agent) : Agent :=
  Region.all.foldl (fun a r => (a.checkCapacity W r (preds r) now).checkNoisyNeighbor W r
    (topUsers r) now) a

theorem cut_default : cut defaultLimit = 70 := by decide +kernel

/-! ## What a decision does to a region -/

/-- What the decider remembers of a region, and what the region's Redis has at the key of
the free tier's policy. -/
def view (a : Agent) (r : Region) : TierState × Option (List Byte × ℚ) :=
  (a.state r, a.redis r (Store.redisKey r .free))

/-- A stored policy that the gateway decodes to this limit and this burst. -/
def Carries (raw : List Byte) (limit burst : ℤ) : Prop :=
  ∃ c, unmarshal Contract4.fields raw Contract4.zero = .ok c ∧ c.limitPerMinute = limit ∧
    c.burst = burst

/-- What the capacity rules make of a region : nothing, a throttle or a recovery. -/
inductive CapacityEffect (pred : Option Prediction) (now : ℚ)
    (v : TierState × Option (List Byte × ℚ)) : TierState × Option (List Byte × ℚ) → Prop
  | keep : CapacityEffect pred now v v
  | throttle {p : Prediction} {raw : List Byte} (hp : pred = some p) (hspike : p.spike = true)
    (hthr : v.1.throttled = false) (hage : 60 < now - v.1.writtenAt)
    (hraw : Carries raw (cut v.1.limitPerMinute) (max 5 (cut v.1.limitPerMinute / 5))) :
    CapacityEffect pred now v (⟨cut v.1.limitPerMinute, now, true⟩, some (raw, now + 300))
  | recover {p : Prediction} {raw : List Byte} (hp : pred = some p) (hcalm : p.calm = true)
    (hthr : v.1.throttled = true) (hage : 60 < now - v.1.writtenAt)
    (hraw : Carries raw 100 20) :
    CapacityEffect pred now v (⟨100, now, false⟩, some (raw, now + 300))

/-- What a policy writes leaves in its region, for numbers that print and fit. -/
theorem view_writePolicy (W : Writer) (a : Agent) (now : ℚ) (r : Region) {limit burst : ℤ}
    (hlimit : -2 ^ 63 ≤ limit ∧ limit < 2 ^ 63) (hburst : -2 ^ 63 ≤ burst ∧ burst < 2 ^ 63)
    (reason : Str) :
    ∃ raw, Carries raw limit burst ∧ (a.writePolicy W now r limit burst reason).view r =
      (a.state r, some (raw, now + 300)) := by
  have hprint : ∀ {n : ℤ}, -2 ^ 63 ≤ n ∧ n < 2 ^ 63 → Printable n :=
    fun hn => printable_of_lt (by omega)
  have httl : -2 ^ 63 ≤ (300 : ℤ) ∧ (300 : ℤ) < 2 ^ 63 := by norm_num
  have hw : PolicyWriter.writePolicy W.py (a.policyArgs W r limit burst reason) =
      .ok ⟨Store.redisKey r .free, 300, _⟩ :=
    PolicyWriter.writePolicy_eq (hprint hlimit) (hprint hburst) (hprint httl)
      (PolicyWriter.expires_of_le _ (by decide : (0 : ℤ) < 300) (by decide : (300 : ℤ) ≤ 2 ^ 50))
      W.py
  refine ⟨_, PolicyWriter.unmarshal_policy_ok W.py (a.policyArgs W r limit burst reason) hlimit
    hburst httl, ?_⟩
  rw [writePolicy, hw]
  dsimp only [view]
  rw [Function.update_self, Strings.setex, if_pos rfl]
  norm_num

/-- Where a policy is written to another region, a region stays as it is. -/
theorem view_writePolicy_of_ne (W : Writer) (a : Agent) (now : ℚ) {r q : Region} (hq : r ≠ q)
    (limit burst : ℤ) (reason : Str) :
    (a.writePolicy W now q limit burst reason).view r = a.view r := by
  unfold writePolicy
  split
  · dsimp only [view]
    rw [Function.update_of_ne hq]
  · rfl

/-- An override is written to a key of its own. -/
theorem view_writeOverride (W : Writer) (a : Agent) (now : ℚ) (region : Region) (tier : Tier)
    (userId : Str) (share : ℚ) (r : Region) :
    (a.writeOverride W now region tier userId share).view r = a.view r := by
  unfold writeOverride
  split
  · rename_i w hw
    have hkey : w.key = PolicyWriter.overrideKey userId := by
      rw [PolicyWriter.writeOverride_ok hw]
      rfl
    dsimp only [view]
    rw [Strings.setex_of_ne]
    rw [hkey]
    exact (PolicyWriter.overrideKey_ne userId r .free).symm
  · rfl

theorem view_setState (a : Agent) (r : Region) (st : TierState) :
    (a.setState r st).view r = (st, (a.view r).2) := by
  dsimp only [view, setState]
  rw [Function.update_self]

theorem view_setState_of_ne (a : Agent) {r q : Region} (hq : r ≠ q) (st : TierState) :
    (a.setState q st).view r = a.view r := by
  dsimp only [view, setState]
  rw [Function.update_of_ne hq]

theorem view_checkCapacity_of_ne (W : Writer) {r q : Region} (hq : r ≠ q)
    (pred : Option Prediction) (now : ℚ) (a : Agent) :
    (a.checkCapacity W q pred now).view r = a.view r := by
  unfold checkCapacity
  split
  · rfl
  · dsimp only
    split_ifs
    · rw [view_setState_of_ne _ hq, view_writePolicy_of_ne _ _ _ hq]
    · rw [view_setState_of_ne _ hq, view_writePolicy_of_ne _ _ _ hq]
    · rfl

theorem view_checkTopUser (W : Writer) (region : Region) (now : ℚ) (a : Agent)
    (top : Tier × Str × ℚ) (r : Region) : (a.checkTopUser W region now top).view r = a.view r := by
  unfold checkTopUser
  split_ifs
  · exact view_writeOverride W a now region top.1 top.2.1 top.2.2 r
  · rfl

theorem view_checkNoisyNeighbor (W : Writer) (region : Region)
    (topUsers : List (Tier × Str × ℚ)) (now : ℚ) (a : Agent) (r : Region) :
    (a.checkNoisyNeighbor W region topUsers now).view r = a.view r := by
  induction topUsers generalizing a with
  | nil => rfl
  | cons top topUsers ih =>
    exact (ih (a.checkTopUser W region now top)).trans (view_checkTopUser W region now a top r)

/-- A throttled limit is one that prints and fits. -/
theorem cut_fits {limit : ℤ} (h : limit = 70 ∨ limit = 100) :
    -2 ^ 63 ≤ cut limit ∧ cut limit < 2 ^ 63 := by
  rcases h with rfl | rfl <;> decide +kernel

/-- The capacity rules in their own region. -/
theorem checkCapacity_effect (W : Writer) (r : Region) (pred : Option Prediction) (now : ℚ)
    (a : Agent) (hlimit : (a.state r).limitPerMinute = 70 ∨ (a.state r).limitPerMinute = 100) :
    CapacityEffect pred now (a.view r) ((a.checkCapacity W r pred now).view r) := by
  unfold checkCapacity
  split
  · exact .keep
  · rename_i p
    dsimp only
    split_ifs with hspike hcalm
    · simp only [Bool.and_eq_true, Bool.not_eq_true', decide_eq_true_eq] at hspike
      have hfit := cut_fits hlimit
      have hburst : -2 ^ 63 ≤ max 5 (cut (a.state r).limitPerMinute / 5) ∧
          max 5 (cut (a.state r).limitPerMinute / 5) < 2 ^ 63 := by omega
      obtain ⟨raw, hraw, hview⟩ := view_writePolicy W a now r hfit hburst (policyReason p.tag r p)
      rw [view_setState, hview]
      exact .throttle rfl hspike.1.1 hspike.1.2 hspike.2 hraw
    · simp only [Bool.and_eq_true, decide_eq_true_eq] at hcalm
      have hfit : -2 ^ 63 ≤ defaultLimit ∧ defaultLimit < 2 ^ 63 := by decide
      have hburst : -2 ^ 63 ≤ defaultBurst ∧ defaultBurst < 2 ^ 63 := by decide
      obtain ⟨raw, hraw, hview⟩ := view_writePolicy W a now r hfit hburst
        (policyReason (str "recovery") r p)
      rw [view_setState, hview]
      exact .recover rfl hcalm.1.2 hcalm.1.1 hcalm.2 hraw
    · exact .keep

/-- The part of a decision that is about a region, behind the parts about others. -/
theorem view_decide (W : Writer) (preds : Region → Option Prediction)
    (topUsers : Region → List (Tier × Str × ℚ)) (now : ℚ) (a : Agent) (r : Region) :
    ∃ b : Agent, b.view r = a.view r ∧
      (a.decide W preds topUsers now).view r = (b.checkCapacity W r (preds r) now).view r := by
  obtain ⟨f, hf⟩ : ∃ f : Agent → Region → Agent, f = fun a q =>
    (a.checkCapacity W q (preds q) now).checkNoisyNeighbor W q (topUsers q) now := ⟨_, rfl⟩
  have hne : ∀ (a : Agent) {q : Region}, r ≠ q → (f a q).view r = a.view r := by
    intro a q hq
    rw [hf]
    exact (view_checkNoisyNeighbor ..).trans (view_checkCapacity_of_ne W hq (preds q) now a)
  have hself : ∀ b : Agent, (f b r).view r = (b.checkCapacity W r (preds r) now).view r := by
    intro b
    rw [hf]
    exact view_checkNoisyNeighbor ..
  have hdecide : a.decide W preds topUsers now = f (f (f a .us) .eu) .asia := by
    rw [hf]
    rfl
  rw [hdecide]
  cases r with
  | us =>
    rw [hne _ (by decide), hne _ (by decide)]
    exact ⟨a, rfl, hself a⟩
  | eu =>
    rw [hne _ (by decide)]
    exact ⟨_, hne a (by decide), hself _⟩
  | asia => exact ⟨_, (hne _ (by decide)).trans (hne a (by decide)), hself _⟩

/-- A decision does to each region what the capacity rules do there. -/
theorem decide_effect (W : Writer) (preds : Region → Option Prediction)
    (topUsers : Region → List (Tier × Str × ℚ)) (now : ℚ) (a : Agent) (r : Region)
    (hlimit : (a.state r).limitPerMinute = 70 ∨ (a.state r).limitPerMinute = 100) :
    CapacityEffect (preds r) now (a.view r) ((a.decide W preds topUsers now).view r) := by
  obtain ⟨b, hb, hview⟩ := view_decide W preds topUsers now a r
  have hstate : b.state r = a.state r := congrArg Prod.fst hb
  rw [hview, ← hb]
  exact checkCapacity_effect W r (preds r) now b (hstate ▸ hlimit)

/-- A minute behind its throttle, a region whose forecast is low gets its limit back. -/
theorem decide_recovers {W : Writer} {preds : Region → Option Prediction} {now : ℚ} {a : Agent}
    {r : Region} {p : Prediction} (hp : preds r = some p) (hspike : p.spike = false)
    (hcalm : p.calm = true) (hthr : (a.state r).throttled = true)
    (hage : 60 < now - (a.state r).writtenAt) (topUsers : Region → List (Tier × Str × ℚ)) :
    (a.decide W preds topUsers now).state r = ⟨100, now, false⟩ := by
  obtain ⟨b, hb, hview⟩ := view_decide W preds topUsers now a r
  have hstate : b.state r = a.state r := congrArg Prod.fst hb
  have hrecover : b.checkCapacity W r (some p) now =
      (b.writePolicy W now r defaultLimit defaultBurst
        (policyReason (str "recovery") r p)).setState r ⟨defaultLimit, now, false⟩ := by
    simp [checkCapacity, hspike, hcalm, hstate, hthr, hage, hysteresisSeconds]
  rw [hp, hrecover, view_setState] at hview
  exact congrArg Prod.fst hview

end Agent

end Gdrl
