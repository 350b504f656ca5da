import Gdrl.GoJson
import Gdrl.Dict

/-!
# Policies

The regions and tiers of the system, the static policies, and the gateway's policy store.
`Store.refresh` reads one Redis key per tier, decodes it (`unmarshal`), checks it
(`Store.validate`) and adopts it; whatever goes wrong on the way, the tier falls back to
its static policy.
-/

namespace Gdrl

/-! ## Regions and tiers -/

inductive Region
  | us | eu | asia
  deriving DecidableEq, Repr

namespace Region

def all : List Region := [us, eu, asia]

theorem mem_all (r : Region) : r ∈ all := by cases r <;> decide

instance {P : Region → Prop} [DecidablePred P] : Decidable (∀ r, P r) :=
  decidable_of_iff (∀ r ∈ all, P r) ⟨fun h r => h r r.mem_all, fun h r _ => h r⟩

def name : Region → Str
  | us => str "us"
  | eu => str "eu"
  | asia => str "asia"

/-- The region a name stands for. -/
def ofName (s : Str) : Option Region := all.find? fun r => r.name = s

@[simp] theorem ofName_name (r : Region) : ofName r.name = some r := by cases r <;> rfl

theorem name_of_ofName {s : Str} {r : Region} (h : ofName s = some r) : r.name = s := by
  simpa using List.find?_some h

theorem scalar_name (r : Region) : Scalar r.name := by cases r <;> decide

end Region

inductive Tier
  | free | premium | internal
  deriving DecidableEq, Repr

namespace Tier

/-- The tiers in the order of `NewStore`. -/
def all : List Tier := [free, premium, internal]

theorem mem_all (t : Tier) : t ∈ all := by cases t <;> decide

def name : Tier → Str
  | free => str "free"
  | premium => str "premium"
  | internal => str "internal"

theorem name_injective {s t : Tier} (h : s.name = t.name) : s = t := by
  revert h
  cases s <;> cases t <;> decide

theorem scalar_name (t : Tier) : Scalar t.name := by cases t <;> decide

theorem colon_notMem_name (t : Tier) : 58 ∉ t.name := by cases t <;> decide

end Tier

/-! ## Policies -/

/-- The two limiters of the gateway. -/
inductive Algorithm
  | tokenBucket | slidingWindow
  deriving DecidableEq, Repr

def Algorithm.name : Algorithm → Str
  | tokenBucket => str "token_bucket"
  | slidingWindow => str "sliding_window"

/-- `policy.Policy`. The algorithm is a name, which selects a limiter. -/
structure Policy where
  limit : ℤ
  globalLimit : ℤ
  burst : ℤ
  algorithm : Str
  policyID : Str
  deriving DecidableEq

namespace Policy

/-- `policy.Lookup` of a known tier. -/
def lookup : Tier → Policy
  | .free => ⟨10, 10, 5, str "token_bucket", str "pol_static_free"⟩
  | .premium => ⟨100, 100, 20, str "token_bucket", str "pol_static_premium"⟩
  | .internal => ⟨1000, 1000, 100, str "token_bucket", str "pol_static_internal"⟩

end Policy

/-- `contract4`, the policy as it is stored in Redis. -/
structure Contract4 where
  policyID : Str
  region : Str
  tier : Str
  limitPerMinute : ℤ
  burst : ℤ
  algorithm : Str
  ttlSeconds : ℤ
  reason : Str
  createdAt : Str
  deriving DecidableEq

namespace Contract4

/-- The zero value. -/
def zero : Contract4 := ⟨[], [], [], 0, 0, [], 0, [], []⟩

/-- The fields with their JSON keys, in the order of the struct. -/
def fields : List (GoField Contract4) :=
  [goStringField (str "policy_id") fun v c => { c with policyID := v },
    goStringField (str "region") fun v c => { c with region := v },
    goStringField (str "tier") fun v c => { c with tier := v },
    goIntField (str "limit_per_minute") fun v c => { c with limitPerMinute := v },
    goIntField (str "burst") fun v c => { c with burst := v },
    goStringField (str "algorithm") fun v c => { c with algorithm := v },
    goIntField (str "ttl_seconds") fun v c => { c with ttlSeconds := v },
    goStringField (str "reason") fun v c => { c with reason := v },
    goStringField (str "created_at") fun v c => { c with createdAt := v }]

end Contract4

/-- Why a decoded policy is refused. -/
inductive PolicyError
  | limitPerMinute (got : ℤ)
  | burst (got : ℤ)
  | algorithm (got : Str)
  | region (policy store : Str)
  | tier (policy key : Str)
  | emptyPolicyID
  deriving DecidableEq

/-! ## The store -/

/-- `policy.Store` : the live policy of each tier, for one region. -/
structure Store where
  region : Region
  cache : Tier → Policy

namespace Store

/-- `NewStore` : the cache starts with the static policies. -/
def new (region : Region) : Store := ⟨region, Policy.lookup⟩

/-- `Store.Get` of a known tier. -/
def get (s : Store) (tier : Tier) : Policy := s.cache tier

def setCache (s : Store) (tier : Tier) (p : Policy) : Store :=
  { s with cache := fun t => if t = tier then p else s.cache t }

def setStatic (s : Store) (tier : Tier) : Store := s.setCache tier (Policy.lookup tier)

/-- `Store.validate` : the first check that fails. -/
def validate (s : Store) (c : Contract4) (tier : Tier) : Option PolicyError :=
  if c.limitPerMinute ≤ 0 then some (.limitPerMinute c.limitPerMinute)
  else if c.burst < 0 then some (.burst c.burst)
  else if c.algorithm ≠ Algorithm.tokenBucket.name ∧ c.algorithm ≠ Algorithm.slidingWindow.name then
    some (.algorithm c.algorithm)
  else if c.region ≠ s.region.name then some (.region c.region s.region.name)
  else if c.tier ≠ tier.name then some (.tier c.tier tier.name)
  else if c.policyID = [] then some .emptyPolicyID
  else none

/-- The key of a tier's policy. -/
def redisKey (region : Region) (tier : Tier) : Str :=
  str "policy:" ++ region.name ++ 58 :: tier.name

/-- The policy of an accepted `contract4`. -/
def ofContract4 (c : Contract4) : Policy :=
  ⟨c.limitPerMinute, c.limitPerMinute, c.burst, c.algorithm, c.policyID⟩

/-- One tier of `Store.refresh`. `raw` is what `GET` returned, `none` for an absent key
or an error. -/
def refreshTier (s : Store) (tier : Tier) (raw : Option (List Byte)) : Store :=
  match raw with
  | none => s.setStatic tier
  | some raw =>
    match unmarshal Contract4.fields raw Contract4.zero with
    | .error _ => s.setStatic tier
    | .ok c =>
      match s.validate c tier with
      | some _ => s.setStatic tier
      | none => s.setCache tier (ofContract4 c)

/-- `Store.refresh` : every tier in turn, each from its own key. -/
def refresh (s : Store) (get : Str → Option (List Byte)) : Store :=
  Tier.all.foldl (fun s tier => s.refreshTier tier (get (redisKey s.region tier))) s

@[simp] theorem refreshTier_region (s : Store) (tier : Tier) (raw : Option (List Byte)) :
    (s.refreshTier tier raw).region = s.region := by
  unfold refreshTier
  split
  · rfl
  · split
    · rfl
    · split <;> rfl

/-- The refresh of one tier leaves the others alone. -/
theorem refreshTier_get_of_ne (s : Store) {tier t : Tier} (ht : t ≠ tier)
    (raw : Option (List Byte)) : (s.refreshTier tier raw).get t = s.get t := by
  have hset : ∀ p, (s.setCache tier p).get t = s.get t := fun p => if_neg ht
  unfold refreshTier
  split
  · exact hset _
  · split
    · exact hset _
    · split <;> exact hset _

/-- What the refresh of a tier leaves there depends on the region and the key's value
only. -/
theorem refreshTier_get_self {s s' : Store} (hs : s.region = s'.region) (tier : Tier)
    (raw : Option (List Byte)) :
    (s.refreshTier tier raw).get tier = (s'.refreshTier tier raw).get tier := by
  have hset : ∀ (u : Store) (p : Policy), (u.setCache tier p).get tier = p := fun u p => if_pos rfl
  have hvalidate : ∀ c, s.validate c tier = s'.validate c tier := fun c => by
    rw [validate, validate, hs]
  unfold refreshTier
  split
  · exact (hset _ _).trans (hset _ _).symm
  · split
    · exact (hset _ _).trans (hset _ _).symm
    · rw [hvalidate]
      split
      · exact (hset _ _).trans (hset _ _).symm
      · exact (hset _ _).trans (hset _ _).symm

/-- After a refresh each tier holds what its own key gives. -/
theorem refresh_get (s : Store) (get : Str → Option (List Byte)) (tier : Tier) :
    (s.refresh get).get tier =
      (s.refreshTier tier (get (redisKey s.region tier))).get tier := by
  have hne : ∀ {t t' : Tier} (u : Store) raw, t ≠ t' → (u.refreshTier t' raw).get t = u.get t :=
    fun u raw h => u.refreshTier_get_of_ne h raw
  show (((s.refreshTier .free _).refreshTier .premium _).refreshTier .internal _).get tier = _
  simp only [refreshTier_region]
  cases tier with
  | free => rw [hne _ _ (by decide), hne _ _ (by decide)]
  | premium =>
    rw [hne _ _ (by decide)]
    exact refreshTier_get_self (s.refreshTier_region _ _) _ _
  | internal =>
    refine refreshTier_get_self ?_ _ _
    rw [refreshTier_region, refreshTier_region]

end Store

end Gdrl
