import Gdrl.Gateway

/-!
# Polling

A gateway's store reads the policies of all tiers from Redis when it starts and then at
every tick. While it reads it holds its lock, and no request finds a policy. `Poller` is the
store on a clock, with the gauge `rl_policy_version`. `answer t key` is what a `GET` yields at
time `t`, nothing for an absent key or an error : it may change at any time.

What a request finds is what Redis answered in one and the same refresh, no longer ago than
the time between two ticks (`bounded_staleness`).
-/

namespace Gdrl

/-! ## The version of a policy -/

/-- `strconv.Atoi` -/
def atoi (s : Str) : Option ℤ :=
  let ds := if s.head? = some 45 ∨ s.head? = some 43 then s.tail else s
  let n : ℤ := if s.head? = some 45 then -digitsValue ds else digitsValue ds
  if ds ≠ [] ∧ ds.all isDigit = true ∧ fits64 n = true then some n else none

/-- `seqFromID` -/
def seqFromID (id : Str) : ℤ :=
  let parts := id.splitOn 95
  if 3 ≤ parts.length then (atoi (parts.getLast?.getD [])).getD 1 else 1

namespace Store

/-- The policy that `refreshTier` takes over, if it takes over any. -/
def adopted (s : Store) (tier : Tier) (raw : Option (List Byte)) : Option Policy :=
  raw.bind fun raw =>
    match unmarshal Contract4.fields raw Contract4.zero with
    | .error _ => none
    | .ok c => if s.validate c tier = none then some (ofContract4 c) else none

theorem refreshTier_eq (s : Store) (tier : Tier) (raw : Option (List Byte)) :
    s.refreshTier tier raw = s.setCache tier ((s.adopted tier raw).getD (Policy.lookup tier)) := by
  unfold refreshTier adopted
  cases raw with
  | none => rfl
  | some raw =>
    rw [Option.bind_some]
    dsimp only
    cases unmarshal Contract4.fields raw Contract4.zero with
    | error => rfl
    | ok c =>
      dsimp only
      cases s.validate c tier with
      | none => rfl
      | some => rfl

theorem adopted_congr {s s' : Store} (h : s.region = s'.region) (tier : Tier)
    (raw : Option (List Byte)) : s.adopted tier raw = s'.adopted tier raw := by
  have hvalidate : ∀ c, s.validate c tier = s'.validate c tier := fun c => by
    rw [validate, validate, h]
  unfold adopted
  simp only [hvalidate]

theorem refreshTier_get (s : Store) (tier t : Tier) (raw : Option (List Byte)) :
    (s.refreshTier tier raw).get t =
      if t = tier then (s.adopted tier raw).getD (Policy.lookup tier) else s.get t := by
  rw [refreshTier_eq]
  rfl

end Store

/-! ## The store on a clock -/

/-- The store, the gauge of each tier, the time, when the last refresh began, and the tiers
that it has still to read. No refresh is under way where that is `none`. -/
structure Poller where
  store : Store
  version : Tier → ℤ
  clock : ℚ
  begun : ℚ
  pending : Option (List Tier)

namespace Poller

/-- What happens next. -/
inductive Event
  | wait (t : ℚ)
  /-- The ticker fires and the refresh takes the lock. -/
  | tick
  /-- `GET` of the next tier. -/
  | get
  | unlock

/-- `PolicyVersion` behind a read, as a `float64`. -/
def versionOf (read : Option Policy) : ℤ :=
  (read.map fun p => luaNumber (seqFromID p.policyID)).getD 0

/-- One step, `none` where it cannot be taken. A refresh begins at the latest `interval` behind
the one before, and is over by then. -/
def step (interval : ℚ) (answer : ℚ → Str → Option (List Byte)) (s : Poller) : Event → Option Poller
  | .wait t =>
    if s.clock ≤ t ∧ t ≤ s.begun + interval then some { s with clock := t } else none
  | .tick =>
    if s.pending = none then some { s with begun := s.clock, pending := some Tier.all } else none
  | .get =>
    match s.pending with
    | some (tier :: rest) =>
      let raw := answer s.clock (Store.redisKey s.store.region tier)
      some { s with
        store := s.store.refreshTier tier raw
        version := fun t =>
          if t = tier then versionOf (s.store.adopted tier raw) else s.version t
        pending := some rest }
    | _ => none
  | .unlock => if s.pending = some [] then some { s with pending := none } else none

/-- `Start` : the gauges at zero and the first refresh at `t₀`. -/
def start (region : Region) (t₀ : ℚ) : Poller :=
  ⟨.new region, fun _ => 0, t₀, t₀, some Tier.all⟩

/-- A tier's policy and gauge are those of an answer. -/
def Shows (s : Poller) (tier : Tier) (raw : Option (List Byte)) : Prop :=
  let read := s.store.adopted tier raw
  s.store.get tier = read.getD (Policy.lookup tier) ∧ s.version tier = versionOf read

section

variable {region : Region} {interval : ℚ} {answer : ℚ → Str → Option (List Byte)}
  {s s' : Poller} {e : Event}

/-- The tier shows an answer of the last refresh. -/
def Current (region : Region) (answer : ℚ → Str → Option (List Byte)) (s : Poller) (tier : Tier) :
    Prop :=
  ∃ u, s.begun ≤ u ∧ u ≤ s.clock ∧ s.Shows tier (answer u (Store.redisKey region tier))

/-- The clock is within the interval, and every tier that has been read is current. -/
structure Timely (region : Region) (interval : ℚ) (answer : ℚ → Str → Option (List Byte))
    (s : Poller) : Prop where
  own : s.store.region = region
  begun : s.begun ≤ s.clock
  clock : s.clock ≤ s.begun + interval
  current : ∀ tier, (∀ ts ∈ s.pending, tier ∉ ts) → s.Current region answer tier

theorem timely_start (hi : 0 ≤ interval) (t₀ : ℚ) :
    Timely region interval answer (start region t₀) where
  own := rfl
  begun := le_rfl
  clock := le_add_of_nonneg_right hi
  current tier h := absurd (Tier.mem_all tier) (h _ rfl)

theorem Timely.step (hi : 0 ≤ interval) (hs : Timely region interval answer s)
    (h : s.step interval answer e = some s') : Timely region interval answer s' := by
  cases e with
  | wait t =>
    obtain ⟨⟨hclock, ht⟩, h⟩ := Option.ite_none_right_eq_some.mp h
    obtain rfl := Option.some.inj h
    refine ⟨hs.own, hs.begun.trans hclock, ht, fun tier hread => ?_⟩
    obtain ⟨u, hu, hu', hshows⟩ := hs.current tier hread
    exact ⟨u, hu, hu'.trans hclock, hshows⟩
  | tick =>
    obtain ⟨-, h⟩ := Option.ite_none_right_eq_some.mp h
    obtain rfl := Option.some.inj h
    refine ⟨hs.own, le_rfl, le_add_of_nonneg_right hi, fun tier hread => ?_⟩
    exact absurd (Tier.mem_all tier) (hread _ rfl)
  | get =>
    rw [Poller.step] at h
    split at h
    · rename_i tier rest hpending
      obtain rfl := Option.some.inj h
      refine ⟨(s.store.refreshTier_region _ _).trans hs.own, hs.begun, hs.clock,
        fun t hread => ?_⟩
      have hadopted : ∀ raw', (s.store.refreshTier tier (answer s.clock
          (Store.redisKey s.store.region tier))).adopted t raw' = s.store.adopted t raw' :=
        Store.adopted_congr (s.store.refreshTier_region _ _) t
      by_cases ht : t = tier
      · subst ht
        refine ⟨s.clock, hs.begun, le_rfl, ?_⟩
        rw [← hs.own]
        refine ⟨?_, ?_⟩
        · rw [Store.refreshTier_get, if_pos rfl, hadopted]
        · rw [hadopted]
          exact if_pos rfl
      · have hpast : ∀ ts ∈ s.pending, t ∉ ts := by
          rw [hpending]
          rintro ts ⟨⟩
          exact List.not_mem_cons_of_ne_of_not_mem ht (hread _ rfl)
        obtain ⟨u, hu, hu', hget, hversion⟩ := hs.current t hpast
        refine ⟨u, hu, hu', ?_, ?_⟩
        · rw [Store.refreshTier_get, if_neg ht, hadopted]
          exact hget
        · rw [hadopted]
          exact (if_neg ht).trans hversion
    · cases h
  | unlock =>
    obtain ⟨hdone, h⟩ := Option.ite_none_right_eq_some.mp h
    obtain rfl := Option.some.inj h
    exact ⟨hs.own, hs.begun, hs.clock, fun tier _ => hs.current tier (by simp [hdone])⟩

theorem timely_of_run (hi : 0 ≤ interval) {t₀ : ℚ} {es : List Event}
    (h : Run (Steps (Poller.step interval answer)) (start region t₀) es s) :
    Timely region interval answer s :=
  h.invariant (I := Timely region interval answer) (fun _ _ _ hs hstep => hs.step hi hstep)
    (timely_start hi t₀)

/-- **Bounded staleness.** Whenever the lock is free, the policies and gauges of all tiers show
what Redis answered in one refresh, which began no longer than `interval` ago. What it has
answered for a tier throughout that time is in force. -/
theorem bounded_staleness (hi : 0 ≤ interval) {t₀ : ℚ} {es : List Event}
    (h : Run (Steps (Poller.step interval answer)) (start region t₀) es s)
    (hfree : s.pending = none) :
    (∃ b, s.clock - interval ≤ b ∧ b ≤ s.clock ∧ ∀ tier, ∃ u, b ≤ u ∧ u ≤ s.clock ∧
      s.Shows tier (answer u (Store.redisKey region tier))) ∧
    ∀ tier raw, (∀ u, s.clock - interval ≤ u → u ≤ s.clock →
      answer u (Store.redisKey region tier) = raw) → s.Shows tier raw := by
  have hs := timely_of_run hi h
  have hcurrent : ∀ tier, s.Current region answer tier := fun tier =>
    hs.current tier (by simp [hfree])
  have hbegun : s.clock - interval ≤ s.begun := sub_le_iff_le_add.mpr hs.clock
  refine ⟨⟨s.begun, hbegun, hs.begun, hcurrent⟩, fun tier raw hraw => ?_⟩
  obtain ⟨u, hu, hu', hshows⟩ := hcurrent tier
  rwa [hraw u (hbegun.trans hu) hu'] at hshows

end

/-- A policy with a version, and its first three seconds without it. -/
def samplePolicyText : List Byte := utf8Encode (
  str "\x7b\"policy_id\":\"pol_x_7\",\"region\":\"us\",\"tier\":\"free\",\"burst\":5," ++
  str "\"limit_per_minute\":25,\"algorithm\":\"token_bucket\"\x7d")

def sampleAnswer (t : ℚ) (key : Str) : Option (List Byte) :=
  if 3 ≤ t ∧ key = Store.redisKey .us .free then some samplePolicyText else none

def samplePolls : List Event :=
  [.get, .get, .get, .unlock, .wait 5, .tick, .wait (11 / 2), .get, .get, .get, .unlock, .wait 9]

/-- The policy is read half a second behind the second tick. -/
theorem bounded_staleness_sample : ∃ s,
    Run (Steps (step 5 sampleAnswer)) (start .us 0) samplePolls s ∧
    ((s.store.get .free).limit, s.version .free) = (25, 7) ∧
    (∃ b, s.clock - 5 ≤ b ∧ b ≤ s.clock ∧ ∀ tier, ∃ u, b ≤ u ∧ u ≤ s.clock ∧
      s.Shows tier (sampleAnswer u (Store.redisKey .us tier))) ∧
    ∀ tier raw, (∀ u, s.clock - 5 ≤ u → u ≤ s.clock →
      sampleAnswer u (Store.redisKey .us tier) = raw) → s.Shows tier raw := by
  have hend : (exec (step 5 sampleAnswer) (start .us 0) samplePolls).map (fun s =>
      (s.pending, (s.store.get .free).limit, s.version .free)) = some (none, 25, 7) := by
    decide +kernel
  obtain ⟨s, hs, hend⟩ := Option.map_eq_some_iff.mp hend
  obtain ⟨hfree, hend⟩ := Prod.mk.inj hend
  have hrun := run_of_exec hs
  exact ⟨s, hrun, hend, bounded_staleness (by norm_num) hrun hfree⟩

end Poller

end Gdrl
