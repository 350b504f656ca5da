import Gdrl.Decider

/-!
# Redis outages

`Decider` takes every write to succeed. Here some regions had no Redis when the agent
started, and the `SETEX` of some raises. `PolicyWriter.write_override` catches that in
each region and logs the override. `PolicyWriter.write_policy` does not catch it, and the
exception ends the tick before the decision is logged. So the regions of a tick are
isolated exactly if the rules decide no policy for a region whose Redis raises
(`isolated_iff`).
-/

namespace Gdrl

/-- The regions with a client, which have answered `PING` at the start, and those whose
`SETEX` raises. -/
structure Outage where
  clients : Region → Bool
  down : Region → Bool

/-- The same clients, where no `SETEX` raises. -/
def Outage.over (o : Outage) : Outage := { o with down := fun _ => false }

/-- A tick under way : the agent, what the rules have decided in the tick, what each region
has received, and the exception that has ended it. -/
structure Tick where
  agent : Agent
  made : List Decision
  received : Region → List PolicyWriter.Setex
  raised : Option PyError

namespace Tick

def start (a : Agent) : Tick := ⟨a, [], fun _ => [], none⟩

/-- The next statement. An exception skips it. -/
def andThen (s : Tick) (f : Tick → Tick) : Tick := if s.raised = none then f s else s

/-- The rules decide something. -/
def make (s : Tick) (d : Decision) : Tick := { s with made := s.made ++ [d] }

/-- `DecisionLog.append` -/
def log (s : Tick) (d : Decision) : Tick :=
  { s with agent := { s.agent with log := s.agent.log ++ [d] } }

/-- The Redises that are `up` take a write. -/
def receive (s : Tick) (now : ℚ) (up : Region → Bool) (w : PolicyWriter.Setex) : Tick :=
  { s with
    agent := { s.agent with
      redis := fun r => if up r then (s.agent.redis r).setex now w else s.agent.redis r }
    received := fun r => if up r then s.received r ++ [w] else s.received r }

/-- `PolicyWriter.write_policy` -/
def writePolicy (W : Writer) (o : Outage) (now : ℚ) (region : Region) (limitPerMinute burst : ℤ)
    (reason : Str) (s : Tick) : Tick :=
  let d := Decision.policy region limitPerMinute burst reason
  if o.clients region then
    match PolicyWriter.writePolicy W.py
      (s.agent.policyArgs W region limitPerMinute burst reason) with
    | .error e => { s.make d with raised := some e }
    | .ok w =>
      if o.down region then { s.make d with raised := some .redis }
      else ((s.make d).receive now (· = region) w).log d
  else (s.make d).log d

/-- `PolicyWriter.write_override`. What cannot be encoded is not written, and then the log
raises, which encodes it once more. -/
def writeOverride (W : Writer) (o : Outage) (now : ℚ) (region : Region) (tier : Tier)
    (userId : Str) (share : ℚ) (s : Tick) : Tick :=
  let d := Decision.override region tier userId share
  match PolicyWriter.writeOverride W.py (s.agent.overrideArgs W region tier userId share) with
  | .error e => { s.make d with raised := some e }
  | .ok w => ((s.make d).receive now (fun r => o.clients r && !o.down r) w).log d

/-! ## The rules -/

/-- The throttle rule applies. -/
def throttles (p : Prediction) (now : ℚ) (st : TierState) : Bool :=
  p.spike && !st.throttled && Agent.hysteresisSeconds < now - st.writtenAt

/-- The recovery rule applies. -/
def recovers (p : Prediction) (now : ℚ) (st : TierState) : Bool :=
  st.throttled && p.calm && Agent.hysteresisSeconds < now - st.writtenAt

def setState (region : Region) (st : TierState) (s : Tick) : Tick :=
  { s with agent := s.agent.setState region st }

/-- `Decider._check_capacity` -/
def checkCapacity (W : Writer) (o : Outage) (region : Region) (pred : Option Prediction) (now : ℚ)
    (s : Tick) : Tick :=
  match pred with
  | none => s
  | some p =>
    let st := s.agent.state region
    if throttles p now st then
      let limit := Agent.cut st.limitPerMinute
      (s.writePolicy W o now region limit (max 5 (limit / 5))
        (Agent.policyReason p.tag region p)).andThen (setState region ⟨limit, now, true⟩)
    else if recovers p now st then
      (s.writePolicy W o now region Agent.defaultLimit Agent.defaultBurst
        (Agent.policyReason (str "recovery") region p)).andThen
          (setState region ⟨Agent.defaultLimit, now, false⟩)
    else s

/-- One tier of `Decider._check_noisy_neighbor`. -/
def checkTopUser (W : Writer) (o : Outage) (region : Region) (now : ℚ) (s : Tick)
    (top : Tier × Str × ℚ) : Tick :=
  s.andThen fun s =>
    if Agent.noisyNeighborShare < top.2.2 ∧
        Agent.hysteresisSeconds < now - s.agent.overrides top.2.1 then
      (s.writeOverride W o now region top.1 top.2.1 top.2.2).andThen fun s =>
        { s with agent := { s.agent with
          overrides := Function.update s.agent.overrides top.2.1 now } }
    else s

/-- `Decider._check_noisy_neighbor` -/
def checkNoisyNeighbor (W : Writer) (o : Outage) (region : Region)
    (topUsers : List (Tier × Str × ℚ)) (now : ℚ) (s : Tick) : Tick :=
  topUsers.foldl (checkTopUser W o region now) s

/-- The part of a tick that is about one region. -/
def turn (W : Writer) (o : Outage) (preds : Region → Option Prediction)
    (topUsers : Region → List (Tier × Str × ℚ)) (now : ℚ) (s : Tick) (r : Region) : Tick :=
  s.andThen fun s => (s.checkCapacity W o r (preds r) now).checkNoisyNeighbor W o r (topUsers r) now

/-- `Decider.decide` -/
def decide (W : Writer) (o : Outage) (preds : Region → Option Prediction)
    (topUsers : Region → List (Tier × Str × ℚ)) (now : ℚ) (a : Agent) : Tick :=
  Region.all.foldl (turn W o preds topUsers now) (start a)

theorem andThen_of_none {s : Tick} (h : s.raised = none) (f : Tick → Tick) : s.andThen f = f s :=
  if_pos h

theorem andThen_of_raised {s : Tick} (h : s.raised ≠ none) (f : Tick → Tick) : s.andThen f = s :=
  if_neg h

/-! ## What the capacity rules decide -/

/-- A policy that the rules decide, and whether it throttles. -/
structure Ruling where
  limitPerMinute : ℤ
  burst : ℤ
  reason : Str
  throttled : Bool

/-- What the two rules decide for a region from what the decider remembers of it. -/
def ruling (region : Region) (pred : Option Prediction) (now : ℚ) (st : TierState) :
    Option Ruling :=
  pred.bind fun p =>
    if throttles p now st then
      let limit := Agent.cut st.limitPerMinute
      some ⟨limit, max 5 (limit / 5), Agent.policyReason p.tag region p, true⟩
    else if recovers p now st then
      some ⟨Agent.defaultLimit, Agent.defaultBurst,
        Agent.policyReason (str "recovery") region p, false⟩
    else none

/-- One of the two rules applies. -/
def due (pred : Option Prediction) (now : ℚ) (st : TierState) : Bool :=
  pred.any fun p => throttles p now st || recovers p now st

theorem isSome_ruling (region : Region) (pred : Option Prediction) (now : ℚ) (st : TierState) :
    (ruling region pred now st).isSome = due pred now st := by
  cases pred with
  | none => rfl
  | some p =>
    dsimp only [ruling, due, Option.bind_some, Option.any_some]
    cases throttles p now st <;> cases recovers p now st <;> rfl

/-- The rules write what they decide, and remember it behind the write. -/
theorem checkCapacity_eq (W : Writer) (o : Outage) (region : Region) (pred : Option Prediction)
    (now : ℚ) (s : Tick) :
    s.checkCapacity W o region pred now =
      match ruling region pred now (s.agent.state region) with
      | none => s
      | some d => (s.writePolicy W o now region d.limitPerMinute d.burst d.reason).andThen
          (setState region ⟨d.limitPerMinute, now, d.throttled⟩) := by
  cases pred with
  | none => rfl
  | some p =>
    dsimp only [checkCapacity, ruling, Option.bind_some]
    split_ifs <;> rfl

end Tick

/-- The limit that a decider remembers is one of its own : the baseline, or what it cuts the
baseline to. -/
def TierState.OwnLimit (st : TierState) : Prop :=
  st.limitPerMinute = if st.throttled then 70 else 100

def Agent.Remembers (a : Agent) : Prop := ∀ r, (a.state r).OwnLimit

theorem Agent.remembers_new (now : ℚ) : (Agent.new now).Remembers := fun _ => rfl

namespace Tick

/-- So a decider only ever writes two policies. -/
theorem ruling_cases {region : Region} {pred : Option Prediction} {now : ℚ} {st : TierState}
    (hst : st.OwnLimit) {d : Ruling} (hd : ruling region pred now st = some d) :
    (d.limitPerMinute = 70 ∧ d.burst = 14 ∧ d.throttled = true) ∨
      (d.limitPerMinute = 100 ∧ d.burst = 20 ∧ d.throttled = false) := by
  obtain ⟨p, -, hd⟩ := Option.bind_eq_some_iff.mp hd
  dsimp only at hd
  split_ifs at hd with hthr hrec
  · simp only [throttles, Bool.and_eq_true, Bool.not_eq_true'] at hthr
    have hlimit : st.limitPerMinute = Agent.defaultLimit := by
      rw [show st.limitPerMinute = _ from hst, hthr.1.2]
      rfl
    rw [hlimit, Agent.cut_default] at hd
    obtain rfl := Option.some.inj hd
    exact Or.inl ⟨rfl, rfl, rfl⟩
  · obtain rfl := Option.some.inj hd
    exact Or.inr ⟨rfl, rfl, rfl⟩

theorem ownLimit_of_ruling {region : Region} {pred : Option Prediction} {now : ℚ} {st : TierState}
    (hst : st.OwnLimit) {d : Ruling} (hd : ruling region pred now st = some d) (writtenAt : ℚ) :
    TierState.OwnLimit ⟨d.limitPerMinute, writtenAt, d.throttled⟩ := by
  unfold TierState.OwnLimit
  dsimp only
  rcases ruling_cases hst hd with ⟨h1, -, h3⟩ | ⟨h1, -, h3⟩ <;> rw [h1, h3] <;> rfl

theorem exists_writePolicy (W : Writer) (a : Agent) (region : Region) {d : Ruling}
    (hd : (d.limitPerMinute = 70 ∧ d.burst = 14 ∧ d.throttled = true) ∨
      (d.limitPerMinute = 100 ∧ d.burst = 20 ∧ d.throttled = false)) :
    ∃ w, PolicyWriter.writePolicy W.py
      (a.policyArgs W region d.limitPerMinute d.burst d.reason) = .ok w := by
  have hprint : ∀ {n : ℤ}, -2 ^ 63 ≤ n ∧ n < 2 ^ 63 → Printable n :=
    fun hn => printable_of_lt (by omega)
  refine ⟨_, PolicyWriter.writePolicy_eq (hprint ?_) (hprint ?_)
    (hprint (by norm_num : -2 ^ 63 ≤ (300 : ℤ) ∧ (300 : ℤ) < 2 ^ 63))
    (PolicyWriter.expires_of_le _ (by decide : (0 : ℤ) < 300) (by decide : (300 : ℤ) ≤ 2 ^ 50)) W.py⟩
  · show -2 ^ 63 ≤ d.limitPerMinute ∧ d.limitPerMinute < 2 ^ 63
    omega
  · show -2 ^ 63 ≤ d.burst ∧ d.burst < 2 ^ 63
    omega

theorem exists_writeOverride (W : Writer) (a : Agent) (region : Region) (tier : Tier)
    (userId : Str) (share : ℚ) :
    ∃ raw, PolicyWriter.writeOverride W.py (a.overrideArgs W region tier userId share) =
      .ok ⟨PolicyWriter.overrideKey userId, 120, raw⟩ := by
  have h5 : Printable 5 := printable_of_lt (by norm_num)
  have h120 : Printable 120 := printable_of_lt (by norm_num)
  have hprint : (Json.obj (PolicyWriter.override
      (a.overrideArgs W region tier userId share))).printable = true := by
    simp [PolicyWriter.override, Agent.overrideArgs, Json.printable, Json.printableMembers, h5,
      h120]
  have hexp : PolicyWriter.Expires (a.overrideArgs W region tier userId share).redisMs 120 :=
    PolicyWriter.expires_of_le _ (by decide) (by norm_num)
  rw [PolicyWriter.writeOverride, dumps, if_pos hprint]
  exact ⟨_, if_pos hexp⟩

/-! ## With and without the outage -/

/-- A tick during an outage, and the same tick without it, as long as no exception has
ended the first. `l` is the log from before. -/
structure Alike (o : Outage) (l : List Decision) (s t : Tick) : Prop where
  raised : s.raised = none ∧ t.raised = none
  logged : s.agent.log = l ++ s.made
  made : t.made = s.made
  log : t.agent.log = s.agent.log
  state : t.agent.state = s.agent.state
  overrides : t.agent.overrides = s.agent.overrides
  received : ∀ r, o.down r = false → t.received r = s.received r
  remembers : s.agent.Remembers

section Alike

variable {W : Writer} {o : Outage} {l : List Decision} {s t : Tick} {now : ℚ}

/-- A decision that both ticks log, and that the same Redises outside the outage take. -/
theorem Alike.decided (h : Alike o l s t) (d : Decision) {up up' : Region → Bool}
    (hup : ∀ r, o.down r = false → up' r = up r) (w : PolicyWriter.Setex) :
    Alike o l (((s.make d).receive now up w).log d) (((t.make d).receive now up' w).log d) where
  raised := h.raised
  logged := by
    show s.agent.log ++ [d] = l ++ (s.made ++ [d])
    rw [h.logged, List.append_assoc]
  made := congrArg (· ++ [d]) h.made
  log := congrArg (· ++ [d]) h.log
  state := h.state
  overrides := h.overrides
  received r hr := by
    show (if up' r then t.received r ++ [w] else t.received r) =
      if up r then s.received r ++ [w] else s.received r
    rw [hup r hr, h.received r hr]
  remembers := h.remembers

/-- A policy for a region without a client is only logged. -/
theorem writePolicy_of_absent {region : Region} (hclient : o.clients region = false)
    {limit burst : ℤ} {reason : Str} : s.writePolicy W o now region limit burst reason =
      (s.make (.policy region limit burst reason)).log (.policy region limit burst reason) := by
  unfold Tick.writePolicy
  rw [hclient]
  rfl

theorem raised_writePolicy {region : Region} {limit burst : ℤ} {reason : Str}
    {w : PolicyWriter.Setex} (hw : PolicyWriter.writePolicy W.py
      (s.agent.policyArgs W region limit burst reason) = .ok w)
    (hclient : o.clients region = true) (hdown : o.down region = true) :
    (s.writePolicy W o now region limit burst reason).raised = some .redis := by
  unfold Tick.writePolicy
  rw [hclient, hw, hdown]
  rfl

theorem writePolicy_of_up {region : Region} {limit burst : ℤ} {reason : Str}
    {w : PolicyWriter.Setex} (hw : PolicyWriter.writePolicy W.py
      (s.agent.policyArgs W region limit burst reason) = .ok w)
    (hclient : o.clients region = true) (hdown : o.down region = false) :
    s.writePolicy W o now region limit burst reason =
      ((s.make (.policy region limit burst reason)).receive now (· = region) w).log
        (.policy region limit burst reason) := by
  unfold Tick.writePolicy
  rw [hclient, hw, hdown]
  rfl

/-- A policy goes through both, unless its region has a client and `SETEX` raises. -/
theorem Alike.writePolicy (h : Alike o l s t) (W : Writer) (now : ℚ) (region : Region) {d : Ruling}
    (hd : (d.limitPerMinute = 70 ∧ d.burst = 14 ∧ d.throttled = true) ∨
      (d.limitPerMinute = 100 ∧ d.burst = 20 ∧ d.throttled = false)) :
    if o.clients region = true ∧ o.down region = true then
      (s.writePolicy W o now region d.limitPerMinute d.burst d.reason).raised ≠ none
    else
      Alike o l (s.writePolicy W o now region d.limitPerMinute d.burst d.reason)
        (t.writePolicy W o.over now region d.limitPerMinute d.burst d.reason) := by
  obtain ⟨w, hw⟩ := exists_writePolicy W s.agent region hd
  have hargs : t.agent.policyArgs W region d.limitPerMinute d.burst d.reason =
      s.agent.policyArgs W region d.limitPerMinute d.burst d.reason := by
    rw [Agent.policyArgs, Agent.policyArgs, h.log]
  have hw' := hargs ▸ hw
  cases hclient : o.clients region with
  | false =>
    rw [if_neg fun h => Bool.false_ne_true h.1, writePolicy_of_absent hclient,
      writePolicy_of_absent (o := o.over) hclient]
    exact @Alike.decided o l s t now h _ (fun _ => false) (fun _ => false) (fun _ _ => rfl) w
  | true =>
    cases hdown : o.down region with
    | true =>
      rw [if_pos ⟨rfl, rfl⟩, raised_writePolicy hw hclient hdown]
      exact Option.some_ne_none _
    | false =>
      rw [if_neg fun h => Bool.false_ne_true h.2, writePolicy_of_up hw hclient hdown,
        writePolicy_of_up (o := o.over) hw' hclient rfl]
      exact h.decided _ (fun _ _ => rfl) w

theorem Alike.setState (h : Alike o l s t) (region : Region) {st : TierState}
    (hst : st.OwnLimit) : Alike o l (s.setState region st) (t.setState region st) :=
  { h with
    state := congrArg (fun f : Region → TierState => Function.update f region st) h.state
    remembers := fun r => by
      show (Function.update s.agent.state region st r).OwnLimit
      by_cases hr : r = region
      · rw [hr, Function.update_self]
        exact hst
      · rw [Function.update_of_ne hr]
        exact h.remembers r }

/-- The capacity rules go through both ticks, unless they decide a policy for a region with
a client where `SETEX` raises. -/
theorem Alike.checkCapacity (h : Alike o l s t) (W : Writer) (now : ℚ) (region : Region)
    (pred : Option Prediction) :
    if due pred now (s.agent.state region) = true ∧ o.clients region = true ∧
        o.down region = true then
      (s.checkCapacity W o region pred now).raised ≠ none
    else
      Alike o l (s.checkCapacity W o region pred now)
        (t.checkCapacity W o.over region pred now) := by
  rw [checkCapacity_eq, checkCapacity_eq, h.state, ← isSome_ruling region]
  cases hd : ruling region pred now (s.agent.state region) with
  | none => exact h
  | some d =>
    have hcases := ruling_cases (h.remembers region) hd
    have hwrite := h.writePolicy W now region hcases
    by_cases hblocked : o.clients region = true ∧ o.down region = true
    · rw [if_pos hblocked] at hwrite
      rw [if_pos ⟨rfl, hblocked⟩]
      dsimp only
      rwa [andThen_of_raised hwrite]
    · rw [if_neg hblocked] at hwrite
      rw [if_neg fun h => hblocked h.2]
      dsimp only
      rw [andThen_of_none hwrite.raised.1, andThen_of_none hwrite.raised.2]
      exact hwrite.setState region (ownLimit_of_ruling (h.remembers region) hd now)

/-- An override goes through both ticks. -/
theorem Alike.writeOverride (h : Alike o l s t) (W : Writer) (now : ℚ) (region : Region)
    (tier : Tier) (userId : Str) (share : ℚ) :
    Alike o l (s.writeOverride W o now region tier userId share)
      (t.writeOverride W o.over now region tier userId share) := by
  obtain ⟨raw, hw⟩ := exists_writeOverride W s.agent region tier userId share
  have hargs : t.agent.overrideArgs W region tier userId share =
      s.agent.overrideArgs W region tier userId share := by
    rw [Agent.overrideArgs, Agent.overrideArgs, h.log]
  have hw' := hargs ▸ hw
  unfold Tick.writeOverride
  rw [hw, hw']
  refine h.decided _ (fun r hr => ?_) _
  rw [hr]
  rfl

theorem Alike.checkTopUser (h : Alike o l s t) (region : Region) (top : Tier × Str × ℚ) :
    Alike o l (s.checkTopUser W o region now top) (t.checkTopUser W o.over region now top) := by
  rw [Tick.checkTopUser, Tick.checkTopUser, andThen_of_none h.raised.1, andThen_of_none h.raised.2,
    h.overrides]
  split_ifs
  · have hwrite := h.writeOverride W now region top.1 top.2.1 top.2.2
    rw [andThen_of_none hwrite.raised.1, andThen_of_none hwrite.raised.2]
    exact { hwrite with
      overrides := congrArg (fun f : Str → ℚ => Function.update f top.2.1 now) hwrite.overrides }
  · exact h

theorem Alike.checkNoisyNeighbor (h : Alike o l s t) (region : Region)
    (topUsers : List (Tier × Str × ℚ)) :
    Alike o l (s.checkNoisyNeighbor W o region topUsers now)
      (t.checkNoisyNeighbor W o.over region topUsers now) := by
  induction topUsers generalizing s t with
  | nil => exact h
  | cons top topUsers ih => exact ih (h.checkTopUser region top)

end Alike

/-! ## What an exception skips, and what it does not touch -/

section Frame

variable {W : Writer} {o : Outage} {preds : Region → Option Prediction}
  {topUsers : Region → List (Tier × Str × ℚ)} {now : ℚ}

theorem checkNoisyNeighbor_of_raised {s : Tick} (h : s.raised ≠ none) (region : Region)
    (tops : List (Tier × Str × ℚ)) : s.checkNoisyNeighbor W o region tops now = s := by
  induction tops with
  | nil => rfl
  | cons top tops ih =>
    rw [checkNoisyNeighbor, List.foldl_cons, checkTopUser, andThen_of_raised h]
    exact ih

theorem foldl_turn_of_raised {s : Tick} (h : s.raised ≠ none) (rs : List Region) :
    rs.foldl (turn W o preds topUsers now) s = s := by
  induction rs with
  | nil => rfl
  | cons r rs ih =>
    rw [List.foldl_cons, turn, andThen_of_raised h]
    exact ih

theorem state_writePolicy (s : Tick) (region : Region) (limit burst : ℤ) (reason : Str) :
    (s.writePolicy W o now region limit burst reason).agent.state = s.agent.state := by
  dsimp only [writePolicy]
  split_ifs
  · split <;> rfl
  · split <;> rfl
  · rfl

theorem state_checkCapacity_of_ne (s : Tick) {r q : Region} (hq : r ≠ q)
    (pred : Option Prediction) :
    (s.checkCapacity W o q pred now).agent.state r = s.agent.state r := by
  rw [checkCapacity_eq]
  split
  · rfl
  · unfold andThen
    split_ifs
    · dsimp only [setState, Agent.setState]
      rw [Function.update_of_ne hq, state_writePolicy]
    · rw [state_writePolicy]

theorem state_writeOverride (s : Tick) (region : Region) (tier : Tier) (userId : Str) (share : ℚ) :
    (s.writeOverride W o now region tier userId share).agent.state = s.agent.state := by
  dsimp only [writeOverride]
  split <;> rfl

theorem state_checkTopUser (s : Tick) (region : Region) (top : Tier × Str × ℚ) :
    (s.checkTopUser W o region now top).agent.state = s.agent.state := by
  have hwrite : (s.writeOverride W o now region top.1 top.2.1 top.2.2).agent.state =
      s.agent.state := state_writeOverride s region top.1 top.2.1 top.2.2
  unfold checkTopUser andThen
  dsimp only
  split_ifs
  · exact hwrite
  · exact hwrite
  · rfl
  · rfl

theorem state_checkNoisyNeighbor (s : Tick) (region : Region) (tops : List (Tier × Str × ℚ)) :
    (s.checkNoisyNeighbor W o region tops now).agent.state = s.agent.state := by
  induction tops generalizing s with
  | nil => rfl
  | cons top tops ih =>
    exact (ih (s.checkTopUser W o region now top)).trans (state_checkTopUser s region top)

theorem remembers_checkCapacity {s : Tick} (h : s.agent.Remembers) (W : Writer) (o : Outage)
    (now : ℚ) (region : Region) (pred : Option Prediction) :
    (s.checkCapacity W o region pred now).agent.Remembers := by
  rw [checkCapacity_eq]
  split
  · exact h
  · rename_i d hd
    intro r
    unfold andThen
    split_ifs
    · show (Function.update (s.writePolicy W o now region d.limitPerMinute d.burst
        d.reason).agent.state region ⟨d.limitPerMinute, now, d.throttled⟩ r).OwnLimit
      by_cases hr : r = region
      · rw [hr, Function.update_self]
        exact ownLimit_of_ruling (h region) hd now
      · rw [Function.update_of_ne hr, state_writePolicy]
        exact h r
    · rw [state_writePolicy]
      exact h r

/-- Every tick, also one that raises, leaves limits that are the decider's own. With
`remembers_new` this is so of every decider. -/
theorem remembers_decide {a : Agent} (h : a.Remembers) :
    (decide W o preds topUsers now a).agent.Remembers := by
  have hturn : ∀ {s : Tick} (r : Region), s.agent.Remembers →
      (s.turn W o preds topUsers now r).agent.Remembers := by
    intro s r hs
    unfold turn andThen
    split_ifs
    · intro q
      rw [state_checkNoisyNeighbor]
      exact remembers_checkCapacity hs W o now r (preds r) q
    · exact hs
  exact hturn .asia (hturn .eu (hturn .us h))

/-- A region's turn leaves the state of the others. -/
theorem state_turn_of_ne (s : Tick) {r q : Region} (hq : r ≠ q) :
    (s.turn W o preds topUsers now q).agent.state r = s.agent.state r := by
  unfold turn andThen
  split_ifs
  · rw [state_checkNoisyNeighbor, state_checkCapacity_of_ne s hq]
  · rfl

end Frame

/-! ## A whole tick -/

/-- The rules decide a policy for the region, which has a client, and its `SETEX` raises. -/
def Blocked (o : Outage) (preds : Region → Option Prediction) (now : ℚ) (a : Agent) (r : Region) :
    Prop :=
  due (preds r) now (a.state r) = true ∧ o.clients r = true ∧ o.down r = true

section Decide

variable {W : Writer} {o : Outage} {l : List Decision} {s t : Tick}
  {preds : Region → Option Prediction} {topUsers : Region → List (Tier × Str × ℚ)} {now : ℚ}

theorem Alike.turn (h : Alike o l s t) {r : Region} (hr : ¬ Blocked o preds now s.agent r) :
    Alike o l (s.turn W o preds topUsers now r) (t.turn W o.over preds topUsers now r) := by
  have hcap := h.checkCapacity W now r (preds r)
  rw [if_neg (by exact hr)] at hcap
  rw [Tick.turn, Tick.turn, andThen_of_none h.raised.1, andThen_of_none h.raised.2]
  exact hcap.checkNoisyNeighbor r (topUsers r)

theorem Alike.raised_turn (h : Alike o l s t) {r : Region} (hr : Blocked o preds now s.agent r) :
    (s.turn W o preds topUsers now r).raised ≠ none := by
  have hcap := h.checkCapacity W now r (preds r)
  rw [if_pos (by exact hr)] at hcap
  rw [Tick.turn, andThen_of_none h.raised.1, checkNoisyNeighbor_of_raised hcap]
  exact hcap

/-- The turns of some regions : none is blocked, and the ticks stay alike, or one is and
raises. -/
theorem Alike.foldl_turn (h : Alike o l s t) (W : Writer) (preds : Region → Option Prediction)
    (topUsers : Region → List (Tier × Str × ℚ)) (now : ℚ) {rs : List Region} (hrs : rs.Nodup) :
    (∀ r ∈ rs, ¬ Blocked o preds now s.agent r) ∧
        Alike o l (rs.foldl (Tick.turn W o preds topUsers now) s)
          (rs.foldl (Tick.turn W o.over preds topUsers now) t) ∨
      (∃ r ∈ rs, Blocked o preds now s.agent r) ∧
        (rs.foldl (Tick.turn W o preds topUsers now) s).raised ≠ none := by
  induction rs generalizing s t with
  | nil => exact Or.inl ⟨fun r hr => absurd hr List.not_mem_nil, h⟩
  | cons q rs ih =>
    obtain ⟨hq, hrs⟩ := List.nodup_cons.mp hrs
    by_cases hblocked : Blocked o preds now s.agent q
    · have hraised : (s.turn W o preds topUsers now q).raised ≠ none := h.raised_turn hblocked
      refine Or.inr ⟨⟨q, List.mem_cons_self, hblocked⟩, ?_⟩
      rwa [List.foldl_cons, foldl_turn_of_raised hraised]
    · -- the turn of `q` leaves what the others depend on
      have hsame : ∀ r ∈ rs, (Blocked o preds now (s.turn W o preds topUsers now q).agent r ↔
          Blocked o preds now s.agent r) := by
        intro r hr
        have hne : r ≠ q := fun heq => hq (heq ▸ hr)
        rw [Blocked, Blocked, state_turn_of_ne s hne]
      rcases ih (h.turn hblocked) hrs with ⟨hnone, halike⟩ | ⟨⟨r, hr, hb⟩, hraised⟩
      · refine Or.inl ⟨?_, halike⟩
        intro r hr
        rcases List.mem_cons.mp hr with rfl | hr
        · exact hblocked
        · exact fun hb => hnone r hr ((hsame r hr).mpr hb)
      · exact Or.inr ⟨⟨r, List.mem_cons_of_mem q hr, (hsame r hr).mp hb⟩, hraised⟩

/-- A tick in which the regions are isolated : it returns, each region outside the outage
receives what it would without the outage, and all that is decided is logged. -/
structure Isolated (W : Writer) (o : Outage) (preds : Region → Option Prediction)
    (topUsers : Region → List (Tier × Str × ℚ)) (now : ℚ) (a : Agent) : Prop where
  returns : (decide W o preds topUsers now a).raised = none
  same : ∀ r, o.down r = false → (decide W o preds topUsers now a).received r =
    (decide W o.over preds topUsers now a).received r
  logged : (decide W o preds topUsers now a).agent.log =
    a.log ++ (decide W o preds topUsers now a).made

theorem alike_start {a : Agent} (h : a.Remembers) : Alike o a.log (start a) (start a) :=
  ⟨⟨rfl, rfl⟩, (List.append_nil a.log).symm, rfl, rfl, rfl, rfl, fun _ _ => rfl, h⟩

/-- **Isolation.** The regions of a tick are isolated exactly if for no region with a client
where `SETEX` raises the throttle rule or the recovery rule applies. -/
theorem isolated_iff (W : Writer) (o : Outage) (preds : Region → Option Prediction)
    (topUsers : Region → List (Tier × Str × ℚ)) (now : ℚ) {a : Agent} (h : a.Remembers) :
    Isolated W o preds topUsers now a ↔ ∀ r, o.clients r = true → o.down r = true →
      due (preds r) now (a.state r) = false := by
  rcases (alike_start (o := o) h).foldl_turn W preds topUsers now
      (show Region.all.Nodup by decide) with ⟨hnone, halike⟩ | ⟨⟨r, -, hb⟩, hraised⟩
  · refine ⟨fun _ r hclient hdown => ?_, fun _ => ?_⟩
    · exact Bool.eq_false_iff.mpr fun hdue => hnone r r.mem_all ⟨hdue, hclient, hdown⟩
    · exact ⟨halike.raised.1, fun r hr => (halike.received r hr).symm, halike.logged⟩
  · refine ⟨fun hiso => absurd hiso.returns hraised, fun hfree => ?_⟩
    exact absurd hb.1 (by rw [show (start a).agent = a from rfl, hfree r hb.2.1 hb.2.2]; simp)

/-- The forecast of a region, which is over 80 % of the capacity. -/
def overload (r : Region) : Option Prediction :=
  if r = .asia then none else some ⟨some 55, str "55.0", false⟩

/-- `us` raises. The throttle of `us` is not logged, and the one of `eu`, which is up, is
never decided. -/
theorem not_isolated :
    let s := decide sampleWriter ⟨fun _ => true, (· = .us)⟩ overload (fun _ => []) 61 (.new 0)
    let t := decide sampleWriter ⟨fun _ => true, fun _ => false⟩ overload (fun _ => []) 61 (.new 0)
    s.raised = some .redis ∧ s.made.length = 1 ∧ s.agent.log = [] ∧
      (s.received .eu).length = 0 ∧ (t.received .eu).length = 1 ∧
      ¬ Isolated sampleWriter ⟨fun _ => true, (· = .us)⟩ overload (fun _ => []) 61 (.new 0) := by
  have hraised : (decide sampleWriter ⟨fun _ => true, (· = .us)⟩ overload (fun _ => []) 61
      (.new 0)).raised = some .redis := by decide +kernel
  refine ⟨hraised, by decide +kernel, by decide +kernel, by decide +kernel, by decide +kernel, ?_⟩
  intro h
  exact absurd (hraised.symm.trans h.returns) (Option.some_ne_none _)

/-- `us` raises while `eu` is throttled and a user of `us` gets an override. -/
theorem isolated_sample :
    Isolated sampleWriter ⟨fun _ => true, (· = .us)⟩
        (fun r => if r = .eu then overload r else none)
        (fun r => if r = .us then [(.free, str "u_1", 2 / 5)] else []) 61 (.new 0) ∧
      (decide sampleWriter ⟨fun _ => true, (· = .us)⟩
        (fun r => if r = .eu then overload r else none)
        (fun r => if r = .us then [(.free, str "u_1", 2 / 5)] else []) 61
        (.new 0)).made.length = 2 := by
  refine ⟨(isolated_iff _ _ _ _ _ (Agent.remembers_new 0)).mpr ?_, by decide +kernel⟩
  intro r _ hdown
  obtain rfl : r = .us := of_decide_eq_true hdown
  rfl

end Decide

/-! ## Without an outage -/

section Up

variable {W : Writer} {now : ℚ}

/-- Every region has a client, and no `SETEX` raises. -/
def noOutage : Outage := ⟨fun _ => true, fun _ => false⟩

theorem agent_writePolicy (W : Writer) (now : ℚ) (s : Tick) (region : Region) {d : Ruling}
    (hd : (d.limitPerMinute = 70 ∧ d.burst = 14 ∧ d.throttled = true) ∨
      (d.limitPerMinute = 100 ∧ d.burst = 20 ∧ d.throttled = false)) :
    (s.writePolicy W noOutage now region d.limitPerMinute d.burst d.reason).agent =
        s.agent.writePolicy W now region d.limitPerMinute d.burst d.reason ∧
      (s.writePolicy W noOutage now region d.limitPerMinute d.burst d.reason).raised =
        s.raised := by
  obtain ⟨w, hw⟩ := exists_writePolicy W s.agent region hd
  rw [writePolicy_of_up (o := noOutage) hw rfl rfl, Agent.writePolicy, hw]
  refine ⟨?_, rfl⟩
  have hredis : (fun r => if Decidable.decide (r = region) then (s.agent.redis r).setex now w
      else s.agent.redis r) =
      Function.update s.agent.redis region ((s.agent.redis region).setex now w) := by
    funext r
    by_cases hr : r = region
    · rw [hr, Function.update_self, if_pos (by simp)]
    · rw [Function.update_of_ne hr, if_neg (by simpa using hr)]
  dsimp only
  rw [← hredis]
  rfl

theorem agent_checkCapacity_eq (W : Writer) (now : ℚ) (a : Agent) (region : Region)
    (pred : Option Prediction) :
    a.checkCapacity W region pred now = match ruling region pred now (a.state region) with
      | none => a
      | some d => (a.writePolicy W now region d.limitPerMinute d.burst d.reason).setState region
          ⟨d.limitPerMinute, now, d.throttled⟩ := by
  cases pred with
  | none => rfl
  | some p =>
    show (if throttles p now (a.state region) then _
      else if recovers p now (a.state region) then _ else a) = _
    dsimp only [ruling, Option.bind_some]
    split_ifs <;> rfl

/-- Where nothing fails, the rules are those of `Decider`, and none raises. -/
structure Agrees (s : Tick) (a : Agent) : Prop where
  agent : s.agent = a
  raised : s.raised = none
  remembers : a.Remembers

theorem Agrees.checkCapacity {s : Tick} {a : Agent} (h : Agrees s a) (region : Region)
    (pred : Option Prediction) :
    Agrees (s.checkCapacity W noOutage region pred now) (a.checkCapacity W region pred now) := by
  obtain ⟨rfl, hraised, hrem⟩ := h
  have hrem' := remembers_checkCapacity hrem W noOutage now region pred
  rw [checkCapacity_eq] at hrem' ⊢
  rw [agent_checkCapacity_eq]
  cases hd : ruling region pred now (s.agent.state region) with
  | none => exact ⟨rfl, hraised, hrem⟩
  | some d =>
    obtain ⟨hagent, hnone⟩ := agent_writePolicy W now s region
      (ruling_cases (hrem region) hd)
    rw [hd] at hrem'
    dsimp only at hrem' ⊢
    rw [andThen_of_none (hnone.trans hraised)] at hrem' ⊢
    have hset : (setState region ⟨d.limitPerMinute, now, d.throttled⟩ (s.writePolicy W noOutage now
        region d.limitPerMinute d.burst d.reason)).agent =
        (s.agent.writePolicy W now region d.limitPerMinute d.burst d.reason).setState region
          ⟨d.limitPerMinute, now, d.throttled⟩ := by
      rw [← hagent]
      rfl
    exact ⟨hset, hnone.trans hraised, hset ▸ hrem'⟩

theorem Agrees.checkTopUser {s : Tick} {a : Agent} (h : Agrees s a) (region : Region)
    (top : Tier × Str × ℚ) :
    Agrees (s.checkTopUser W noOutage region now top) (a.checkTopUser W region now top) := by
  obtain ⟨rfl, hraised, hrem⟩ := h
  obtain ⟨raw, hw⟩ := exists_writeOverride W s.agent region top.1 top.2.1 top.2.2
  rw [Tick.checkTopUser, andThen_of_none hraised, Agent.checkTopUser]
  by_cases hover : Agent.noisyNeighborShare < top.2.2 ∧
      Agent.hysteresisSeconds < now - s.agent.overrides top.2.1
  · rw [if_pos hover, if_pos (by simpa using hover), writeOverride, Agent.writeOverride, hw]
    dsimp only
    rw [andThen_of_none]
    · exact ⟨rfl, hraised, hrem⟩
    · exact hraised
  · rw [if_neg hover, if_neg (by simpa using hover)]
    exact ⟨rfl, hraised, hrem⟩

theorem Agrees.checkNoisyNeighbor {s : Tick} {a : Agent} (h : Agrees s a) (region : Region)
    (tops : List (Tier × Str × ℚ)) :
    Agrees (s.checkNoisyNeighbor W noOutage region tops now)
      (a.checkNoisyNeighbor W region tops now) := by
  induction tops generalizing s a with
  | nil => exact h
  | cons top tops ih => exact ih (h.checkTopUser region top)

/-- Without an outage a tick is `Agent.decide`. -/
theorem agent_decide (W : Writer) (preds : Region → Option Prediction)
    (topUsers : Region → List (Tier × Str × ℚ)) (now : ℚ) {a : Agent} (h : a.Remembers) :
    (decide W noOutage preds topUsers now a).agent = a.decide W preds topUsers now := by
  have hturn : ∀ {s : Tick} {a : Agent} (r : Region), Agrees s a →
      Agrees (s.turn W noOutage preds topUsers now r)
        ((a.checkCapacity W r (preds r) now).checkNoisyNeighbor W r (topUsers r) now) := by
    intro s a r hs
    rw [turn, andThen_of_none hs.raised]
    exact (hs.checkCapacity r (preds r)).checkNoisyNeighbor r (topUsers r)
  have hstart : Agrees (start a) a := ⟨rfl, rfl, h⟩
  exact (hturn .asia (hturn .eu (hturn .us hstart))).agent

end Up

end Tick

end Gdrl
