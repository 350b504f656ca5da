import Gdrl.Lists
import Gdrl.Outage

/-!
# Hysteresis

The decider over any number of calls, at any times and with any forecasts, where all writes
succeed. `History` keeps what it has decided, each decision with the time of its call.

Both its hystereses are a record of one kind : the decisions it is about come more than 60 s
apart, and the time that the decider remembers is not before the last of them (`Paced`).
For the free tier of a region they are throttles and recoveries in turn
(`throttles_and_recoveries`). For a user they are overrides, and as long as the user is
reported at each call, the next one comes before the last has expired (`override_live`).
-/

namespace Gdrl

/-- A call of `Decider.decide`. -/
structure DecideCall where
  now : ℚ
  preds : Region → Option Prediction
  topUsers : Region → List (Tier × Str × ℚ)

/-- The decider and the decisions in its log, with the times of their calls. -/
structure History where
  agent : Agent
  made : List (ℚ × Decision)

namespace History

def new (t₀ : ℚ) : History := ⟨.new t₀, []⟩

/-- A part of a call. What it adds to the log has the time of the call. -/
def part (now : ℚ) (f : Agent → Agent) (h : History) : History :=
  ⟨f h.agent, h.made ++ ((f h.agent).log.drop h.agent.log.length).map (now, ·)⟩

def decide (W : Writer) (h : History) (c : DecideCall) : History :=
  h.part c.now (Agent.decide W c.preds c.topUsers c.now)

def run (W : Writer) (t₀ : ℚ) (cs : List DecideCall) : History := cs.foldl (decide W) (new t₀)

/-! ## The parts of a call -/

theorem part_eq {now : ℚ} {f : Agent → Agent} {h : History} {a : Agent} {ds : List Decision}
    (hf : f h.agent = a) (hlog : a.log = h.agent.log ++ ds) :
    h.part now f = ⟨a, h.made ++ ds.map (now, ·)⟩ := by
  rw [part, hf, hlog, List.drop_left]

theorem part_eq_self {now : ℚ} {f : Agent → Agent} {h : History} (hf : f h.agent = h.agent) :
    h.part now f = h := by
  have hnil : h.agent.log = h.agent.log ++ [] := (List.append_nil _).symm
  rw [part_eq hf hnil, List.map_nil, List.append_nil]

/-- The part only adds to the log. -/
def Appends (f : Agent → Agent) : Prop := ∀ a, ∃ ds, (f a).log = a.log ++ ds

theorem part_comp {f g : Agent → Agent} (hf : Appends f) (hg : Appends g) (now : ℚ)
    (h : History) : h.part now (fun a => g (f a)) = (h.part now f).part now g := by
  obtain ⟨ds, hds⟩ := hf h.agent
  obtain ⟨ds', hds'⟩ := hg (f h.agent)
  have hboth : (g (f h.agent)).log = h.agent.log ++ (ds ++ ds') := by
    rw [hds', hds, List.append_assoc]
  rw [part_eq rfl hboth, part_eq rfl hds, part_eq (h := ⟨f h.agent, _⟩) rfl hds', List.map_append,
    List.append_assoc]

theorem Appends.comp {f g : Agent → Agent} (hf : Appends f) (hg : Appends g) :
    Appends fun a => g (f a) := by
  intro a
  obtain ⟨ds, hds⟩ := hf a
  obtain ⟨ds', hds'⟩ := hg (f a)
  exact ⟨ds ++ ds', by rw [hds', hds, List.append_assoc]⟩

theorem part_foldl {α : Type*} {f : α → Agent → Agent} (hf : ∀ x, Appends (f x)) (now : ℚ)
    (l : List α) : Appends (fun a => l.foldl (fun a x => f x a) a) ∧
      ∀ h : History, h.part now (fun a => l.foldl (fun a x => f x a) a) =
        l.foldl (fun h x => h.part now (f x)) h := by
  induction l with
  | nil =>
    exact ⟨fun a => ⟨[], (List.append_nil _).symm⟩, fun h => part_eq_self rfl⟩
  | cons x l ih =>
    obtain ⟨happ, heq⟩ := ih
    exact ⟨(hf x).comp happ, fun h => (part_comp (hf x) happ now h).trans (heq _)⟩

theorem log_writePolicy (W : Writer) (a : Agent) (now : ℚ) (q : Region) (limit burst : ℤ)
    (reason : Str) : (a.writePolicy W now q limit burst reason).log = a.log ∨
      (a.writePolicy W now q limit burst reason).log =
        a.log ++ [.policy q limit burst reason] := by
  unfold Agent.writePolicy
  split
  · exact Or.inr rfl
  · exact Or.inl rfl

/-- The capacity rules write a policy at most. -/
theorem log_checkCapacity (W : Writer) (q : Region) (pred : Option Prediction) (now : ℚ)
    (a : Agent) : ∃ ds, (a.checkCapacity W q pred now).log = a.log ++ ds ∧
      ∀ d ∈ ds, ∃ limit burst reason, d = .policy q limit burst reason := by
  rw [Tick.agent_checkCapacity_eq]
  split
  · exact ⟨[], by simp⟩
  · rename_i d hd
    rcases log_writePolicy W a now q d.limitPerMinute d.burst d.reason with h | h
    · exact ⟨[], by rw [List.append_nil]; exact h, by simp⟩
    · exact ⟨_, h, by simp⟩

/-- Whether a user gets an override, and what that changes. -/
theorem checkTopUser_cases (W : Writer) (q : Region) (now : ℚ) (a : Agent)
    (top : Tier × Str × ℚ) :
    (a.checkTopUser W q now top = a ∧
      (3 / 10 < top.2.2 → now - a.overrides top.2.1 ≤ 60)) ∨
    (60 < now - a.overrides top.2.1 ∧ ∃ raw, a.checkTopUser W q now top =
      { state := a.state
        overrides := Function.update a.overrides top.2.1 now
        redis := fun r => (a.redis r).setex now ⟨PolicyWriter.overrideKey top.2.1, 120, raw⟩
        log := a.log ++ [.override q top.1 top.2.1 top.2.2] }) := by
  unfold Agent.checkTopUser
  split_ifs with hover
  · simp only [Bool.and_eq_true, decide_eq_true_eq] at hover
    obtain ⟨raw, hraw⟩ := Tick.exists_writeOverride W a q top.1 top.2.1 top.2.2
    refine Or.inr ⟨hover.2, raw, ?_⟩
    rw [Agent.writeOverride, hraw]
  · refine Or.inl ⟨rfl, fun hshare => ?_⟩
    simp only [Bool.and_eq_true, decide_eq_true_eq, not_and, not_lt] at hover
    exact hover hshare

theorem log_checkTopUser (W : Writer) (q : Region) (now : ℚ) (a : Agent)
    (top : Tier × Str × ℚ) : ∃ ds, (a.checkTopUser W q now top).log = a.log ++ ds := by
  rcases checkTopUser_cases W q now a top with ⟨h, -⟩ | ⟨-, raw, h⟩
  · exact ⟨[], by rw [h, List.append_nil]⟩
  · exact ⟨_, congrArg Agent.log h⟩

theorem part_checkTopUser_cases (W : Writer) (q : Region) (now : ℚ) (h : History)
    (top : Tier × Str × ℚ) :
    (h.part now (fun a => a.checkTopUser W q now top) = h ∧
      (3 / 10 < top.2.2 → now - h.agent.overrides top.2.1 ≤ 60)) ∨
    (60 < now - h.agent.overrides top.2.1 ∧ ∃ raw,
      h.part now (fun a => a.checkTopUser W q now top) =
        ⟨{ state := h.agent.state
           overrides := Function.update h.agent.overrides top.2.1 now
           redis := fun r =>
            (h.agent.redis r).setex now ⟨PolicyWriter.overrideKey top.2.1, 120, raw⟩
           log := h.agent.log ++ [.override q top.1 top.2.1 top.2.2] },
          h.made ++ [(now, .override q top.1 top.2.1 top.2.2)]⟩) := by
  refine (checkTopUser_cases W q now h.agent top).imp (And.imp_left fun heq => ?_)
    (And.imp_right fun ⟨raw, heq⟩ => ⟨raw, ?_⟩)
  · exact @part_eq_self now (fun a => a.checkTopUser W q now top) h heq
  · exact @part_eq now (fun a => a.checkTopUser W q now top) h _ _ heq rfl

/-- A call is its parts, one after the other. -/
theorem decide_eq (W : Writer) (h : History) (c : DecideCall) :
    h.decide W c = Region.all.foldl (fun h r => (c.topUsers r).foldl
      (fun h top => h.part c.now fun a => a.checkTopUser W r c.now top)
      (h.part c.now fun a => a.checkCapacity W r (c.preds r) c.now)) h := by
  have hcap : ∀ r, Appends fun a => a.checkCapacity W r (c.preds r) c.now := fun r a =>
    let ⟨ds, hds, _⟩ := log_checkCapacity W r (c.preds r) c.now a
    ⟨ds, hds⟩
  have htops : ∀ r, Appends _ ∧ ∀ h : History, h.part c.now _ = _ := fun r =>
    part_foldl (f := fun top a => a.checkTopUser W r c.now top)
      (fun top a => log_checkTopUser W r c.now a top) c.now (c.topUsers r)
  let turn (r : Region) (a : Agent) : Agent :=
    (a.checkCapacity W r (c.preds r) c.now).checkNoisyNeighbor W r (c.topUsers r) c.now
  have hturn := (part_foldl (f := turn) (fun r => (hcap r).comp (htops r).1) c.now Region.all).2 h
  refine hturn.trans (congrArg (fun f => Region.all.foldl f h) ?_)
  funext h r
  exact (part_comp (hcap r) (htops r).1 c.now h).trans ((htops r).2 _)

/-- What all parts keep, a call keeps. -/
theorem decide_invariant {I : History → Prop} {W : Writer} {c : DecideCall}
    (hcap : ∀ h r, I h → I (h.part c.now fun a => a.checkCapacity W r (c.preds r) c.now))
    (htop : ∀ h r top, I h → I (h.part c.now fun a => a.checkTopUser W r c.now top)) {h : History}
    (hI : I h) : I (h.decide W c) := by
  rw [decide_eq]
  refine List.foldlRecOn _ _ hI fun h hI r _ => ?_
  exact List.foldlRecOn _ _ (hcap h r hI) fun h hI top _ => htop h r top hI

end History

/-! ## A record of times -/

/-- The start and all that follows are more than 60 s apart, and none is behind `last`. -/
structure Paced (t₀ : ℚ) (ts : List ℚ) (last : ℚ) : Prop where
  apart : (t₀ :: ts).Pairwise fun s t => 60 < t - s
  le_last : ∀ t ∈ t₀ :: ts, t ≤ last

theorem Paced.nil (t₀ : ℚ) : Paced t₀ [] t₀ where
  apart := List.pairwise_singleton _ _
  le_last _ ht := (List.mem_singleton.mp ht).le

theorem Paced.concat {t₀ last now : ℚ} {ts : List ℚ} (h : Paced t₀ ts last)
    (hage : 60 < now - last) : Paced t₀ (ts ++ [now]) now := by
  have hbehind : ∀ t ∈ t₀ :: ts, 60 < now - t := fun t ht => by
    linarith [h.le_last t ht]
  constructor
  · rw [← List.cons_append, List.pairwise_append]
    refine ⟨h.apart, List.pairwise_singleton _ _, fun s hs t ht => ?_⟩
    rw [List.mem_singleton.mp ht]
    exact hbehind s hs
  · rw [← List.cons_append]
    intro t ht
    rcases List.mem_append.mp ht with ht | ht
    · linarith [hbehind t ht]
    · exact (List.mem_singleton.mp ht).le

/-! ## Throttles and recoveries -/

/-- A policy that has been written for the free tier of a region. -/
structure PolicyWrite where
  now : ℚ
  limitPerMinute : ℤ
  burst : ℤ
  reason : Str

inductive PolicyKind
  | throttle | recovery
  deriving DecidableEq

/-- Which rule has written the policy, as its reason tells. -/
def PolicyWrite.kind (w : PolicyWrite) : Option PolicyKind :=
  if (str "predicted_spike_").isPrefixOf w.reason || (str "anomaly_spike_").isPrefixOf w.reason then
    some .throttle
  else if (str "recovery_").isPrefixOf w.reason then some .recovery
  else none

/-- The policy that a decision of the log is, where it is one for the region. -/
def policyWrite (r : Region) (e : ℚ × Decision) : Option PolicyWrite :=
  match e.2 with
  | .policy q limit burst reason => if q = r then some ⟨e.1, limit, burst, reason⟩ else none
  | .override .. => none

/-- The policies for the free tier of a region. -/
def History.policies (r : Region) (h : History) : List PolicyWrite :=
  h.made.filterMap (policyWrite r)

namespace Tick

/-- The rules undo each other, not within 60 s. -/
theorem ruling_flips {q : Region} {pred : Option Prediction} {now : ℚ} {st : TierState}
    {d : Ruling} (hd : ruling q pred now st = some d) :
    d.throttled = !st.throttled ∧ 60 < now - st.writtenAt := by
  obtain ⟨p, -, hd⟩ := Option.bind_eq_some_iff.mp hd
  dsimp only at hd
  split_ifs at hd with hthr hrec
  · obtain rfl := Option.some.inj hd
    simp only [throttles, Bool.and_eq_true, Bool.not_eq_true', decide_eq_true_eq] at hthr
    exact ⟨by rw [hthr.1.2]; rfl, hthr.2⟩
  · obtain rfl := Option.some.inj hd
    simp only [recovers, Bool.and_eq_true, decide_eq_true_eq] at hrec
    exact ⟨by rw [hrec.1.1]; rfl, hrec.2⟩

/-- The reason tells the rule. -/
theorem kind_of_ruling {q : Region} {pred : Option Prediction} {now : ℚ} {st : TierState}
    {d : Ruling} (hd : ruling q pred now st = some d) :
    PolicyWrite.kind ⟨now, d.limitPerMinute, d.burst, d.reason⟩ =
      some (if d.throttled then .throttle else .recovery) := by
  obtain ⟨p, -, hd⟩ := Option.bind_eq_some_iff.mp hd
  dsimp only at hd
  split_ifs at hd with hthr hrec
  · obtain rfl := Option.some.inj hd
    unfold PolicyWrite.kind Agent.policyReason Prediction.tag
    cases p.anomaly <;> rfl
  · obtain rfl := Option.some.inj hd
    rfl

end Tick

/-- What the decider remembers of a region's free tier, and the policies it has written
there. -/
structure Steady (t₀ : ℚ) (st : TierState) (ws : List PolicyWrite) : Prop where
  own : st.OwnLimit
  paced : Paced t₀ (ws.map PolicyWrite.now) st.writtenAt
  throttled : st.throttled = decide (ws.length % 2 = 1)
  kind : ∀ i w, ws[i]? = some w → w.kind = some (if i % 2 = 0 then .throttle else .recovery)
  cut : ∀ w ∈ ws, w.kind = some .throttle → w.limitPerMinute = 70 ∧ w.burst = 14

theorem Steady.concat {t₀ now : ℚ} {st : TierState} {ws : List PolicyWrite}
    (h : Steady t₀ st ws) {q : Region} {pred : Option Prediction} {d : Tick.Ruling}
    (hd : Tick.ruling q pred now st = some d) :
    Steady t₀ ⟨d.limitPerMinute, now, d.throttled⟩
      (ws ++ [⟨now, d.limitPerMinute, d.burst, d.reason⟩]) := by
  obtain ⟨hflip, hage⟩ := Tick.ruling_flips hd
  have hkind := Tick.kind_of_ruling hd
  have hthr : d.throttled = decide (ws.length % 2 = 0) := by
    rw [hflip, h.throttled]
    rcases Nat.mod_two_eq_zero_or_one ws.length with h | h <;> rw [h] <;> rfl
  refine ⟨Tick.ownLimit_of_ruling h.own hd now, ?_, ?_, fun i w hw => ?_, fun w hw hkw => ?_⟩
  · rw [List.map_append]
    exact h.paced.concat hage
  · rw [hthr, List.length_append, List.length_singleton]
    exact decide_eq_decide.mpr (by omega)
  · rcases getElem?_concat_cases hw with hw | ⟨rfl, rfl⟩
    · exact h.kind i w hw
    · rw [hkind, hthr]
      simp only [decide_eq_true_eq]
  · rcases List.mem_append.mp hw with hw | hw
    · exact h.cut w hw hkw
    · obtain rfl := List.mem_singleton.mp hw
      rcases Tick.ruling_cases h.own hd with ⟨hlimit, hburst, -⟩ | ⟨-, -, hno⟩
      · exact ⟨hlimit, hburst⟩
      · rw [hkind, hno] at hkw
        exact absurd hkw (by decide)

namespace History

def AllSteady (t₀ : ℚ) (h : History) : Prop := ∀ r, Steady t₀ (h.agent.state r) (h.policies r)

theorem AllSteady.checkCapacity {t₀ : ℚ} {h : History} (hs : h.AllSteady t₀) (W : Writer)
    (q : Region) (pred : Option Prediction) (now : ℚ) :
    (h.part now fun a => a.checkCapacity W q pred now).AllSteady t₀ := by
  cases hd : Tick.ruling q pred now (h.agent.state q) with
  | none =>
    rwa [part_eq_self]
    rw [Tick.agent_checkCapacity_eq, hd]
  | some d =>
    obtain ⟨w, hw⟩ := Tick.exists_writePolicy W h.agent q (Tick.ruling_cases (hs q).own hd)
    have hstep : h.agent.checkCapacity W q pred now =
        (h.agent.writePolicy W now q d.limitPerMinute d.burst d.reason).setState q
          ⟨d.limitPerMinute, now, d.throttled⟩ := by
      rw [Tick.agent_checkCapacity_eq, hd]
    rw [Agent.writePolicy, hw] at hstep
    rw [part_eq hstep rfl]
    intro r
    by_cases hr : r = q
    · subst hr
      simpa [policies, policyWrite, Agent.setState] using (hs r).concat hd
    · simpa [policies, policyWrite, Agent.setState, Ne.symm hr, Function.update_of_ne hr] using hs r

theorem AllSteady.checkTopUser {t₀ : ℚ} {h : History} (hs : h.AllSteady t₀) (W : Writer)
    (q : Region) (now : ℚ) (top : Tier × Str × ℚ) :
    (h.part now fun a => a.checkTopUser W q now top).AllSteady t₀ := by
  rcases part_checkTopUser_cases W q now h top with ⟨heq, -⟩ | ⟨-, raw, heq⟩
  · rwa [heq]
  · rw [heq]
    intro r
    simpa [policies, List.filterMap_cons, policyWrite] using hs r

theorem allSteady_run (W : Writer) (t₀ : ℚ) (cs : List DecideCall) :
    (run W t₀ cs).AllSteady t₀ := by
  refine List.foldlRecOn cs _ (fun r => ?_) fun h hs c _ => ?_
  · exact ⟨rfl, .nil t₀, rfl, by simp [policies, new], by simp [policies, new]⟩
  · exact decide_invariant (fun h r hs => hs.checkCapacity W r (c.preds r) c.now)
      (fun h r top hs => hs.checkTopUser W r c.now top) hs

/-- **No flapping and no ratchet.** The policies for the free tier of a region are throttles
and recoveries in turn, more than 60 s apart and from the start. The region counts as
throttled exactly if the last is a throttle, and all throttles are the same. -/
theorem throttles_and_recoveries (W : Writer) (t₀ : ℚ) (cs : List DecideCall) (r : Region) :
    (∀ i w, ((run W t₀ cs).policies r)[i]? = some w →
      w.kind = some (if i % 2 = 0 then .throttle else .recovery)) ∧
    (t₀ :: ((run W t₀ cs).policies r).map PolicyWrite.now).Pairwise (fun s t => 60 < t - s) ∧
    (((run W t₀ cs).agent.state r).throttled = true ↔
      ∃ w ∈ ((run W t₀ cs).policies r).getLast?, w.kind = some .throttle) ∧
    ∀ w ∈ (run W t₀ cs).policies r, w.kind = some .throttle →
      w.limitPerMinute = 70 ∧ w.burst = 14 := by
  have hs := allSteady_run W t₀ cs r
  refine ⟨hs.kind, hs.paced.apart, ?_, hs.cut⟩
  rw [hs.throttled, decide_eq_true_eq]
  rcases List.eq_nil_or_concat ((run W t₀ cs).policies r) with hnil | ⟨ws, w, hws⟩
  · simp [hnil]
  · have hlast := hs.kind ws.length w (by simp [hws])
    rw [hws]
    simp only [List.concat_eq_append, List.length_append, List.length_singleton,
      List.getLast?_append, List.getLast?_singleton, Option.some_or, Option.mem_def,
      Option.some.injEq, exists_eq_left', hlast]
    split_ifs <;> simp <;> omega

end History

/-! ## Overrides -/

/-- The time of an override, where the decision is one for the user. -/
def overrideTime (u : Str) (e : ℚ × Decision) : Option ℚ :=
  match e.2 with
  | .override _ _ v _ => if v = u then some e.1 else none
  | .policy .. => none

/-- A region and a tier report the user with more than 30 % of the traffic. -/
def DecideCall.Reports (c : DecideCall) (u : Str) : Prop :=
  ∃ r t share, (t, u, share) ∈ c.topUsers r ∧ 3 / 10 < share

/-- Each call is behind the one before, by less than 60 s. -/
def Spaced (cs : List DecideCall) : Prop :=
  cs.IsChain fun c d => c.now < d.now ∧ d.now < c.now + 60

/-- The calls until `t`. -/
def upTo (cs : List DecideCall) (t : ℚ) : List DecideCall := cs.filter fun c => c.now ≤ t

namespace History

/-- When the user has been given an override. -/
def overrideTimes (u : Str) (h : History) : List ℚ := h.made.filterMap (overrideTime u)

/-- The decider remembers the last override of the user, and every region has it. -/
structure Renewed (u : Str) (h : History) : Prop where
  paced : Paced 0 (h.overrideTimes u) (h.agent.overrides u)
  live : h.overrideTimes u ≠ [] → ∀ r, ∃ raw,
    h.agent.redis r (PolicyWriter.overrideKey u) = some (raw, h.agent.overrides u + 120)

/-- A policy is no override, and its key is none. -/
theorem overrides_writePolicy (W : Writer) (a : Agent) (now : ℚ) (q : Region) (limit burst : ℤ)
    (reason : Str) (u : Str) :
    (a.writePolicy W now q limit burst reason).overrides = a.overrides ∧
      ∀ r, (a.writePolicy W now q limit burst reason).redis r (PolicyWriter.overrideKey u) =
        a.redis r (PolicyWriter.overrideKey u) := by
  unfold Agent.writePolicy
  split
  · rename_i w hw
    refine ⟨rfl, fun r => ?_⟩
    by_cases hr : r = q
    · subst hr
      dsimp only
      rw [Function.update_self, Strings.setex_of_ne]
      rw [(PolicyWriter.writePolicy_ok hw).1]
      exact PolicyWriter.overrideKey_ne u r .free
    · dsimp only
      rw [Function.update_of_ne hr]
  · exact ⟨rfl, fun _ => rfl⟩

theorem overrides_checkCapacity (W : Writer) (a : Agent) (now : ℚ) (q : Region)
    (pred : Option Prediction) (u : Str) :
    (a.checkCapacity W q pred now).overrides = a.overrides ∧
      ∀ r, (a.checkCapacity W q pred now).redis r (PolicyWriter.overrideKey u) =
        a.redis r (PolicyWriter.overrideKey u) := by
  rw [Tick.agent_checkCapacity_eq]
  split
  · exact ⟨rfl, fun _ => rfl⟩
  · rename_i d hd
    exact overrides_writePolicy W a now q d.limitPerMinute d.burst d.reason u

theorem overrideTimes_part_checkCapacity (W : Writer) (q : Region) (pred : Option Prediction)
    (now : ℚ) (h : History) (u : Str) :
    (h.part now fun a => a.checkCapacity W q pred now).overrideTimes u = h.overrideTimes u := by
  obtain ⟨ds, hds, hpol⟩ := log_checkCapacity W q pred now h.agent
  have hnone : (ds.map (now, ·)).filterMap (overrideTime u) = [] := by
    refine List.filterMap_eq_nil_iff.mpr fun e he => ?_
    obtain ⟨d, hd, rfl⟩ := List.mem_map.mp he
    obtain ⟨limit, burst, reason, rfl⟩ := hpol d hd
    rfl
  rw [@part_eq now (fun a => a.checkCapacity W q pred now) h _ _ rfl hds, overrideTimes,
    List.filterMap_append, hnone, List.append_nil]
  rfl

theorem Renewed.checkCapacity {u : Str} {h : History} (hr : h.Renewed u) (W : Writer) (q : Region)
    (pred : Option Prediction) (now : ℚ) :
    (h.part now fun a => a.checkCapacity W q pred now).Renewed u := by
  have htimes := overrideTimes_part_checkCapacity W q pred now h u
  obtain ⟨hover, hredis⟩ := overrides_checkCapacity W h.agent now q pred u
  constructor
  · rw [htimes]
    show Paced 0 _ ((h.agent.checkCapacity W q pred now).overrides u)
    rw [hover]
    exact hr.paced
  · rw [htimes]
    intro hne r
    show ∃ raw, (h.agent.checkCapacity W q pred now).redis r _ =
      some (raw, (h.agent.checkCapacity W q pred now).overrides u + 120)
    rw [hredis, hover]
    exact hr.live hne r

theorem Renewed.checkTopUser {u : Str} {h : History} (hr : h.Renewed u) (W : Writer) (q : Region)
    (now : ℚ) (top : Tier × Str × ℚ) :
    (h.part now fun a => a.checkTopUser W q now top).Renewed u := by
  rcases part_checkTopUser_cases W q now h top with ⟨heq, -⟩ | ⟨hage, raw, heq⟩
  · rwa [heq]
  rw [heq]
  by_cases hu : top.2.1 = u
  · subst hu
    constructor
    · simpa [overrideTimes, List.filterMap_cons, overrideTime] using hr.paced.concat hage
    · intro _ r
      refine ⟨raw, ?_⟩
      dsimp only
      rw [Strings.setex, if_pos rfl, Function.update_self]
      norm_num
  · constructor
    · simpa [overrideTimes, List.filterMap_cons, overrideTime, hu,
        Function.update_of_ne (Ne.symm hu)] using hr.paced
    · intro hne r
      have hkey : PolicyWriter.overrideKey u ≠ PolicyWriter.overrideKey top.2.1 :=
        fun h => hu (List.append_cancel_left h).symm
      have hne' : h.overrideTimes u ≠ [] := by
        simpa [overrideTimes, List.filterMap_cons, overrideTime, hu] using hne
      dsimp only
      rw [Strings.setex_of_ne _ _ hkey, Function.update_of_ne (Ne.symm hu)]
      exact hr.live hne' r

theorem renewed_run (W : Writer) (t₀ : ℚ) (cs : List DecideCall) (u : Str) :
    (run W t₀ cs).Renewed u := by
  refine List.foldlRecOn cs _ ⟨.nil 0, fun hne => absurd rfl hne⟩ fun h hr c _ => ?_
  exact decide_invariant (I := Renewed u) (fun h r hr => hr.checkCapacity W r (c.preds r) c.now)
    (fun h r top hr => hr.checkTopUser W r c.now top) hr

/-! ## While the user is reported -/

/-- The last override of the user is at most 60 s old, or there was none in the first 60 s. -/
def Fresh (u : Str) (now : ℚ) (h : History) : Prop := now - h.agent.overrides u ≤ 60

theorem Fresh.checkCapacity {u : Str} {now : ℚ} {h : History} (hf : h.Fresh u now) (W : Writer)
    (q : Region) (pred : Option Prediction) :
    (h.part now fun a => a.checkCapacity W q pred now).Fresh u now := by
  show now - (h.agent.checkCapacity W q pred now).overrides u ≤ 60
  rw [(overrides_checkCapacity W h.agent now q pred u).1]
  exact hf

/-- Whoever is reported has a fresh override behind. -/
theorem fresh_checkTopUser {u : Str} {now : ℚ} {h : History} {top : Tier × Str × ℚ} (W : Writer)
    (q : Region) (hf : h.Fresh u now ∨ top.2.1 = u ∧ 3 / 10 < top.2.2) :
    (h.part now fun a => a.checkTopUser W q now top).Fresh u now := by
  rcases part_checkTopUser_cases W q now h top with ⟨heq, hno⟩ | ⟨-, raw, heq⟩
  · rw [heq]
    rcases hf with hf | ⟨rfl, hshare⟩
    · exact hf
    · exact hno hshare
  · rw [heq, Fresh]
    dsimp only
    by_cases hu : u = top.2.1
    · rw [hu, Function.update_self]
      norm_num
    · rw [Function.update_of_ne hu]
      exact hf.resolve_right fun h => hu h.1.symm

theorem fresh_decide {u : Str} {c : DecideCall} (hc : c.Reports u) (W : Writer) (h : History) :
    (h.decide W c).Fresh u c.now := by
  obtain ⟨r, t, share, htop, hshare⟩ := hc
  have hkeep : ∀ (h : History) r top, h.Fresh u c.now →
      (h.part c.now fun a => a.checkTopUser W r c.now top).Fresh u c.now :=
    fun h r top hf => fresh_checkTopUser W r (Or.inl hf)
  rw [decide_eq]
  refine foldl_of_mem (fun h r hf => ?_) r.mem_all (fun h => ?_) h
  · exact List.foldlRecOn _ _ (hf.checkCapacity W r (c.preds r)) fun h hf top _ => hkeep h r top hf
  · exact foldl_of_mem (fun h top hf => hkeep h r top hf) htop
      (fun h => fresh_checkTopUser W r (Or.inr ⟨rfl, hshare⟩)) _

end History

theorem Spaced.pairwise {cs : List DecideCall} (h : Spaced cs) :
    cs.Pairwise fun c d => c.now < d.now := by
  let before (c d : DecideCall) : Prop := c.now < d.now
  have htrans : Trans before before before := ⟨lt_trans⟩
  have hchain : cs.IsChain before := h.imp fun _ _ hcd => hcd.1
  exact hchain.pairwise

/-- Between two of the calls the last one is less than 60 s ago. -/
theorem exists_last_upTo {cs : List DecideCall} (h : Spaced cs) {t : ℚ}
    (hfrom : ∃ c ∈ cs, c.now ≤ t) (hto : ∃ c ∈ cs, t ≤ c.now) :
    ∃ ds c, upTo cs t = ds ++ [c] ∧ c ∈ cs ∧ t < c.now + 60 := by
  induction cs with
  | nil => simp at hfrom
  | cons c cs ih =>
    have hbehind : ∀ d ∈ cs, c.now < d.now := (List.pairwise_cons.mp h.pairwise).1
    have hc : c.now ≤ t := by
      obtain ⟨d, hd, hle⟩ := hfrom
      rcases List.mem_cons.mp hd with rfl | hd
      · exact hle
      · exact (hbehind d hd).le.trans hle
    have hcons : upTo (c :: cs) t = c :: upTo cs t := List.filter_cons_of_pos (by simpa using hc)
    cases cs with
    | nil =>
      obtain ⟨d, hd, hle⟩ := hto
      obtain rfl := List.mem_singleton.mp hd
      exact ⟨[], d, hcons, hd, by linarith⟩
    | cons d cs =>
      obtain ⟨⟨hlt, hgap⟩, hrest⟩ := List.isChain_cons_cons.mp h
      by_cases hd : d.now ≤ t
      · have hto' : ∃ c ∈ d :: cs, t ≤ c.now := by
          obtain ⟨e, he, hle⟩ := hto
          rcases List.mem_cons.mp he with rfl | he
          · exact absurd (hlt.trans_le (hd.trans hle)) (lt_irrefl _)
          · exact ⟨e, he, hle⟩
        obtain ⟨ds, e, heq, he, hage⟩ := ih hrest ⟨d, List.mem_cons_self, hd⟩ hto'
        exact ⟨c :: ds, e, by rw [hcons, heq, List.cons_append], List.mem_cons_of_mem c he, hage⟩
      · have hnone : upTo (d :: cs) t = [] := by
          refine List.filter_eq_nil_iff.mpr fun e he => ?_
          have hde : d.now ≤ e.now := by
            rcases List.mem_cons.mp he with rfl | he
            · exact le_rfl
            · exact ((List.pairwise_cons.mp (Spaced.pairwise hrest)).1 e he).le
          simp only [decide_eq_true_eq]
          linarith
        exact ⟨[], c, by rw [hcons, hnone, List.nil_append], List.mem_cons_self, by linarith⟩

namespace History

/-- **Overrides cover without spam.** The overrides of a user are more than 60 s apart. While
the user is reported at every call, from the first override on, every region has one. -/
theorem override_covers {cs : List DecideCall} (hspaced : Spaced cs) (W : Writer) (t₀ : ℚ)
    (u : Str) :
    ((run W t₀ cs).overrideTimes u).Pairwise (fun s t => 60 < t - s) ∧
    ∀ before reported after, cs = before ++ (reported ++ after) →
      (∀ c ∈ reported, c.Reports u) →
      ∀ t, (∃ c ∈ reported, c.now ≤ t) → (∃ c ∈ reported, t ≤ c.now) →
        (run W t₀ (upTo cs t)).overrideTimes u ≠ [] →
        ∀ r, (((run W t₀ (upTo cs t)).agent.redis r).get t
          (PolicyWriter.overrideKey u)).isSome = true := by
  refine ⟨(List.pairwise_cons.mp (renewed_run W t₀ cs u).paced.apart).2, ?_⟩
  rintro before reported after rfl hreported t hfrom hto hfirst r
  obtain ⟨-, hpost, hpre⟩ := List.pairwise_append.mp hspaced.pairwise
  obtain ⟨-, -, hmid⟩ := List.pairwise_append.mp hpost
  have hspaced' : Spaced reported := (List.IsChain.right_of_append hspaced).left_of_append
  obtain ⟨ds, c, heq, hc, hage⟩ := exists_last_upTo hspaced' hfrom hto
  -- the last call before `t` is one that reports the user
  have hlast : upTo (before ++ (reported ++ after)) t = (before ++ ds) ++ [c] := by
    have hbefore : upTo before t = before := by
      refine List.filter_eq_self.mpr fun b hb => ?_
      obtain ⟨d, hd, hle⟩ := hfrom
      have := hpre b hb d (List.mem_append_left _ hd)
      simp only [decide_eq_true_eq]
      linarith
    have hafter : upTo after t = [] := by
      refine List.filter_eq_nil_iff.mpr fun a ha => ?_
      obtain ⟨d, hd, hle⟩ := hto
      have := hmid d hd a ha
      simp only [decide_eq_true_eq]
      linarith
    rw [upTo, List.filter_append, List.filter_append]
    show upTo before t ++ (upTo reported t ++ upTo after t) = _
    rw [hbefore, hafter, heq, List.append_nil, List.append_assoc]
  rw [hlast] at hfirst ⊢
  have hfresh : (run W t₀ (before ++ ds ++ [c])).Fresh u c.now := by
    rw [run, List.foldl_append, List.foldl_cons, List.foldl_nil]
    exact fresh_decide (hreported c hc) W _
  obtain ⟨raw, hraw⟩ := (renewed_run W t₀ (before ++ ds ++ [c]) u).live hfirst r
  rw [Strings.get_eq hraw, if_pos]
  · rfl
  · unfold Fresh at hfresh
    linarith

/-- Calls that report one user from two regions. -/
def sampleCalls : List DecideCall :=
  [100, 150, 200].map fun t => ⟨t, fun _ => none, fun r =>
    if r = .asia then [] else [(.free, str "u_1", 2 / 5)]⟩

/-- The first override is there until the second. -/
theorem override_covers_sample :
    (run sampleWriter 0 sampleCalls).overrideTimes (str "u_1") = [100, 200] ∧
      (((run sampleWriter 0 (upTo sampleCalls 199)).agent.redis .asia).get 199
        (PolicyWriter.overrideKey (str "u_1"))).isSome = true := by
  have hspaced : Spaced sampleCalls := by
    simp only [Spaced, sampleCalls, List.map_cons, List.map_nil, List.isChain_cons_cons,
      List.isChain_singleton]
    norm_num
  refine ⟨by decide +kernel, ?_⟩
  refine (override_covers hspaced sampleWriter 0 (str "u_1")).2 [] sampleCalls [] (by simp) ?_ 199
    ?_ ?_ (by decide +kernel) .asia
  · intro c hc
    obtain ⟨t, -, rfl⟩ := List.mem_map.mp hc
    exact ⟨.us, .free, 2 / 5, by simp, by norm_num⟩
  · exact ⟨_, List.mem_cons_self, by norm_num⟩
  · refine ⟨_, List.mem_cons_of_mem _ (List.mem_cons_of_mem _ List.mem_cons_self), by norm_num⟩

end History

end Gdrl
