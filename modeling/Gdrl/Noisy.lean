import Gdrl.Gateway
import Gdrl.Decider
import Mathlib.Algebra.BigOperators.Group.List.Basic

/-!
# The noisy neighbour

A gateway that has read a user's slots sets the user's gauge if the sum is at least half
the tier's global limit, which bounds the number of series. It never clears a gauge. The
agent's client divides each tier's largest gauge by the sum of the tier's gauges
(`topUserShare`), and the decider gives an override to a user with a share above 30 %.

`Watch` puts the three together. Counts are integers here and shares are exact.
-/

namespace Gdrl

/-- The labels of an `rl_counter_value` series. -/
structure Labels where
  region : Region
  tier : Tier
  userId : UserId
  deriving DecidableEq

/-- The value of a series, with the request that has set it and that request's window,
which no function looks at. -/
structure Gauge where
  value : ℤ
  request : ℕ
  windowId : ℤ
  deriving DecidableEq

namespace PrometheusClient

/-- A row of `rl_counter_value` goes to its region and tier. The names are never empty. -/
def group (g : Dict (Region × Tier) (Dict UserId ℤ)) (row : Labels × Gauge) :
    Dict (Region × Tier) (Dict UserId ℤ) :=
  let k := (row.1.region, row.1.tier)
  g.set k (((g.get? k).getD Dict.empty).set row.1.userId row.2.value)

/-- The first user with the largest value, and its share. -/
def topUser (users : Dict UserId ℤ) : Option (UserId × ℚ) :=
  let total := (users.entries.map Prod.snd).sum
  if total = 0 then none else (users.entries.maxOn? Prod.snd).map fun e => (e.1, e.2 / total)

/-- `PrometheusClient.top_user_share` of one region. -/
def topUserShare (rows : List (Labels × Gauge)) (r : Region) : List (Tier × Str × ℚ) :=
  ((rows.foldl group Dict.empty).entries.filter fun e => e.1.1 = r).filterMap fun e =>
    (topUser e.2).map fun t => (e.1.2, t.1.val, t.2)

/-! ## Shares -/

/-- The users of a tier in a region with their values. -/
def series (rows : List (Labels × Gauge)) (k : Region × Tier) : List (UserId × ℤ) :=
  (rows.filter fun row => (row.1.region, row.1.tier) = k).map fun row =>
    (row.1.userId, row.2.value)

theorem series_cons (row : Labels × Gauge) (rows : List (Labels × Gauge)) (k : Region × Tier) :
    series (row :: rows) k = if (row.1.region, row.1.tier) = k then
      (row.1.userId, row.2.value) :: series rows k else series rows k := by
  rw [series, List.filter_cons]
  by_cases hk : (row.1.region, row.1.tier) = k
  · rw [if_pos (by simpa using hk), if_pos hk]
    rfl
  · rw [if_neg (by simpa using hk), if_neg hk]
    rfl

theorem get?_foldl_group (rows : List (Labels × Gauge))
    (g : Dict (Region × Tier) (Dict UserId ℤ)) (k : Region × Tier) :
    ((rows.foldl group g).get? k).getD Dict.empty =
      (series rows k).foldl (fun d e => d.set e.1 e.2) ((g.get? k).getD Dict.empty) := by
  induction rows generalizing g with
  | nil => rfl
  | cons row rows ih =>
    rw [List.foldl_cons, ih, series_cons, group, Dict.get?_set]
    by_cases hk : (row.1.region, row.1.tier) = k
    · rw [if_pos hk, if_pos hk.symm, hk]
      rfl
    · rw [if_neg hk, if_neg (Ne.symm hk)]

theorem nodup_series {rows : List (Labels × Gauge)} (h : (rows.map Prod.fst).Nodup)
    (k : Region × Tier) : ((series rows k).map Prod.fst).Nodup := by
  have hinj := List.inj_on_of_nodup_map h
  rw [series, List.map_map]
  refine List.Nodup.map_on (fun x hx y hy heq => ?_) (h.of_map.filter _)
  obtain ⟨hx, hkx⟩ := List.mem_filter.mp hx
  obtain ⟨hy, hky⟩ := List.mem_filter.mp hy
  obtain ⟨hr, ht⟩ := Prod.mk.inj ((of_decide_eq_true hkx).trans (of_decide_eq_true hky).symm)
  refine hinj hx hy ?_
  obtain ⟨⟨r, t, u⟩, g⟩ := x
  obtain ⟨⟨r', t', u'⟩, g'⟩ := y
  exact congr_arg₂ (fun f (u : UserId) => f u) (congr_arg₂ Labels.mk hr ht) heq

/-- A share that the client reports is the share of a series in the sum of its tier. -/
theorem mem_topUserShare {rows : List (Labels × Gauge)} (h : (rows.map Prod.fst).Nodup)
    {r : Region} {t : Tier} {u : Str} {share : ℚ} (hmem : (t, u, share) ∈ topUserShare rows r) :
    ∃ row ∈ rows, row.1.region = r ∧ row.1.tier = t ∧ row.1.userId.val = u ∧
      share = row.2.value / ((series rows (r, t)).map Prod.snd).sum := by
  obtain ⟨⟨k, users⟩, he, htop⟩ := List.mem_filterMap.mp hmem
  obtain ⟨hentry, hr⟩ := List.mem_filter.mp he
  obtain ⟨x, hx, heq⟩ := Option.map_eq_some_iff.mp htop
  obtain ⟨ht, hpair⟩ := Prod.mk.inj heq
  obtain ⟨rfl, rfl⟩ := Prod.mk.inj hpair
  obtain rfl : k.2 = t := ht
  obtain rfl : k.1 = r := of_decide_eq_true hr
  have husers : users.entries = series rows k := by
    have hget := get?_foldl_group rows Dict.empty k
    rw [Dict.mem_entries.mp hentry] at hget
    have hof : users = Dict.ofPairs (series rows k) := hget
    rw [hof, Dict.entries_ofPairs (nodup_series h k)]
  rw [topUser] at hx
  split_ifs at hx with htotal
  obtain ⟨e, hmax, rfl⟩ := Option.map_eq_some_iff.mp hx
  have hmem : e ∈ series rows k := husers ▸ List.maxOn?_mem hmax
  obtain ⟨row, hrow, rfl⟩ := List.mem_map.mp hmem
  obtain ⟨hrow, hk⟩ := List.mem_filter.mp hrow
  have hk : (row.1.region, row.1.tier) = k := of_decide_eq_true hk
  exact ⟨row, hrow, congrArg Prod.fst hk, congrArg Prod.snd hk, rfl, by rw [husers]⟩

/-- The sum of a tier does not depend on the order of the rows. -/
theorem sum_series_perm {rows rows' : List (Labels × Gauge)} (h : rows.Perm rows')
    (k : Region × Tier) :
    ((series rows k).map Prod.snd).sum = ((series rows' k).map Prod.snd).sum :=
  (((h.filter _).map _).map _).sum_eq

end PrometheusClient

/-! ## What the decider logs -/

namespace Agent

/-- The decisions of a tick are behind the ones before, and an override goes to a user whose
share is above the threshold. -/
structure Logged (topUsers : Region → List (Tier × Str × ℚ)) (a a' : Agent) : Prop where
  log : ∃ ds, a'.log = a.log ++ ds ∧ ∀ r t u share, Decision.override r t u share ∈ ds →
    (t, u, share) ∈ topUsers r ∧ noisyNeighborShare < share

section Logged

variable {topUsers : Region → List (Tier × Str × ℚ)} {a a' a'' : Agent}

theorem Logged.refl : Logged topUsers a a := ⟨[], by simp⟩

theorem Logged.trans (h : Logged topUsers a a') (h' : Logged topUsers a' a'') :
    Logged topUsers a a'' := by
  obtain ⟨ds, hds, hmem⟩ := h.log
  obtain ⟨ds', hds', hmem'⟩ := h'.log
  refine ⟨ds ++ ds', by rw [hds', hds, List.append_assoc], fun r t u share hx => ?_⟩
  rcases List.mem_append.mp hx with hx | hx
  · exact hmem r t u share hx
  · exact hmem' r t u share hx

theorem Logged.setState (h : Logged topUsers a a') (r : Region) (st : TierState) :
    Logged topUsers a (a'.setState r st) := ⟨h.log⟩

theorem logged_writePolicy (W : Writer) (a : Agent) (now : ℚ) (r : Region) (limit burst : ℤ)
    (reason : Str) : Logged topUsers a (a.writePolicy W now r limit burst reason) := by
  unfold writePolicy
  split
  · exact ⟨_, rfl, by simp⟩
  · exact .refl

theorem logged_checkCapacity (W : Writer) (r : Region) (pred : Option Prediction) (now : ℚ)
    (a : Agent) : Logged topUsers a (a.checkCapacity W r pred now) := by
  unfold checkCapacity
  split
  · exact .refl
  · dsimp only
    split_ifs
    · exact (logged_writePolicy W a now r _ _ _).setState r _
    · exact (logged_writePolicy W a now r _ _ _).setState r _
    · exact .refl

theorem logged_checkTopUser (W : Writer) (r : Region) (now : ℚ) (a : Agent) {top : Tier × Str × ℚ}
    (htop : top ∈ topUsers r) : Logged topUsers a (a.checkTopUser W r now top) := by
  unfold checkTopUser
  split_ifs with h
  · have hshare : noisyNeighborShare < top.2.2 := of_decide_eq_true (Bool.and_eq_true_iff.mp h).1
    dsimp only [writeOverride]
    split
    · refine ⟨_, rfl, fun r' t u share hx => ?_⟩
      obtain ⟨rfl, rfl, rfl, rfl⟩ := Decision.override.inj (List.mem_singleton.mp hx)
      exact ⟨htop, hshare⟩
    · exact ⟨[], by simp⟩
  · exact .refl

theorem logged_checkNoisyNeighbor (W : Writer) (r : Region) {tops : List (Tier × Str × ℚ)}
    (htops : ∀ top ∈ tops, top ∈ topUsers r) (now : ℚ) (a : Agent) :
    Logged topUsers a (a.checkNoisyNeighbor W r tops now) := by
  induction tops generalizing a with
  | nil => exact .refl
  | cons top tops ih =>
    have hhead := logged_checkTopUser W r now a (htops top List.mem_cons_self)
    exact hhead.trans (ih (fun x hx => htops x (List.mem_cons_of_mem top hx)) _)

theorem logged_decide (W : Writer) (preds : Region → Option Prediction) (now : ℚ) (a : Agent) :
    Logged topUsers a (a.decide W preds topUsers now) := by
  have hregion : ∀ (a : Agent) r, Logged topUsers a
      ((a.checkCapacity W r (preds r) now).checkNoisyNeighbor W r (topUsers r) now) :=
    fun a r => (logged_checkCapacity W r (preds r) now a).trans
      (logged_checkNoisyNeighbor W r (fun _ h => h) now _)
  exact (hregion a .us).trans ((hregion _ .eu).trans (hregion _ .asia))

end Logged

end Agent

/-! ## Gateways and agent -/

/-- The gateways, their gauges and the agent. -/
structure Watch where
  cluster : Cluster
  gauges : Dict Labels Gauge
  agent : Agent

namespace Watch

inductive Event
  | gateway (e : Cluster.Event)
  /-- A tick of the agent. `rows` is what Prometheus returns. -/
  | tick (now : ℚ) (preds : Region → Option Prediction) (rows : List (Labels × Gauge))

/-- The gauge that a step of the gateways sets : behind `HGETALL`, if the sum is at least
half the global limit. -/
def sample (s : Cluster) : Cluster.Event → Option (Labels × Gauge)
  | .read i _ out =>
    (s.checkAt i .published).bind fun c =>
      let sum := (s.globals c.region c.key).goSum
      if out = .ok ∧ c.pol.globalLimit ≤ wrap64 (sum * 2) then
        some (⟨c.region, c.tier, c.userId⟩, ⟨sum, i, c.windowId⟩)
      else none
  | _ => none

def Event.sample (s : Watch) : Event → Option (Labels × Gauge)
  | .gateway e => Watch.sample s.cluster e
  | .tick .. => none

/-- One step. Prometheus returns the current gauges, in any order. -/
def step (W : Writer) (s : Watch) : Event → Option Watch
  | .gateway e => (s.cluster.step e).map fun c =>
    { s with
      cluster := c
      gauges := (sample s.cluster e).elim s.gauges fun g => s.gauges.set g.1 g.2 }
  | .tick now preds rows =>
    if rows.Perm s.gauges.entries then
      some { s with agent := s.agent.decide W preds (PrometheusClient.topUserShare rows) now }
    else none

/-- Gateways at their start and a new agent. -/
def init (t₀ : ℚ) : Watch := ⟨.init, Dict.empty, .new t₀⟩

theorem step_gauges {W : Writer} {s s' : Watch} {e : Event} (h : s.step W e = some s') :
    s'.gauges = (e.sample s).elim s.gauges fun g => s.gauges.set g.1 g.2 := by
  cases e with
  | gateway e =>
    obtain ⟨c, -, rfl⟩ := Option.map_eq_some_iff.mp h
    rfl
  | tick now preds rows =>
    rw [step] at h
    split_ifs at h
    obtain rfl := Option.some.inj h
    rfl

/-- A gauge is the last that its user's requests have set : one of them has read the sum
behind the events `pre`, and no later one has set it. -/
def Sampled (W : Writer) (t₀ : ℚ) (es : List Event) (s : Watch) (g : Labels × Gauge) : Prop :=
  ∃ pre nowMs post m m' c, es = pre ++ .gateway (.read g.2.request nowMs .ok) :: post ∧
    Run (Steps (step W)) (init t₀) pre m ∧
    m.cluster.checkAt g.2.request .published = some c ∧
    g.1 = ⟨c.region, c.tier, c.userId⟩ ∧ g.2.windowId = c.windowId ∧
    g.2.value = (m.cluster.globals c.region c.key).goSum ∧
    c.pol.globalLimit ≤ wrap64 (g.2.value * 2) ∧
    m.step W (.gateway (.read g.2.request nowMs .ok)) = some m' ∧
    Run (fun s e s' => s.step W e = some s' ∧ ∀ x ∈ e.sample s, x.1 ≠ g.1) m' post s

/-- What a step samples. -/
theorem sample_eq_some {s : Watch} {e : Event} {g : Labels × Gauge} (h : e.sample s = some g) :
    ∃ nowMs c, e = .gateway (.read g.2.request nowMs .ok) ∧
      s.cluster.checkAt g.2.request .published = some c ∧
      g.1 = ⟨c.region, c.tier, c.userId⟩ ∧ g.2.windowId = c.windowId ∧
      g.2.value = (s.cluster.globals c.region c.key).goSum ∧
      c.pol.globalLimit ≤ wrap64 (g.2.value * 2) := by
  unfold Event.sample at h
  split at h
  · unfold sample at h
    split at h
    · obtain ⟨c, hc, h⟩ := Option.bind_eq_some_iff.mp h
      dsimp only at h
      split_ifs at h with hif
      obtain rfl := Option.some.inj h
      obtain ⟨rfl, hle⟩ := hif
      exact ⟨_, c, rfl, hc, rfl, rfl, rfl, hle⟩
    · exact absurd h (by simp)
  · exact absurd h (by simp)

theorem sampled_of_run {W : Writer} {t₀ : ℚ} {es : List Event} {s : Watch}
    (h : Run (Steps (step W)) (init t₀) es s) : ∀ g ∈ s.gauges.entries, Sampled W t₀ es s g := by
  induction es using List.reverseRecOn generalizing s with
  | nil =>
    cases h
    exact fun g hg => absurd hg List.not_mem_nil
  | append_singleton es e ih =>
    obtain ⟨m, hm, hlast⟩ := h.split
    cases hlast with
    | cons hstep hnil =>
      cases hnil
      intro g hg
      rw [step_gauges hstep] at hg
      cases hx : e.sample m with
      | none =>
        rw [hx] at hg
        obtain ⟨pre, nowMs, post, m₁, m₂, c, rfl, h1, h2, h3, h4, h5, h6, h7, h8⟩ := ih hm g hg
        refine ⟨pre, nowMs, post ++ [e], m₁, m₂, c, by simp, h1, h2, h3, h4, h5, h6, h7, ?_⟩
        exact h8.append (.cons ⟨hstep, by simp [hx]⟩ (.nil s))
      | some x =>
        rw [hx] at hg
        have hget : (m.gauges.set x.1 x.2).get? g.1 = some g.2 := Dict.mem_entries.mp hg
        rw [Dict.get?_set] at hget
        split_ifs at hget with hl
        · obtain rfl : x = g := Prod.ext hl.symm (Option.some.inj hget)
          obtain ⟨nowMs, c, rfl, h2, h3, h4, h5, h6⟩ := sample_eq_some hx
          exact ⟨es, nowMs, [], m, s, c, rfl, hm, h2, h3, h4, h5, h6, hstep, .nil s⟩
        · have hg' : g ∈ m.gauges.entries := Dict.mem_entries.mpr hget
          obtain ⟨pre, nowMs, post, m₁, m₂, c, rfl, h1, h2, h3, h4, h5, h6, h7, h8⟩ := ih hm g hg'
          refine ⟨pre, nowMs, post ++ [e], m₁, m₂, c, by simp, h1, h2, h3, h4, h5, h6, h7, ?_⟩
          refine h8.append (.cons ⟨hstep, fun y hy => ?_⟩ (.nil s))
          obtain rfl : x = y := by simpa [hx] using hy
          exact Ne.symm hl

/-- The gauges of a tier in a region added up. -/
def total (s : Watch) (r : Region) (t : Tier) : ℤ :=
  ((PrometheusClient.series s.gauges.entries (r, t)).map Prod.snd).sum

/-- **The noisy neighbour.** A tick that gives an override to a user because of a tier and a
region, with no gauge there from an earlier window, finds a gauge of the user there. A
request of the user that was counted in the current window has set it, the last to read a
sum of at least half the global limit, and this sum is more than 30 % of the sums that
have been read so for the users of that tier and region. -/
theorem override_sound {W : Writer} {t₀ : ℚ} {es : List Event} {s s' : Watch}
    (hrun : Run (Steps (step W)) (init t₀) es s) {now : ℚ} {preds : Region → Option Prediction}
    {rows : List (Labels × Gauge)} (hstep : s.step W (.tick now preds rows) = some s')
    {ds : List Decision} (hlog : s'.agent.log = s.agent.log ++ ds) {r : Region} {t : Tier}
    {u : Str} {share : ℚ} (ho : .override r t u share ∈ ds)
    (hfresh : ∀ g ∈ s.gauges.entries, g.1.region = r → g.1.tier = t → g.2.windowId = ⌊now / 60⌋) :
    ∃ g ∈ s.gauges.entries, g.1.region = r ∧ g.1.tier = t ∧ g.1.userId.val = u ∧
      Sampled W t₀ es s g ∧ g.2.windowId = ⌊now / 60⌋ ∧
      (3 / 10 : ℚ) < g.2.value / s.total r t := by
  rw [step] at hstep
  split_ifs at hstep with hperm
  obtain rfl := Option.some.inj hstep
  have hlogged : Agent.Logged (PrometheusClient.topUserShare rows) s.agent
      (s.agent.decide W preds (PrometheusClient.topUserShare rows) now) :=
    Agent.logged_decide W preds now s.agent
  obtain ⟨ds', hds', hmem⟩ := hlogged.log
  obtain rfl : ds = ds' := List.append_cancel_left (hlog.symm.trans hds')
  obtain ⟨htop, hshare⟩ := hmem r t u share ho
  have hnd : (rows.map Prod.fst).Nodup := (hperm.map Prod.fst).nodup_iff.mpr s.gauges.nodup
  obtain ⟨g, hg, hr, ht, hu, rfl⟩ := PrometheusClient.mem_topUserShare hnd htop
  have hg' := hperm.subset hg
  refine ⟨g, hg', hr, ht, hu, sampled_of_run hrun g hg', hfresh g hg' hr ht, ?_⟩
  rw [PrometheusClient.sum_series_perm hperm] at hshare
  exact hshare

/-- One request after the other in the free tier in `us`, all in window 1. -/
def busy (users : List UserId) : List Event :=
  users.zipIdx.flatMap fun x => (Cluster.handling x.2 .us .free x.1 60).map .gateway

/-- The one gauge that `Watch.busy` leaves. -/
def sampleRows : List (Labels × Gauge) := [(⟨.us, .free, Cluster.sampleUser⟩, ⟨5, 4, 1⟩)]

/-- The sample's override. -/
def sampleOverride : Decision := .override .us .free Cluster.sampleUser.val 1

/-- A user alone in the tier, in the window of its requests. -/
theorem override_sound_sample :
    ∃ s s' g, Run (Steps (step sampleWriter)) (init 0)
        (busy (List.replicate 5 Cluster.sampleUser)) s ∧
      s.step sampleWriter (.tick 110 (fun _ => none) sampleRows) = some s' ∧
      s'.agent.log = [sampleOverride] ∧
      Sampled sampleWriter 0 (busy (List.replicate 5 Cluster.sampleUser)) s g ∧
      g.2.windowId = 1 ∧ (3 / 10 : ℚ) < g.2.value / s.total .us .free := by
  have hrun : (exec (step sampleWriter) (init 0) (busy (List.replicate 5 Cluster.sampleUser))).bind
      (fun s => (s.step sampleWriter (.tick 110 (fun _ => none) sampleRows)).map fun s' =>
        decide (s.gauges.entries = sampleRows ∧ s.agent.log = [] ∧
          s'.agent.log = [sampleOverride])) = some true := by decide +kernel
  obtain ⟨s, hs, h⟩ := Option.bind_eq_some_iff.mp hrun
  obtain ⟨s', hs', h⟩ := Option.map_eq_some_iff.mp h
  obtain ⟨hrows, hlog, hlog'⟩ := of_decide_eq_true h
  have hfloor : ⌊(110 : ℚ) / 60⌋ = 1 := by norm_num [Int.floor_eq_iff]
  have hfresh : ∀ g ∈ s.gauges.entries, g.1.region = .us → g.1.tier = .free →
      g.2.windowId = ⌊(110 : ℚ) / 60⌋ := by
    rw [hrows, hfloor, sampleRows, List.forall_mem_singleton]
    exact fun _ _ => rfl
  have hds : s'.agent.log = s.agent.log ++ [sampleOverride] := by
    rw [hlog, hlog', List.nil_append]
  obtain ⟨g, -, -, -, -, hg, hw, hshare⟩ := override_sound (run_of_exec hs) hs' hds
    List.mem_cons_self hfresh
  exact ⟨s, s', g, run_of_exec hs, hs', hlog', hg, hw.trans hfloor, hshare⟩

/-! ## Counts -/

/-- The users of the requests that a region has counted for a tier in a window. -/
def requests (s : Cluster) (r : Region) (t : Tier) (w : ℤ) : List Str :=
  (s.checks.filter fun c => c.region = r && c.tier = t && c.windowId = w && c.slot.isSome).map
    fun c => c.userId.val

/-- More than 30 % of the requests of the current window are the user's. -/
def Dominates (s : Cluster) (r : Region) (t : Tier) (u : Str) (now : ℚ) : Prop :=
  3 * (requests s r t ⌊now / 60⌋).length < 10 * (requests s r t ⌊now / 60⌋).count u

instance (s : Cluster) (r : Region) (t : Tier) (u : Str) (now : ℚ) :
    Decidable (Dominates s r t u now) := inferInstanceAs (Decidable (_ < _))

/-- Four users other than the sample. -/
def lightUsers : List UserId :=
  [⟨str "u_2", by decide, by decide⟩, ⟨str "u_3", by decide, by decide⟩,
    ⟨str "u_4", by decide, by decide⟩, ⟨str "u_5", by decide, by decide⟩]

/-- A user with five requests in window 1 and none in window 2 gets an override there. A
user with five requests of seventeen gets one in window 1, where the others have three
each. -/
theorem override_unsound :
    (∃ s s', Run (Steps (step sampleWriter)) (init 0)
        (busy (List.replicate 5 Cluster.sampleUser)) s ∧
      s.step sampleWriter (.tick 130 (fun _ => none) sampleRows) = some s' ∧
      s'.agent.log = [sampleOverride] ∧
      ¬ Dominates s.cluster .us .free Cluster.sampleUser.val 130) ∧
    ∃ s s', Run (Steps (step sampleWriter)) (init 0)
        (busy (List.replicate 5 Cluster.sampleUser ++ lightUsers.flatMap (List.replicate 3))) s ∧
      s.step sampleWriter (.tick 110 (fun _ => none) sampleRows) = some s' ∧
      s'.agent.log = [sampleOverride] ∧
      ¬ Dominates s.cluster .us .free Cluster.sampleUser.val 110 := by
  have hrun : ∀ {es now}, (exec (step sampleWriter) (init 0) es).bind (fun s =>
      (s.step sampleWriter (.tick now (fun _ => none) sampleRows)).map fun s' =>
        decide (s'.agent.log = [sampleOverride] ∧
          ¬ Dominates s.cluster .us .free Cluster.sampleUser.val now)) = some true →
      ∃ s s', Run (Steps (step sampleWriter)) (init 0) es s ∧
        s.step sampleWriter (.tick now (fun _ => none) sampleRows) = some s' ∧
        s'.agent.log = [sampleOverride] ∧
        ¬ Dominates s.cluster .us .free Cluster.sampleUser.val now := by
    intro es now h
    obtain ⟨s, hs, h⟩ := Option.bind_eq_some_iff.mp h
    obtain ⟨s', hs', h⟩ := Option.map_eq_some_iff.mp h
    exact ⟨s, s', run_of_exec hs, hs', of_decide_eq_true h⟩
  exact ⟨hrun (by decide +kernel), hrun (by decide +kernel)⟩

end Watch

end Gdrl
