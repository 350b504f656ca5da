import Gdrl.Gateway
import Gdrl.Lists

/-!
# Overrides

The law that an override of `L` is meant to obey : a user with the override gets the
answers that a user without it gets under a policy whose limits are `L`.

`Cluster.withLimit` is the cluster under such policies, and `Rel` keeps the two clusters
side by side. The local limiter takes the override, so all that the two ever differ in
is the outcome of the global cap, which compares with the limit of the policy
(`Diverges`).
-/

namespace Gdrl

/-! ## A policy for an override -/

/-- A policy with both limits replaced. -/
def Policy.withLimit (l : ℤ) (p : Policy) : Policy := { p with limit := l, globalLimit := l }

def Store.withLimit (l : ℤ) (s : Store) : Store :=
  { s with cache := fun t => (s.cache t).withLimit l }

def Check.withLimit (l : ℤ) (c : Check) : Check := { c with pol := c.pol.withLimit l }

/-- The answer that the client has got. -/
def Check.answer (c : Check) : Option Bool :=
  match c.stage with
  | .answered resp => some resp.allowed
  | _ => none

namespace Cluster

/-- The cluster with all policies replaced. -/
def withLimit (l : ℤ) (s : Cluster) : Cluster :=
  { s with stores := fun r => (s.stores r).withLimit l }

/-- The answers of all requests so far. -/
def answers (s : Cluster) : List (Option Bool) := s.checks.map Check.answer

/-- An event of a history in which every request finds the override. The policies stay. -/
def Event.Overridden (l : ℤ) : Event → Prop
  | .refresh _ _ => False
  | .start _ _ _ override => override = some l
  | _ => True

/-- The event of the history in which no request finds an override. -/
def Event.withoutOverride : Event → Event
  | .start r tier userId _ => .start r tier userId none
  | e => e

/-- `HGETALL` finds, for a request that the limiter has allowed, a sum between the
override and the limit of the policy. -/
def Diverges (l : ℤ) (s : Cluster) : Event → Prop
  | .read i _ out => out = .ok ∧ ∃ c ∈ s.checkAt i .published,
      c.reply.any Reply.allowed = true ∧
      min l c.pol.limit < (s.globals c.region c.key).goSum ∧
      (s.globals c.region c.key).goSum ≤ max l c.pol.limit
  | _ => False

/-! ## The two clusters side by side -/

/-- A request and its twin under the replaced policies. Where both are answered, the
answers may differ. -/
structure Twin (l : ℤ) (c d : Check) : Prop where
  limit : c.limit = l
  level : c.pol.globalLimit = c.pol.limit
  same : d = { c.withLimit l with stage := d.stage }
  stage : d.stage = c.stage ∨ c.answer.isSome = true ∧ d.answer.isSome = true

theorem Twin.eq_withLimit {l : ℤ} {c d : Check} (h : Twin l c d) (hc : c.answer = none) :
    d = c.withLimit l := by
  rcases h.stage with hstage | ⟨hsome, -⟩
  · rw [h.same, hstage]
    rfl
  · simp [hc] at hsome

/-- The cluster with the override and the one with the replaced policies. -/
structure Rel (l : ℤ) (s t : Cluster) : Prop where
  stores : t.stores = (s.withLimit l).stores
  level : ∀ r tier, ((s.stores r).get tier).globalLimit = ((s.stores r).get tier).limit
  locals : t.locals = s.locals
  globals : t.globals = s.globals
  checks : List.Forall₂ (Twin l) s.checks t.checks

/-- A request whose turn it is has its twin at the same stage. -/
theorem Rel.turn {l : ℤ} {s t : Cluster} (h : Rel l s t) {i : ℕ} {stage : Stage} {c : Check}
    (hi : s.checkAt i stage = some c) (hopen : (stage.pending || stage.underway) = true) :
    s.checks[i]? = some c ∧ c.answer = none ∧ Twin l c (c.withLimit l) ∧
      t.checkAt i stage = some (c.withLimit l) := by
  obtain ⟨hat, rfl⟩ := checkAt_eq_some.mp hi
  have hc : c.answer = none := by
    unfold Check.answer
    split
    · rename_i resp heq
      rw [heq] at hopen
      exact absurd hopen Bool.false_ne_true
    · rfl
  obtain ⟨d, hd, htwin⟩ := exists_getElem?_of_forall₂ h.checks hat
  obtain rfl := htwin.eq_withLimit hc
  exact ⟨hat, hc, htwin, checkAt_eq_some.mpr ⟨hd, rfl⟩⟩

theorem Rel.setGlobal {l : ℤ} {s t : Cluster} (h : Rel l s t) (q : Region) (m : GlobalRedis) :
    Rel l (s.setGlobal q m) (t.setGlobal q m) :=
  ⟨h.stores, h.level, h.locals, by simp only [Cluster.setGlobal, h.globals], h.checks⟩

/-- A request that is not answered yet moves on in both clusters. -/
theorem Rel.setCheck {l : ℤ} {s t : Cluster} (h : Rel l s t) {i : ℕ} {c c' d' : Check}
    (hi : s.checks[i]? = some c) (hc : c.answer = none) (htwin : Twin l c' d') :
    Rel l (s.setCheck i c') (t.setCheck i d') ∧
      ((t.setCheck i d').answers = (s.setCheck i c').answers ↔
        t.answers = s.answers ∧ d'.answer = c'.answer) := by
  refine ⟨⟨h.stores, h.level, h.locals, h.globals, forall₂_set h.checks htwin i⟩, ?_⟩
  obtain ⟨d, hd, hcd⟩ := exists_getElem?_of_forall₂ h.checks hi
  have hd' : d.answer = none := by
    rw [hcd.eq_withLimit hc]
    exact hc
  simp only [answers, Cluster.setCheck, List.map_set]
  exact set_eq_set_iff (by rw [List.getElem?_map, hd, Option.map_some, hd'])
    (by rw [List.getElem?_map, hi, Option.map_some, hc])

/-- A request that moves on in the same way in both clusters. -/
theorem Rel.setCheck_twin {l : ℤ} {s t : Cluster} (h : Rel l s t) {i : ℕ} {c c' : Check}
    (hi : s.checks[i]? = some c) (hc : c.answer = none) (htwin : Twin l c' (c'.withLimit l)) :
    Rel l (s.setCheck i c') (t.setCheck i (c'.withLimit l)) ∧
      ((t.setCheck i (c'.withLimit l)).answers = (s.setCheck i c').answers ↔
        t.answers = s.answers) := by
  have hset := h.setCheck hi hc htwin
  exact ⟨hset.1, hset.2.trans (and_iff_left rfl)⟩

/-- The global cap decides alike in both clusters, or the sum lies between the limits. -/
theorem Twin.response_allowed {l : ℤ} {c d : Check} (h : Twin l c d) (hash : Hash) (nowMs : ℤ) :
    ((c.withLimit l).response hash nowMs).allowed = (c.response hash nowMs).allowed ↔
      ¬ (c.reply.any Reply.allowed = true ∧ min l c.pol.limit < hash.goSum ∧
        hash.goSum ≤ max l c.pol.limit) := by
  have hlocal : (c.withLimit l).localResponse = c.localResponse := rfl
  have hallowed : c.localResponse.allowed = c.reply.any Reply.allowed := by
    cases hr : c.reply <;> simp [Check.localResponse, hr]
  have hcapped : ∀ d : Check, (d.cappedResponse nowMs).allowed = false := fun _ => rfl
  have hlevel := h.level
  rw [Check.response, Check.response, hlocal]
  show (if l < hash.goSum then _ else _ : CheckResponse).allowed = _ ↔ _
  cases hany : c.reply.any Reply.allowed <;> rw [hany] at hallowed
  · split_ifs <;> simp [hallowed, hcapped]
  · split_ifs <;> simp only [hallowed, hcapped] <;> simp <;> omega

theorem Twin.self {l : ℤ} {c : Check} (hl : c.limit = l) (hp : c.pol.globalLimit = c.pol.limit) :
    Twin l c (c.withLimit l) := ⟨hl, hp, rfl, Or.inl rfl⟩

section Stages

variable {l : ℤ} {s t : Cluster} {i : ℕ} {c : Check}

/-- The script gets the override in one cluster, and the limit of the policy, which is the
same number, in the other. -/
theorem Rel.runLimiter (h : Rel l s t) (hi : s.checkAt i .resolved = some c)
    (fallback : Algorithm) (call : Limiter.Call) (out : Outcome) :
    Rel l (s.runLimiter i c fallback call out)
        (t.runLimiter i (c.withLimit l) fallback call out) ∧
      ((t.runLimiter i (c.withLimit l) fallback call out).answers =
        (s.runLimiter i c fallback call out).answers ↔ t.answers = s.answers) := by
  obtain ⟨hat, hc, htwin, -⟩ := h.turn hi rfl
  have hreply : Limiter.check ((c.withLimit l).pol.selectLimiter fallback)
      (c.withLimit l).localKey call (t.locals (c.withLimit l).region) =
      Limiter.check (c.pol.selectLimiter fallback) c.localKey call (s.locals c.region) := by
    rw [h.locals]
    rfl
  unfold Cluster.runLimiter
  rw [hreply]
  obtain ⟨reply, m⟩ := Limiter.check (c.pol.selectLimiter fallback) c.localKey call
    (s.locals c.region)
  dsimp only
  generalize (if out = .ok then reply else none) = reply
  have hlocal : Rel l { s with locals := fun r => if r = c.region then m else s.locals r }
      { t with locals := fun r => if r = c.region then m else t.locals r } :=
    ⟨h.stores, h.level, by simp only [h.locals], h.globals, h.checks⟩
  by_cases happlied : out.applied = true
  · rw [if_pos happlied, if_pos happlied]
    exact hlocal.setCheck_twin hat hc (.self htwin.limit htwin.level)
  · rw [if_neg happlied, if_neg happlied]
    exact h.setCheck_twin hat hc (.self htwin.limit htwin.level)

/-- The global keys do not depend on the policies. -/
theorem Rel.runIncr (h : Rel l s t) (hi : s.checkAt i .decided = some c) (unix : ℤ)
    (out : Outcome) :
    Rel l (s.runIncr i c unix out) (t.runIncr i (c.withLimit l) unix out) ∧
      ((t.runIncr i (c.withLimit l) unix out).answers = (s.runIncr i c unix out).answers ↔
        t.answers = s.answers) := by
  obtain ⟨hat, hc, htwin, -⟩ := h.turn hi rfl
  obtain ⟨o, ho⟩ : ∃ o, (s.globals c.region { c with windowId := unix.tdiv 60 }.key).incr
      c.region = o := ⟨_, rfl⟩
  have ho' : (t.globals (c.withLimit l).region
      { c.withLimit l with windowId := unix.tdiv 60 }.key).incr (c.withLimit l).region = o := by
    rw [h.globals]
    exact ho
  have hglobals : t.globals (c.withLimit l).region = s.globals c.region := by
    rw [h.globals]
    rfl
  unfold Cluster.runIncr
  dsimp only
  rw [ho, ho', hglobals]
  split
  · exact (h.setGlobal _ _).setCheck_twin hat hc (.self htwin.limit htwin.level)
  · exact h.setCheck_twin hat hc (.self htwin.limit htwin.level)

theorem Rel.runExpire (h : Rel l s t) (hi : s.checkAt i .counted = some c) (redisMs : ℤ)
    (out : Outcome) :
    Rel l (s.runExpire i c redisMs out) (t.runExpire i (c.withLimit l) redisMs out) ∧
      ((t.runExpire i (c.withLimit l) redisMs out).answers =
        (s.runExpire i c redisMs out).answers ↔ t.answers = s.answers) := by
  obtain ⟨hat, hc, htwin, -⟩ := h.turn hi rfl
  have hkey : (c.withLimit l).key = c.key := rfl
  have hregion : (c.withLimit l).region = c.region := rfl
  unfold Cluster.runExpire
  rw [hkey, hregion, h.globals]
  dsimp only
  split_ifs
  · exact (h.setGlobal _ _).setCheck_twin hat hc (.self htwin.limit htwin.level)
  · exact h.setCheck_twin hat hc (.self htwin.limit htwin.level)

theorem Rel.runRead (h : Rel l s t) (hi : s.checkAt i .published = some c) (nowMs : ℤ)
    (out : Outcome) :
    Rel l (s.runRead i c nowMs out) (t.runRead i (c.withLimit l) nowMs out) ∧
      ((t.runRead i (c.withLimit l) nowMs out).answers = (s.runRead i c nowMs out).answers ↔
        t.answers = s.answers ∧ ¬ s.Diverges l (.read i nowMs out)) := by
  obtain ⟨hat, hc, htwin, -⟩ := h.turn hi rfl
  have hset : ∀ r r' : CheckResponse, Twin l { c with stage := .answered r }
      { c.withLimit l with stage := .answered r' } := fun r r' =>
    ⟨htwin.limit, htwin.level, rfl, Or.inr ⟨rfl, rfl⟩⟩
  have hmoved := h.setCheck hat hc (hset
    (if out = .ok then c.response (s.globals c.region c.key) nowMs else c.localResponse)
    (if out = .ok then (c.withLimit l).response (t.globals c.region c.key) nowMs
      else c.localResponse))
  refine ⟨hmoved.1, hmoved.2.trans (and_congr_right fun _ => ?_)⟩
  have hanswer : ∀ (d : Check) r, Check.answer { d with stage := .answered r } =
      some r.allowed := fun _ _ => rfl
  rw [hanswer, hanswer, Option.some_inj, h.globals]
  by_cases hout : out = .ok
  · rw [if_pos hout, if_pos hout, htwin.response_allowed]
    simp [Diverges, hout, hi]
  · simp [Diverges, hout]

end Stages

/-- A step of the cluster with the override, and the same step under the replaced
policies. -/
theorem Rel.step {l : ℤ} {s s' t : Cluster} {e : Event} (he : e.Overridden l) (h : Rel l s t)
    (hstep : s.step e = some s') : ∃ t', t.step e.withoutOverride = some t' ∧ Rel l s' t' ∧
      (t'.answers = s'.answers ↔ t.answers = s.answers ∧ ¬ s.Diverges l e) := by
  cases e with
  | refresh r get => exact he.elim
  | start r tier userId override =>
    obtain rfl : override = some l := he
    obtain rfl := Option.some.inj hstep
    refine ⟨_, rfl, ⟨h.stores, h.level, h.locals, h.globals, ?_⟩, ?_⟩
    · refine List.rel_append h.checks (.cons ?_ .nil)
      rw [h.stores]
      exact ⟨rfl, h.level r tier, rfl, Or.inl rfl⟩
    · simp [answers, Check.answer, Diverges]
  | decide i fallback nowMs nonce redisMs out =>
    obtain ⟨c, hi, rfl⟩ := Option.map_eq_some_iff.mp hstep
    obtain ⟨-, -, -, hi'⟩ := h.turn hi rfl
    have hrun := h.runLimiter hi fallback ⟨c.limit, c.pol.burst, nowMs, nonce, redisMs⟩ out
    refine ⟨_, Option.map_eq_some_iff.mpr ⟨_, hi', rfl⟩, hrun.1, ?_⟩
    exact hrun.2.trans (and_iff_left not_false).symm
  | incr i unix out =>
    rw [Cluster.step] at hstep
    split_ifs at hstep with hunix
    obtain ⟨c, hi, rfl⟩ := Option.map_eq_some_iff.mp hstep
    obtain ⟨-, -, -, hi'⟩ := h.turn hi rfl
    have hrun := h.runIncr hi unix out
    refine ⟨_, (if_pos hunix).trans (Option.map_eq_some_iff.mpr ⟨_, hi', rfl⟩),
      hrun.1, ?_⟩
    exact hrun.2.trans (and_iff_left not_false).symm
  | expire i redisMs out =>
    obtain ⟨c, hi, rfl⟩ := Option.map_eq_some_iff.mp hstep
    obtain ⟨-, -, -, hi'⟩ := h.turn hi rfl
    have hrun := h.runExpire hi redisMs out
    refine ⟨_, Option.map_eq_some_iff.mpr ⟨_, hi', rfl⟩, hrun.1, ?_⟩
    exact hrun.2.trans (and_iff_left not_false).symm
  | publish i tsMs out =>
    rw [Cluster.step] at hstep
    split_ifs at hstep with hts
    obtain ⟨c, hi, rfl⟩ := Option.map_eq_some_iff.mp hstep
    obtain ⟨hat, hc, htwin, hi'⟩ := h.turn hi rfl
    have hset := h.setCheck_twin hat hc
      (Twin.self (c := { c with stage := .published }) htwin.limit htwin.level)
    refine ⟨_, (if_pos hts).trans (Option.map_eq_some_iff.mpr ⟨_, hi', rfl⟩),
      hset.1, ?_⟩
    exact hset.2.trans (and_iff_left not_false).symm
  | read i nowMs out =>
    obtain ⟨c, hi, rfl⟩ := Option.map_eq_some_iff.mp hstep
    obtain ⟨-, -, -, hi'⟩ := h.turn hi rfl
    have hrun := h.runRead hi nowMs out
    exact ⟨_, Option.map_eq_some_iff.mpr ⟨_, hi', rfl⟩, hrun.1, hrun.2⟩
  | merge q w redisMs =>
    rw [Cluster.step] at hstep
    split_ifs at hstep with hne
    obtain rfl := Option.some.inj hstep
    refine ⟨_, if_neg hne, ?_, (and_iff_left not_false).symm⟩
    rw [h.globals]
    exact h.setGlobal _ _
  | evict q key redisMs =>
    rw [Cluster.step] at hstep
    split_ifs at hstep with hover
    obtain rfl := Option.some.inj hstep
    rw [← h.globals] at hover
    refine ⟨_, if_pos hover, ?_, (and_iff_left not_false).symm⟩
    rw [h.globals]
    exact h.setGlobal _ _

/-- **Override replaces the limit, exactly when.** For every history of requests that all
find an override of `l`, under policies whose two limits agree, the cluster without
override and with limits `l` in the policies can go through the same history, and gives
the same answers exactly if no request that the limiter allows reads a sum between the
override and the limit of its policy. -/
theorem override_replaces_iff {l : ℤ} {s s' : Cluster} {es : List Event} (hs : s.checks = [])
    (hlevel : ∀ r tier, ((s.stores r).get tier).globalLimit = ((s.stores r).get tier).limit)
    (hes : ∀ e ∈ es, e.Overridden l) (hrun : Run (Steps Cluster.step) s es s') :
    ∃ t', Run (Steps Cluster.step) (s.withLimit l) (es.map Event.withoutOverride) t' ∧
      (t'.answers = s'.answers ↔
        Run (fun s e s' => s.step e = some s' ∧ ¬ s.Diverges l e) s es s') := by
  have hrel : Rel l s (s.withLimit l) :=
    ⟨rfl, hlevel, rfl, rfl, by rw [Cluster.withLimit, hs]; exact .nil⟩
  have hstep : ∀ s e s' t, e.Overridden l → Rel l s t → Steps Cluster.step s e s' →
      ∃ t', Steps Cluster.step t e.withoutOverride t' ∧ Rel l s' t' ∧
        (t'.answers = s'.answers ↔ t.answers = s.answers ∧ ¬ s.Diverges l e) :=
    fun s e s' t he h hse => h.step he hse
  obtain ⟨t', hrun', -, hiff⟩ := hrun.lockstep (S := fun s t => t.answers = s.answers)
    (fun _ _ _ _ h h' => Option.some.inj (h.symm.trans h')) hstep hes hrel
  exact ⟨t', hrun', hiff.trans (and_iff_right rfl)⟩

instance (l : ℤ) (e : Event) : Decidable (e.Overridden l) :=
  match e with
  | .refresh .. => inferInstanceAs (Decidable False)
  | .start _ _ _ override => inferInstanceAs (Decidable (override = some l))
  | .decide .. | .incr .. | .expire .. | .publish .. | .read .. | .merge .. | .evict .. =>
    inferInstanceAs (Decidable True)

instance (l : ℤ) (s : Cluster) (e : Event) : Decidable (s.Diverges l e) :=
  match e with
  | .read i _ out => inferInstanceAs (Decidable (out = .ok ∧ ∃ c ∈ s.checkAt i .published,
      c.reply.any Reply.allowed = true ∧
      min l c.pol.limit < (s.globals c.region c.key).goSum ∧
      (s.globals c.region c.key).goSum ≤ max l c.pol.limit))
  | .refresh .. | .start .. | .decide .. | .incr .. | .expire .. | .publish .. | .merge ..
  | .evict .. => inferInstanceAs (Decidable False)

/-- Requests of one user with an override of `l`, two seconds apart, from the start of a
window on. -/
def overriddenRequests (l : ℤ) (n : ℕ) : List Event :=
  (List.range n).flatMap fun i =>
    .start .us .free sampleUser (some l) :: (handling i .us .free sampleUser (60 + 2 * i)).tail

/-- Under the static free policy : an override of 1 does not cap the second request, and
one of 50 does not save the eleventh. -/
theorem override_not_replacing :
    (∀ r tier, ((init.stores r).get tier).globalLimit = ((init.stores r).get tier).limit) ∧
    (exec Cluster.step init (overriddenRequests 1 2)).map answers =
      some (List.replicate 2 (some true)) ∧
    (exec Cluster.step (init.withLimit 1)
      ((overriddenRequests 1 2).map Event.withoutOverride)).map answers =
      some [some true, some false] ∧
    (exec Cluster.step init (overriddenRequests 50 11)).map answers =
      some (List.replicate 10 (some true) ++ [some false]) ∧
    (exec Cluster.step (init.withLimit 50)
      ((overriddenRequests 50 11).map Event.withoutOverride)).map answers =
      some (List.replicate 11 (some true)) := by
  refine ⟨fun r tier => ?_, ?_, ?_, ?_, ?_⟩
  · cases r <;> cases tier <;> rfl
  all_goals decide +kernel

/-- Four requests with an override of 50. -/
theorem override_replaces_sample : ∃ s' t',
    Run (Steps Cluster.step) init (overriddenRequests 50 4) s' ∧
    Run (Steps Cluster.step) (init.withLimit 50)
      ((overriddenRequests 50 4).map Event.withoutOverride) t' ∧ t'.answers = s'.answers := by
  obtain ⟨s', hexec⟩ := Option.isSome_iff_exists.mp (show (exec (guarded Cluster.step fun s e =>
    ¬ s.Diverges 50 e) init (overriddenRequests 50 4)).isSome = true by decide +kernel)
  have hguarded := run_of_exec_guarded hexec
  have hrun := hguarded.mono fun _ _ _ h => h.1
  obtain ⟨t', hrun', hiff⟩ := override_replaces_iff (l := 50) rfl
    (fun r tier => by cases r <;> cases tier <;> rfl) (by decide +kernel) hrun
  exact ⟨s', t', hrun, hrun', hiff.mpr hguarded⟩

end Cluster

end Gdrl
