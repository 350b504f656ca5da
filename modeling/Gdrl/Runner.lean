import Gdrl.Counted
import Gdrl.Json
import Mathlib.Algebra.BigOperators.Group.Finset.Basic
import Mathlib.Algebra.Order.Field.Basic

/-!
# The simulator's runner

`run_at_rate` starts a task for every request and lets at most `concurrency` of them send at
a time. The loop that starts them goes to sleep until the next request is due, or goes on at
once if it is late. `Runner` is the loop, its tasks, the semaphore and the counters on a clock,
and every order in which the tasks proceed is a run.

No request is lost or counted twice (`run_at_rate_accounts`), none is started before it is due
or behind the duration, and none is overdue when the loop goes to sleep (`run_at_rate_paces`),
and the semaphore never keeps the runner from returning (`run_at_rate_returns`).
-/

namespace Gdrl

/-- `bool(x)` -/
def Json.truthy : Json → Bool
  | .null => false
  | .bool b => b
  | .int n => n ≠ 0
  | .float (.finite _ m _) => m ≠ 0
  | .float _ => true
  | .str s => s ≠ []
  | .arr xs => !xs.isEmpty
  | .obj kvs => !kvs.isEmpty

namespace Simulator

/-- How a `POST` ends : it raises, or there is a response, with a body that may be no JSON. -/
inductive Posted
  | raised
  | response (status : ℕ) (body : Option Json)

/-- `_send` : whether the request was allowed, `none` where it raises. -/
def send : Posted → Option Bool
  | .response 200 (some (.obj kvs)) =>
    some (((Dict.ofPairs kvs).get? (str "allowed")).map Json.truthy |>.getD false)
  | _ => none

/-- What the gateway answers a request it has bound. -/
def reply (resp : CheckResponse) : Json :=
  .obj [(str "allowed", .bool resp.allowed), (str "remaining", .int resp.remaining),
    (str "limit", .int resp.limit), (str "retry_after_ms", .int resp.retryAfterMs),
    (str "policy_id", .str resp.policyID)]

/-- `Stats` and `_Counters` -/
structure Counters where
  sent : ℕ
  errors : ℕ
  allowed : ℕ
  denied : ℕ
  httpErrors : ℕ
  deriving DecidableEq

/-- What one request adds. -/
def Counters.record (c : Counters) : Option Bool → Counters
  | some true => { c with sent := c.sent + 1, allowed := c.allowed + 1 }
  | some false => { c with sent := c.sent + 1, denied := c.denied + 1 }
  | none => { c with errors := c.errors + 1 }

/-- A task, from `create_task` over the semaphore to its end. -/
inductive Task
  | waiting | running
  | done (result : Option Bool)
  deriving DecidableEq

def Task.isDone : Task → Bool
  | .done _ => true
  | _ => false

/-- Where the loop is : at its head, in `sleep`, in `gather`, or over. -/
inductive Main
  | looping | sleeping | gathering | returned
  deriving DecidableEq

/-- The arguments of `run_at_rate`. `gap n` is the time from request `n` to the next, `1 / rps` or
what `expovariate` draws. -/
structure Plan where
  duration : ℚ
  concurrency : ℕ
  gap : ℕ → ℚ

end Simulator

open Simulator

structure Runner where
  main : Main
  clock : ℚ
  endTime : ℚ
  nextTick : ℚ
  tasks : List Task
  permits : ℕ
  counters : Counters

namespace Runner

/-- What happens next. Tasks go by their place in `tasks`. -/
inductive Event
  | wait (t : ℚ)
  /-- The head of the loop, with the second reading of the clock. -/
  | loop (again : ℚ)
  | wake
  | acquire (i : ℕ)
  | finish (i : ℕ) (posted : Posted)
  | ret

/-- One step, `none` where it cannot be taken. -/
def step (p : Plan) (s : Runner) : Event → Option Runner
  | .wait t => if s.clock ≤ t then some { s with clock := t } else none
  | .loop again =>
    if s.main = .looping ∧ s.clock ≤ again then
      if s.clock < s.endTime then
        let nextTick := s.nextTick + p.gap s.tasks.length
        some { s with
          main := if again < nextTick then .sleeping else .looping
          clock := again
          nextTick
          tasks := s.tasks ++ [.waiting] }
      else some { s with main := .gathering }
    else none
  | .wake =>
    if s.main = .sleeping ∧ s.nextTick ≤ s.clock then some { s with main := .looping } else none
  | .acquire i =>
    if s.tasks[i]? = some .waiting ∧ 0 < s.permits then
      some { s with tasks := s.tasks.set i .running, permits := s.permits - 1 }
    else none
  | .finish i posted =>
    if s.tasks[i]? = some .running then
      some { s with
        tasks := s.tasks.set i (.done (send posted))
        permits := s.permits + 1
        counters := s.counters.record (send posted) }
    else none
  | .ret =>
    if s.main = .gathering ∧ s.tasks.all Task.isDone = true then some { s with main := .returned }
    else none

/-- `end_time` is set at `t`, and `next_tick` at `t₀`. -/
def start (p : Plan) (t t₀ : ℚ) : Runner :=
  ⟨.looping, t₀, t + p.duration, t₀, [], p.concurrency, ⟨0, 0, 0, 0, 0⟩⟩

/-! ## Counting -/

/-- The counters that the tasks add up to. -/
def tally (ts : List Task) : Counters where
  sent := ts.count (.done (some true)) + ts.count (.done (some false))
  errors := ts.count (.done none)
  allowed := ts.count (.done (some true))
  denied := ts.count (.done (some false))
  httpErrors := 0

theorem count_set_add {ts : List Task} {i : ℕ} {a : Task} (h : ts[i]? = some a) (b x : Task) :
    (ts.set i b).count x + (if a = x then 1 else 0) = ts.count x + if b = x then 1 else 0 := by
  simpa [List.count] using countP_set_add (· == x) b h

theorem tally_append_waiting (ts : List Task) : tally (ts ++ [.waiting]) = tally ts := by
  simp [tally]

theorem tally_acquire {ts : List Task} {i : ℕ} (h : ts[i]? = some .waiting) :
    tally (ts.set i .running) = tally ts := by
  have hcount : ∀ r, (ts.set i .running).count (.done r) = ts.count (.done r) := fun r => by
    simpa using count_set_add h .running (.done r)
  simp [tally, hcount]

theorem tally_finish {ts : List Task} {i : ℕ} (h : ts[i]? = some .running) (r : Option Bool) :
    tally (ts.set i (.done r)) = (tally ts).record r := by
  have hcount : ∀ r', (ts.set i (.done r)).count (.done r') =
      ts.count (.done r') + if r = r' then 1 else 0 := fun r' => by
    simpa using count_set_add h (.done r) (.done r')
  simp only [tally, hcount]
  rcases r with - | - | - <;> simp [Counters.record] <;> omega

/-- Every task is at one of the stages. -/
theorem length_eq (ts : List Task) :
    ts.length = ts.count .waiting + ts.count .running + (tally ts).sent + (tally ts).errors := by
  induction ts with
  | nil => rfl
  | cons a ts ih =>
    rw [List.length_cons, ih]
    rcases a with - | - | - | - | - <;> simp [tally] <;> omega

variable {p : Plan} {s s' : Runner}

/-- The semaphore's permits and the counters are right. -/
structure Sound (p : Plan) (s : Runner) : Prop where
  permits : s.permits + s.tasks.count .running = p.concurrency
  counters : s.counters = tally s.tasks
  ended : s.main = .returned → s.tasks.all Task.isDone = true

theorem sound_start (p : Plan) (t t₀ : ℚ) : Sound p (start p t t₀) where
  permits := Nat.add_zero _
  counters := rfl
  ended := nofun

/-- A task that is still to do, at one end of a step or the other. -/
theorem Sound.not_returned (hs : Sound p s) {i : ℕ} {a : Task} (hi : s.tasks[i]? = some a)
    (ha : a.isDone = false) : s.main ≠ .returned := by
  intro hmain
  have := List.all_eq_true.mp (hs.ended hmain) a (List.mem_of_getElem? hi)
  rw [ha] at this
  cases this

theorem Sound.step (hs : Sound p s) {e : Event} (h : s.step p e = some s') : Sound p s' := by
  cases e with
  | wait t =>
    obtain ⟨-, h⟩ := Option.ite_none_right_eq_some.mp h
    obtain rfl := Option.some.inj h
    exact ⟨hs.permits, hs.counters, hs.ended⟩
  | loop again =>
    obtain ⟨⟨hmain, -⟩, h⟩ := Option.ite_none_right_eq_some.mp h
    split_ifs at h
    · obtain rfl := Option.some.inj h
      refine ⟨?_, hs.counters.trans (tally_append_waiting _).symm, fun hended => ?_⟩
      · simpa using hs.permits
      · dsimp only at hended
        split_ifs at hended
    · obtain rfl := Option.some.inj h
      exact ⟨hs.permits, hs.counters, nofun⟩
  | wake =>
    obtain ⟨-, h⟩ := Option.ite_none_right_eq_some.mp h
    obtain rfl := Option.some.inj h
    exact ⟨hs.permits, hs.counters, nofun⟩
  | acquire i =>
    obtain ⟨⟨hi, hpermits⟩, h⟩ := Option.ite_none_right_eq_some.mp h
    obtain rfl := Option.some.inj h
    refine ⟨?_, hs.counters.trans (tally_acquire hi).symm, fun hmain => ?_⟩
    · have hcount := count_set_add hi .running .running
      have := hs.permits
      simp only [reduceCtorEq, if_false, if_true] at hcount
      dsimp only
      omega
    · exact absurd hmain (hs.not_returned hi rfl)
  | finish i posted =>
    obtain ⟨hi, h⟩ := Option.ite_none_right_eq_some.mp h
    obtain rfl := Option.some.inj h
    refine ⟨?_, ?_, fun hmain => absurd hmain (hs.not_returned hi rfl)⟩
    · have hcount := count_set_add hi (.done (send posted)) .running
      have := hs.permits
      simp only [reduceCtorEq, if_false, if_true] at hcount
      dsimp only
      omega
    · rw [tally_finish hi, hs.counters]
  | ret =>
    obtain ⟨⟨-, hall⟩, h⟩ := Option.ite_none_right_eq_some.mp h
    obtain rfl := Option.some.inj h
    exact ⟨hs.permits, hs.counters, fun _ => hall⟩

theorem sound_of_run {t t₀ : ℚ} {es : List Event} (h : Run (Steps (step p)) (start p t t₀) es s) :
    Sound p s :=
  h.invariant (fun _ _ _ hs hstep => hs.step hstep) (sound_start p t t₀)

theorem count_eq_zero_of_isDone {ts : List Task} (h : ts.all Task.isDone = true) {a : Task}
    (ha : a.isDone = false) : ts.count a = 0 := by
  refine List.count_eq_zero.mpr fun hmem => ?_
  have := List.all_eq_true.mp h a hmem
  rw [ha] at this
  cases this

/-- **The accounts.** At no time do more than `concurrency` requests run. Every task waits, runs
or has been counted once, as an error or as an answer, and every answer as allowed or
denied. Behind the return all have been counted. `http_errors` stays zero. -/
theorem run_at_rate_accounts {t t₀ : ℚ} {es : List Event}
    (h : Run (Steps (step p)) (start p t t₀) es s) :
    s.tasks.count .running ≤ p.concurrency ∧
    s.tasks.length = s.tasks.count .waiting + s.tasks.count .running + s.counters.sent +
      s.counters.errors ∧
    s.counters.sent = s.counters.allowed + s.counters.denied ∧ s.counters.httpErrors = 0 ∧
    (s.main = .returned → s.counters.sent + s.counters.errors = s.tasks.length) := by
  have hs := sound_of_run h
  have hpermits := hs.permits
  have hlength := length_eq s.tasks
  rw [hs.counters]
  refine ⟨by omega, hlength, rfl, rfl, fun hmain => ?_⟩
  have hdone := hs.ended hmain
  have hwaiting := count_eq_zero_of_isDone hdone (a := .waiting) rfl
  have hrunning := count_eq_zero_of_isDone hdone (a := .running) rfl
  omega

/-! ## Pacing -/

open Finset

/-- When request `n` is due. -/
def due (p : Plan) (t₀ : ℚ) (n : ℕ) : ℚ := t₀ + ∑ i ∈ range n, p.gap i

theorem due_succ (p : Plan) (t₀ : ℚ) (n : ℕ) : due p t₀ (n + 1) = due p t₀ n + p.gap n := by
  rw [due, sum_range_succ, ← add_assoc, due]

/-- The loop knows when the next request is due, and is at its head only from then on. -/
structure Paced (p : Plan) (t t₀ : ℚ) (s : Runner) : Prop where
  endTime : s.endTime = t + p.duration
  nextTick : s.nextTick = due p t₀ s.tasks.length
  ready : s.main = .looping → s.nextTick ≤ s.clock
  started : ∀ n < s.tasks.length, due p t₀ n ≤ s.clock ∧ due p t₀ n < t + p.duration

theorem paced_start (p : Plan) (t t₀ : ℚ) : Paced p t t₀ (start p t t₀) where
  endTime := rfl
  nextTick := by simp [start, due]
  ready _ := le_rfl
  started n hn := absurd hn (Nat.not_lt_zero n)

theorem Paced.step {t t₀ : ℚ} (hs : Paced p t t₀ s) {e : Event} (h : s.step p e = some s') :
    Paced p t t₀ s' := by
  cases e with
  | wait u =>
    obtain ⟨hu, h⟩ := Option.ite_none_right_eq_some.mp h
    obtain rfl := Option.some.inj h
    exact ⟨hs.endTime, hs.nextTick, fun hmain => (hs.ready hmain).trans hu, fun n hn =>
      ⟨(hs.started n hn).1.trans hu, (hs.started n hn).2⟩⟩
  | loop again =>
    obtain ⟨⟨hmain, hagain⟩, h⟩ := Option.ite_none_right_eq_some.mp h
    split_ifs at h with hend
    · obtain rfl := Option.some.inj h
      have hlength : (s.tasks ++ [Task.waiting]).length = s.tasks.length + 1 := by simp
      refine ⟨hs.endTime, ?_, fun hlooping => ?_, fun n hn => ?_⟩
      · rw [hlength, due_succ, ← hs.nextTick]
      · dsimp only at hlooping ⊢
        split_ifs at hlooping with hlt
        exact not_lt.mp hlt
      · rw [hlength, Nat.lt_succ_iff_lt_or_eq] at hn
        rcases hn with hn | rfl
        · exact ⟨(hs.started n hn).1.trans hagain, (hs.started n hn).2⟩
        · -- the request just started
          have hready := hs.ready hmain
          rw [hs.nextTick] at hready
          exact ⟨hready.trans hagain, hready.trans_lt (hs.endTime ▸ hend)⟩
    · obtain rfl := Option.some.inj h
      exact ⟨hs.endTime, hs.nextTick, nofun, hs.started⟩
  | wake =>
    obtain ⟨⟨-, hclock⟩, h⟩ := Option.ite_none_right_eq_some.mp h
    obtain rfl := Option.some.inj h
    exact ⟨hs.endTime, hs.nextTick, fun _ => hclock, hs.started⟩
  | acquire i =>
    obtain ⟨-, h⟩ := Option.ite_none_right_eq_some.mp h
    obtain rfl := Option.some.inj h
    refine ⟨hs.endTime, ?_, hs.ready, ?_⟩
    · rw [List.length_set]
      exact hs.nextTick
    · rw [List.length_set]
      exact hs.started
  | finish i posted =>
    obtain ⟨-, h⟩ := Option.ite_none_right_eq_some.mp h
    obtain rfl := Option.some.inj h
    refine ⟨hs.endTime, ?_, hs.ready, ?_⟩
    · rw [List.length_set]
      exact hs.nextTick
    · rw [List.length_set]
      exact hs.started
  | ret =>
    obtain ⟨-, h⟩ := Option.ite_none_right_eq_some.mp h
    obtain rfl := Option.some.inj h
    exact ⟨hs.endTime, hs.nextTick, nofun, hs.started⟩

theorem paced_of_run {t t₀ : ℚ} {es : List Event} (h : Run (Steps (step p)) (start p t t₀) es s) :
    Paced p t t₀ s :=
  h.invariant (fun _ _ _ hs hstep => hs.step hstep) (paced_start p t t₀)

/-- **The pace.** No request is started before it is due, or if it is due at the end of the
duration or later, and whenever the loop goes to sleep the next one is not yet due. -/
theorem run_at_rate_paces {t t₀ : ℚ} {es : List Event}
    (h : Run (Steps (step p)) (start p t t₀) es s) :
    (∀ n < s.tasks.length, due p t₀ n ≤ s.clock ∧ due p t₀ n < t + p.duration) ∧
    ∀ again s', s.step p (.loop again) = some s' → s'.main = .sleeping →
      s'.clock < due p t₀ s'.tasks.length := by
  have hs := paced_of_run h
  refine ⟨hs.started, fun again s' hstep hsleep => ?_⟩
  have hs' := hs.step hstep
  rw [← hs'.nextTick]
  obtain ⟨-, hstep⟩ := Option.ite_none_right_eq_some.mp hstep
  split_ifs at hstep
  · obtain rfl := Option.some.inj hstep
    dsimp only at hsleep ⊢
    split_ifs at hsleep with hlt
    exact hlt
  · obtain rfl := Option.some.inj hstep
    cases hsleep

/-! ## The return -/

/-- Once the duration is over, the loop ends. -/
theorem exists_gathering (p : Plan) (s : Runner) (hmain : s.main ≠ .returned) :
    ∃ es s', Run (Steps (step p)) s es s' ∧ s'.main = .gathering := by
  have hloop : ∀ u : Runner, u.main = .looping → u.endTime ≤ u.clock →
      step p u (.loop u.clock) = some { u with main := .gathering } := fun u hu hend => by
    rw [step, if_pos ⟨hu, le_rfl⟩, if_neg (not_lt.mpr hend)]
  have hwait : ∀ {t : ℚ}, s.clock ≤ t → step p s (.wait t) = some { s with clock := t } :=
    fun ht => if_pos ht
  cases hm : s.main with
  | looping =>
    refine ⟨_, _, .cons (hwait (le_max_left s.clock s.endTime)) (.cons (hloop _ hm ?_) (.nil _)),
      rfl⟩
    exact le_max_right s.clock s.endTime
  | sleeping =>
    let t := max s.clock (max s.nextTick s.endTime)
    have hwake : step p { s with clock := t } .wake =
        some { s with clock := t, main := .looping } :=
      if_pos ⟨hm, (le_max_left _ _).trans (le_max_right s.clock _)⟩
    refine ⟨_, _, .cons (hwait (le_max_left s.clock _)) (.cons hwake (.cons (hloop _ rfl ?_)
      (.nil _))), rfl⟩
    exact (le_max_right _ _).trans (le_max_right s.clock _)
  | gathering => exact ⟨[], s, .nil s, hm⟩
  | returned => exact absurd hm hmain

/-- What is left to do : a waiting task has two steps to go, a running one has one. -/
def remaining (s : Runner) : ℕ := 2 * s.tasks.count .waiting + s.tasks.count .running

/-- While anything is left to do, some task can take a step. -/
theorem exists_progress (hp : 0 < p.concurrency) (hs : Sound p s) (hleft : s.remaining ≠ 0) :
    ∃ e s', s.step p e = some s' ∧ s'.main = s.main ∧ s'.remaining + 1 = s.remaining := by
  by_cases hrunning : .running ∈ s.tasks
  · obtain ⟨i, hi⟩ := List.mem_iff_getElem?.mp hrunning
    refine ⟨.finish i .raised, _, if_pos hi, rfl, ?_⟩
    have hw := count_set_add hi (.done none) .waiting
    have hr := count_set_add hi (.done none) .running
    simp only [reduceCtorEq, if_false, if_true] at hw hr
    simp only [remaining, send]
    omega
  · -- nobody holds a permit
    have hnone : s.tasks.count .running = 0 := List.count_eq_zero.mpr hrunning
    have hwaiting : .waiting ∈ s.tasks := by
      rw [← List.count_pos_iff]
      unfold remaining at hleft
      omega
    obtain ⟨i, hi⟩ := List.mem_iff_getElem?.mp hwaiting
    have hpermits : 0 < s.permits := by
      have := hs.permits
      omega
    refine ⟨.acquire i, _, if_pos ⟨hi, hpermits⟩, rfl, ?_⟩
    have hw := count_set_add hi .running .waiting
    have hr := count_set_add hi .running .running
    simp only [reduceCtorEq, if_false, if_true] at hw hr
    simp only [remaining]
    omega

theorem exists_returned (hp : 0 < p.concurrency) (hs : Sound p s) (hmain : s.main = .gathering) :
    ∃ es s', Run (Steps (step p)) s es s' ∧ s'.main = .returned := by
  have hrun : ∃ es u, Run (Steps (step p)) s es u ∧ (Sound p u ∧ u.main = .gathering) ∧
      u.remaining = 0 := by
    refine Run.exists_of_nearer (I := fun s => Sound p s ∧ s.main = .gathering) remaining
      (fun s hs hleft => ?_) ⟨hs, hmain⟩
    obtain ⟨e, u, hu, hmain, hleft⟩ := exists_progress hp hs.1 hleft
    exact ⟨e, u, hu, ⟨hs.1.step hu, hmain.trans hs.2⟩, by omega⟩
  obtain ⟨es, u, hu, ⟨-, hmain'⟩, hzero⟩ := hrun
  have hdone : u.tasks.all Task.isDone = true := by
    unfold remaining at hzero
    refine List.all_eq_true.mpr fun a ha => ?_
    cases a with
    | waiting => exact absurd ha (List.count_eq_zero.mp (by omega))
    | running => exact absurd ha (List.count_eq_zero.mp (by omega))
    | done r => rfl
  have hret : Steps (step p) u .ret { u with main := .returned } := if_pos ⟨hmain', hdone⟩
  exact ⟨es ++ [.ret], _, hu.append (.cons hret (.nil _)), rfl⟩

/-- Behind the return all tasks have ended, and all permits are back. -/
theorem Sound.of_returned (hs : Sound p s) (hmain : s.main = .returned) :
    s.tasks.all Task.isDone = true ∧ s.permits = p.concurrency := by
  have hdone := hs.ended hmain
  have hrunning := count_eq_zero_of_isDone hdone (a := .running) rfl
  have hpermits := hs.permits
  exact ⟨hdone, by omega⟩

/-- **No deadlock.** In every state that a runner with a permit reaches, the permits that are not
left are those of the tasks that run, and it can go on to a return, behind which all tasks have
ended and all permits are back. -/
theorem run_at_rate_returns (hp : 0 < p.concurrency) {t t₀ : ℚ} {es : List Event}
    (h : Run (Steps (step p)) (start p t t₀) es s) :
    s.permits + s.tasks.count .running = p.concurrency ∧
    ∃ es' s', Run (Steps (step p)) s es' s' ∧ s'.main = .returned ∧
      s'.tasks.all Task.isDone = true ∧ s'.permits = p.concurrency := by
  refine ⟨(sound_of_run h).permits, ?_⟩
  have hreturned : ∃ es' s', Run (Steps (step p)) s es' s' ∧ s'.main = .returned := by
    by_cases hmain : s.main = .returned
    · exact ⟨[], s, .nil s, hmain⟩
    · obtain ⟨es₁, u, hu, hmain'⟩ := exists_gathering p s hmain
      obtain ⟨es₂, s', hs', hret⟩ := exists_returned hp (sound_of_run (h.append hu)) hmain'
      exact ⟨es₁ ++ es₂, s', hu.append hs', hret⟩
  obtain ⟨es', s', hs', hret⟩ := hreturned
  exact ⟨es', s', hs', hret, (sound_of_run (h.append hs')).of_returned hret⟩

/-- Ten requests a second for a quarter of a second, one at a time. -/
def samplePlan : Plan := ⟨1 / 4, 1, fun _ => 1 / 10⟩

def answered (allowed : Bool) : Posted := .response 200 (some (reply ⟨allowed, 0, 10, 0, []⟩))

/-- The loop wakes up late behind the first request. -/
def sampleLoad : List Event :=
  [.loop 0, .acquire 0, .wait (3 / 20), .wake, .loop (3 / 20), .finish 0 (answered true),
    .acquire 1, .wait (1 / 5), .wake, .loop (1 / 5)]

def sampleRest : List Event :=
  [.finish 1 .raised, .acquire 2, .finish 2 (answered false), .wait (3 / 10), .wake,
    .loop (3 / 10), .ret]

theorem run_at_rate_accounts_sample : ∃ s,
    Run (Steps (step samplePlan)) (start samplePlan 0 0) (sampleLoad ++ sampleRest) s ∧
    (s.main, s.counters) = (.returned, ⟨2, 1, 1, 1, 0⟩) ∧ s.tasks.count .running ≤ 1 ∧
    s.tasks.length = s.tasks.count .waiting + s.tasks.count .running + s.counters.sent +
      s.counters.errors ∧
    s.counters.sent = s.counters.allowed + s.counters.denied ∧ s.counters.httpErrors = 0 ∧
    (s.main = .returned → s.counters.sent + s.counters.errors = s.tasks.length) := by
  have hend : (exec (step samplePlan) (start samplePlan 0 0) (sampleLoad ++ sampleRest)).map
      (fun s => (s.main, s.counters)) = some (.returned, ⟨2, 1, 1, 1, 0⟩) := by decide +kernel
  obtain ⟨s, hs, hend⟩ := Option.map_eq_some_iff.mp hend
  have hrun := run_of_exec hs
  exact ⟨s, hrun, hend, run_at_rate_accounts hrun⟩

theorem run_at_rate_paces_sample : ∃ s,
    Run (Steps (step samplePlan)) (start samplePlan 0 0) sampleLoad s ∧ s.tasks.length = 3 ∧
    (∀ n < s.tasks.length, due samplePlan 0 n ≤ s.clock ∧ due samplePlan 0 n < 0 + 1 / 4) ∧
    ∀ again s', s.step samplePlan (.loop again) = some s' → s'.main = .sleeping →
      s'.clock < due samplePlan 0 s'.tasks.length := by
  have hend : (exec (step samplePlan) (start samplePlan 0 0) sampleLoad).map
      (fun s => s.tasks.length) = some 3 := by decide +kernel
  obtain ⟨s, hs, hend⟩ := Option.map_eq_some_iff.mp hend
  have hrun := run_of_exec hs
  exact ⟨s, hrun, hend, run_at_rate_paces hrun⟩

theorem run_at_rate_returns_sample : ∃ s,
    Run (Steps (step samplePlan)) (start samplePlan 0 0) sampleLoad s ∧
    s.tasks = [.done (some true), .running, .waiting] ∧
    s.permits + s.tasks.count .running = 1 ∧
    ∃ es' s', Run (Steps (step samplePlan)) s es' s' ∧ s'.main = .returned ∧
      s'.tasks.all Task.isDone = true ∧ s'.permits = 1 := by
  have hend : (exec (step samplePlan) (start samplePlan 0 0) sampleLoad).map Runner.tasks =
      some [.done (some true), .running, .waiting] := by decide +kernel
  obtain ⟨s, hs, hend⟩ := Option.map_eq_some_iff.mp hend
  have hrun := run_of_exec hs
  exact ⟨s, hrun, hend, run_at_rate_returns (by decide) hrun⟩

end Runner

end Gdrl
