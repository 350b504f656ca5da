import Gdrl.Service

/-!
# The buffer under its generators

`FailoverBuffer.drain` is a generator. It takes one entry off its queue at each call of
`next` and is suspended in between, while others push to the same queue or drain it.
`Buffering` is a buffer with all generators on it and with its metrics, and its log has
what was pushed, dropped and yielded, in order.

What happens to the entries of one queue is a matter of lists (`Fates`) : the entries
that are gone were yielded or dropped, oldest first, and the others wait in order.
-/

namespace Gdrl

variable {α : Type}

/-! ## Fates -/

/-- Each pushed entry was yielded or dropped, in the order of the pushes, or is queued
behind those that were. -/
def Fates (pushed yielded dropped queued : List α) : Prop :=
  ∃ gone : List (Bool × α), pushed = gone.map Prod.snd ++ queued ∧
    yielded = (gone.filter fun e => e.1).map Prod.snd ∧
    dropped = (gone.filter fun e => !e.1).map Prod.snd

namespace Fates

variable {pushed yielded dropped queued : List α} {x y : α}

theorem nil : Fates (α := α) [] [] [] [] := ⟨[], rfl, rfl, rfl⟩

theorem push (h : Fates pushed yielded dropped queued) (x : α) :
    Fates (pushed ++ [x]) yielded dropped (queued ++ [x]) := by
  obtain ⟨gone, rfl, hy, hd⟩ := h
  exact ⟨gone, List.append_assoc .., hy, hd⟩

theorem drop (h : Fates pushed yielded dropped (y :: queued)) :
    Fates pushed yielded (dropped ++ [y]) queued := by
  obtain ⟨gone, rfl, rfl, rfl⟩ := h
  exact ⟨gone ++ [(false, y)], by simp, by simp, by simp⟩

theorem yield (h : Fates pushed yielded dropped (y :: queued)) :
    Fates pushed (yielded ++ [y]) dropped queued := by
  obtain ⟨gone, rfl, rfl, rfl⟩ := h
  exact ⟨gone ++ [(true, y)], by simp, by simp, by simp⟩

theorem suffix (h : Fates pushed yielded dropped queued) : queued <:+ pushed := by
  obtain ⟨gone, rfl, -, -⟩ := h
  exact List.suffix_append _ _

/-- No entry is lost, none is there twice. -/
theorem length (h : Fates pushed yielded dropped queued) :
    pushed.length = yielded.length + dropped.length + queued.length := by
  obtain ⟨gone, rfl, rfl, rfl⟩ := h
  have := List.length_eq_length_filter_add (l := gone) fun e => e.1
  simp only [List.length_append, List.length_map]
  omega

end Fates

/-- One queue, with all that was ever pushed to it. -/
structure Account (α : Type) where
  pushed : List α
  yielded : List α
  dropped : List α
  queued : List α
  /-- The calls of `push` that returned `False`. -/
  refused : ℕ
  overflow : ℕ

namespace Account

/-- An entry in, and the oldest one out if there is no room. -/
def push (a : Account α) (cap : ℕ) (x : α) : Account α :=
  if a.queued.length < cap then
    { a with pushed := a.pushed ++ [x], queued := a.queued ++ [x] }
  else
    { a with
      pushed := a.pushed ++ [x]
      dropped := a.dropped ++ a.queued.take 1
      queued := a.queued.tail ++ [x]
      refused := a.refused + 1
      overflow := a.overflow + 1 }

/-- The oldest entry out. -/
def yield (a : Account α) : Account α :=
  match a.queued with
  | [] => a
  | x :: q => { a with yielded := a.yielded ++ [x], queued := q }

/-- A queue of at most `cap` entries that keeps its books. -/
structure Sound (cap : ℕ) (a : Account α) : Prop where
  fates : Fates a.pushed a.yielded a.dropped a.queued
  refused : a.refused = a.dropped.length
  overflow : a.overflow = a.dropped.length
  size : a.queued.length ≤ cap

theorem Sound.push {cap : ℕ} {a : Account α} (h : a.Sound cap) (hcap : 0 < cap) (x : α) :
    (a.push cap x).Sound cap := by
  obtain ⟨pushed, yielded, dropped, queued, refused, overflow⟩ := a
  obtain ⟨hfates, hrefused, hoverflow, hsize⟩ := h
  unfold Account.push
  dsimp only at *
  split_ifs with hroom
  · exact ⟨hfates.push x, hrefused, hoverflow, by simpa using hroom⟩
  · cases queued with
    | nil => exact absurd hcap hroom
    | cons y q =>
      refine ⟨hfates.drop.push x, ?_, ?_, ?_⟩
      · simpa using hrefused
      · simpa using hoverflow
      · simpa using hsize

theorem Sound.yield {cap : ℕ} {a : Account α} (h : a.Sound cap) : a.yield.Sound cap := by
  obtain ⟨pushed, yielded, dropped, queued, refused, overflow⟩ := a
  cases queued with
  | nil => exact h
  | cons x q => exact ⟨h.fates.yield, h.refused, h.overflow, (Nat.le_succ _).trans h.size⟩

end Account

/-! ## Generators -/

/-- How far a generator is : its body has not started, it is suspended at its `yield`, or
it has ended. -/
inductive DrainStage
  | created | suspended | finished
  deriving DecidableEq

/-- A generator of `FailoverBuffer.drain`. -/
structure Drain where
  kind : Str
  stage : DrainStage

/-- What the calls did. -/
inductive Record (α : Type)
  /-- `push` returned. -/
  | pushed (kind : Str) (x : α) (returned : Bool)
  /-- `push` took an entry off a full queue. -/
  | dropped (kind : Str) (x : α)
  | yielded (kind : Str) (x : α)

/-- The front of a queue, and the buffer without it. -/
def FailoverBuffer.popleft (b : FailoverBuffer α) (kind : Str) : Option (α × FailoverBuffer α) :=
  match b.queues kind with
  | [] => none
  | x :: q => some (x, { b with queues := fun k => if k = kind then q else b.queues k })

namespace FailoverBuffer

theorem ext_queues {b b' : FailoverBuffer α} (hcap : b.cap = b'.cap)
    (hqueues : ∀ k, b.queues k = b'.queues k) : b = b' := by
  obtain ⟨cap, hpos, queues⟩ := b
  obtain ⟨cap', hpos', queues'⟩ := b'
  obtain rfl : cap = cap' := hcap
  obtain rfl : queues = queues' := funext hqueues
  rfl

/-- A full queue is not empty. -/
theorem room_or_full (b : FailoverBuffer α) (kind : Str) :
    (b.queues kind).length < b.cap ∨
      ∃ y q, b.queues kind = y :: q ∧ ¬ (y :: q).length < b.cap := by
  cases hq : b.queues kind with
  | nil => exact Or.inl b.cap_pos
  | cons y q => exact (em _).imp_right fun h => ⟨y, q, rfl, h⟩

theorem push_of_room {b : FailoverBuffer α} {kind : Str} (h : (b.queues kind).length < b.cap)
    (x : α) : b.push kind x = (true, { b with
      queues := fun k => if k = kind then b.queues kind ++ [x] else b.queues k }) := by
  simp [push, h, not_le.mpr h]

theorem push_of_full {b : FailoverBuffer α} {kind : Str} {y : α} {q : List α}
    (hq : b.queues kind = y :: q) (h : ¬ (y :: q).length < b.cap) (x : α) :
    b.push kind x =
      (false, { b with queues := fun k => if k = kind then q ++ [x] else b.queues k }) := by
  unfold push
  simp only [hq, h, not_lt.mp h, decide_false, if_true, List.tail_cons]

end FailoverBuffer

/-- A number of one kind replaced. -/
def setKind (f : Str → ℕ) (kind : Str) (n : ℕ) : Str → ℕ := fun k => if k = kind then n else f k

/-- A buffer in use. `overflow` is how far `BUFFER_OVERFLOW` has gone up, `gauge` is
`BUFFER_SIZE`, an unset one reading as 0. -/
structure Buffering (α : Type) where
  buffer : FailoverBuffer α
  drains : List Drain
  overflow : Str → ℕ
  gauge : Str → ℕ
  log : List (Record α)

namespace Buffering

/-- A new buffer. -/
def init (cap : ℕ) (hcap : 0 < cap) : Buffering α :=
  ⟨⟨cap, hcap, fun _ => []⟩, [], fun _ => 0, fun _ => 0, []⟩

/-- Calls. Generators go by their place in `drains`. -/
inductive Event (α : Type)
  | push (kind : Str) (x : α)
  /-- `drain` makes a generator. -/
  | drain (kind : Str)
  | next (i : ℕ)
  /-- A generator is closed, or nobody holds it any more. -/
  | close (i : ℕ)

def setGauge (s : Buffering α) (kind : Str) : Buffering α :=
  { s with gauge := setKind s.gauge kind (s.buffer.size kind) }

def setDrain (s : Buffering α) (i : ℕ) (d : Drain) : Buffering α :=
  { s with drains := s.drains.set i d }

/-- `FailoverBuffer.push`, with its metrics. -/
def push (s : Buffering α) (kind : Str) (x : α) : Buffering α :=
  let (returned, b) := s.buffer.push kind x
  let dropped := if returned then [] else (s.buffer.queues kind).take 1
  let s' : Buffering α := { s with
    buffer := b
    overflow := if returned then s.overflow else setKind s.overflow kind (s.overflow kind + 1)
    log := s.log ++ dropped.map (.dropped kind) ++ [.pushed kind x returned] }
  s'.setGauge kind

/-- On to the next `yield`, or to the end. -/
def resume (s : Buffering α) (i : ℕ) (kind : Str) : Buffering α :=
  match s.buffer.popleft kind with
  | none => s.setDrain i ⟨kind, .finished⟩
  | some (x, b) =>
    let s' : Buffering α := { s with buffer := b, log := s.log ++ [.yielded kind x] }
    s'.setDrain i ⟨kind, .suspended⟩

/-- `next` of a generator. The gauge is set once the generator goes on. -/
def next (s : Buffering α) (i : ℕ) (d : Drain) : Buffering α :=
  match d.stage with
  | .created => s.resume i d.kind
  | .suspended => (s.setGauge d.kind).resume i d.kind
  | .finished => s

/-- One call, `none` for a generator that is not there. -/
def step (s : Buffering α) : Event α → Option (Buffering α)
  | .push kind x => some (s.push kind x)
  | .drain kind => some { s with drains := s.drains ++ [⟨kind, .created⟩] }
  | .next i => s.drains[i]?.map fun d => s.next i d
  | .close i => s.drains[i]?.map fun d => s.setDrain i ⟨d.kind, .finished⟩

/-- The kind that a call is about. -/
def kindOf (s : Buffering α) : Event α → Option Str
  | .push kind _ => some kind
  | .drain kind => some kind
  | .next i => s.drains[i]?.map Drain.kind
  | .close i => s.drains[i]?.map Drain.kind

/-! ## Observations -/

/-- The entries pushed to a kind. -/
def pushed (s : Buffering α) (kind : Str) : List α :=
  s.log.filterMap fun
    | .pushed k x _ => if k = kind then some x else none
    | _ => none

def dropped (s : Buffering α) (kind : Str) : List α :=
  s.log.filterMap fun
    | .dropped k x => if k = kind then some x else none
    | _ => none

/-- The entries that generators of a kind have yielded. -/
def yielded (s : Buffering α) (kind : Str) : List α :=
  s.log.filterMap fun
    | .yielded k x => if k = kind then some x else none
    | _ => none

/-- How many calls of `push` returned `False`. -/
def refused (s : Buffering α) (kind : Str) : ℕ :=
  s.log.countP fun
    | .pushed k _ returned => k = kind && !returned
    | _ => false

/-- The books of one kind. -/
def account (s : Buffering α) (kind : Str) : Account α :=
  ⟨s.pushed kind, s.yielded kind, s.dropped kind, s.buffer.queues kind, s.refused kind,
    s.overflow kind⟩

theorem account_push_self (s : Buffering α) (kind : Str) (x : α) :
    (s.push kind x).account kind = (s.account kind).push s.buffer.cap x := by
  unfold push Account.push
  rcases s.buffer.room_or_full kind with h | ⟨y, q, hq, h⟩
  · rw [FailoverBuffer.push_of_room h]
    simp [account, setGauge, pushed, yielded, dropped, refused, h]
  · rw [FailoverBuffer.push_of_full hq h]
    simp only [account, setGauge, hq, if_neg h]
    simp [pushed, yielded, dropped, refused, setKind]

theorem account_push_of_ne (s : Buffering α) {kind k : Str} (hk : k ≠ kind) (x : α) :
    (s.push kind x).account k = s.account k := by
  unfold push
  rcases s.buffer.room_or_full kind with h | ⟨y, q, hq, h⟩
  · rw [FailoverBuffer.push_of_room h]
    simp [account, setGauge, pushed, yielded, dropped, refused, hk, hk.symm]
  · rw [FailoverBuffer.push_of_full hq h]
    simp [account, setGauge, pushed, yielded, dropped, refused, setKind, hq, hk, hk.symm]

theorem account_resume_self (s : Buffering α) (i : ℕ) (kind : Str) :
    (s.resume i kind).account kind = (s.account kind).yield := by
  unfold resume FailoverBuffer.popleft Account.yield
  cases hq : s.buffer.queues kind with
  | nil => simp [account, setDrain, pushed, yielded, dropped, refused, hq]
  | cons x q => simp [account, setDrain, pushed, yielded, dropped, refused, hq]

theorem account_resume_of_ne (s : Buffering α) (i : ℕ) {kind k : Str} (hk : k ≠ kind) :
    (s.resume i kind).account k = s.account k := by
  unfold resume FailoverBuffer.popleft
  cases hq : s.buffer.queues kind with
  | nil => rfl
  | cons x q => simp [account, setDrain, pushed, yielded, dropped, refused, hk, hk.symm]

@[simp] theorem resume_cap (s : Buffering α) (i : ℕ) (kind : Str) :
    (s.resume i kind).buffer.cap = s.buffer.cap := by
  unfold resume FailoverBuffer.popleft
  cases s.buffer.queues kind <;> rfl

/-- A generator that goes on does nothing or takes one entry. -/
theorem account_next (s : Buffering α) (i : ℕ) (d : Drain) :
    (s.next i d).account d.kind = s.account d.kind ∨
      (s.next i d).account d.kind = (s.account d.kind).yield := by
  unfold next
  cases d.stage with
  | created => exact Or.inr (s.account_resume_self i d.kind)
  | suspended => exact Or.inr ((s.setGauge d.kind).account_resume_self i d.kind)
  | finished => exact Or.inl rfl

theorem account_next_of_ne (s : Buffering α) (i : ℕ) {d : Drain} {k : Str} (hk : k ≠ d.kind) :
    (s.next i d).account k = s.account k := by
  unfold next
  cases d.stage with
  | created => exact s.account_resume_of_ne i hk
  | suspended => exact (s.setGauge d.kind).account_resume_of_ne i hk
  | finished => rfl

/-- What a call does to the books of a kind. -/
theorem account_step {s s' : Buffering α} {e : Event α} (h : s.step e = some s') (k : Str) :
    s'.account k = s.account k ∨ (∃ x, s'.account k = (s.account k).push s.buffer.cap x) ∨
      s'.account k = (s.account k).yield := by
  cases e with
  | push kind x =>
    obtain rfl := Option.some.inj h
    by_cases hk : k = kind
    · subst hk
      exact Or.inr (Or.inl ⟨x, s.account_push_self k x⟩)
    · exact Or.inl (s.account_push_of_ne hk x)
  | drain kind =>
    obtain rfl := Option.some.inj h
    exact Or.inl rfl
  | next i =>
    obtain ⟨d, -, rfl⟩ := Option.map_eq_some_iff.mp h
    by_cases hk : k = d.kind
    · subst hk
      exact (s.account_next i d).imp_right Or.inr
    · exact Or.inl (s.account_next_of_ne i hk)
  | close i =>
    obtain ⟨d, -, rfl⟩ := Option.map_eq_some_iff.mp h
    exact Or.inl rfl

theorem step_cap {s s' : Buffering α} {e : Event α} (h : s.step e = some s') :
    s'.buffer.cap = s.buffer.cap := by
  cases e with
  | push kind x =>
    obtain rfl := Option.some.inj h
    rfl
  | drain kind =>
    obtain rfl := Option.some.inj h
    rfl
  | next i =>
    obtain ⟨d, -, rfl⟩ := Option.map_eq_some_iff.mp h
    unfold next
    cases d.stage with
    | created => exact resume_cap s i d.kind
    | suspended => exact resume_cap (s.setGauge d.kind) i d.kind
    | finished => rfl
  | close i =>
    obtain ⟨d, -, rfl⟩ := Option.map_eq_some_iff.mp h
    rfl

/-! ## Other kinds -/

/-- A call has left a kind alone : its books, its gauge and its generators. -/
structure Untouched (s s' : Buffering α) (k : Str) : Prop where
  account : s'.account k = s.account k
  gauge : s'.gauge k = s.gauge k
  drains : ∀ (j : ℕ) (d : Drain), d.kind = k → (s'.drains[j]? = some d ↔ s.drains[j]? = some d)

theorem getElem?_set_drain {ds : List Drain} {i : ℕ} {d c : Drain} (hi : ds[i]? = some d)
    (hc : c.kind ≠ d.kind) (stage : DrainStage) (j : ℕ) :
    (ds.set i ⟨d.kind, stage⟩)[j]? = some c ↔ ds[j]? = some c := by
  by_cases hij : i = j
  · subst hij
    rw [List.getElem?_set_self (List.getElem?_eq_some_iff.mp hi).1, hi]
    constructor
    · intro h
      exact absurd (Option.some.inj h ▸ rfl) hc
    · intro h
      exact absurd (Option.some.inj h ▸ rfl) hc
  · rw [List.getElem?_set_ne hij]

theorem untouched_resume {s : Buffering α} {i : ℕ} {d : Drain} (hi : s.drains[i]? = some d)
    {k : Str} (hk : k ≠ d.kind) : Untouched s (s.resume i d.kind) k := by
  refine ⟨s.account_resume_of_ne i hk, ?_, fun j c hc => ?_⟩
  · unfold resume
    split <;> rfl
  · unfold resume
    split <;> exact getElem?_set_drain hi (hc ▸ hk) _ j

/-- A call leaves all kinds alone that it is not about. -/
theorem untouched_step {s s' : Buffering α} {e : Event α} (h : s.step e = some s') {k : Str}
    (hk : s.kindOf e ≠ some k) : Untouched s s' k := by
  have hne : ∀ {i : ℕ} {d : Drain}, s.drains[i]? = some d → s.drains[i]?.map Drain.kind ≠ some k →
      k ≠ d.kind := by
    rintro i d hi hk rfl
    exact hk (by rw [hi]; rfl)
  cases e with
  | push kind x =>
    obtain rfl := Option.some.inj h
    have hk : k ≠ kind := fun h => hk (congrArg some h.symm)
    exact ⟨s.account_push_of_ne hk x, if_neg hk, fun _ _ _ => Iff.rfl⟩
  | drain kind =>
    obtain rfl := Option.some.inj h
    refine ⟨rfl, rfl, fun j d hd => ?_⟩
    have hkind : kind ≠ d.kind := fun h => hk (congrArg some (h.trans hd))
    rw [List.getElem?_append]
    split_ifs with hlt
    · exact Iff.rfl
    · rw [List.getElem?_eq_none (not_lt.mp hlt), List.getElem?_singleton]
      split_ifs
      · simp only [Option.some.injEq, iff_false]
        rintro rfl
        exact hkind rfl
      · exact Iff.rfl
  | next i =>
    obtain ⟨d, hi, rfl⟩ := Option.map_eq_some_iff.mp h
    have hk := hne hi hk
    unfold next
    cases d.stage with
    | created => exact untouched_resume hi hk
    | suspended =>
      have hresume := untouched_resume (show (s.setGauge d.kind).drains[i]? = some d from hi) hk
      exact ⟨hresume.account, hresume.gauge.trans (if_neg hk), hresume.drains⟩
    | finished => exact ⟨rfl, rfl, fun _ _ _ => Iff.rfl⟩
  | close i =>
    obtain ⟨d, hi, rfl⟩ := Option.map_eq_some_iff.mp h
    exact ⟨rfl, rfl, fun j c hc => getElem?_set_drain hi (hc ▸ hne hi hk) _ j⟩

/-! ## Runs -/

/-- The books of every kind are right. -/
def Sound (cap : ℕ) (s : Buffering α) : Prop :=
  s.buffer.cap = cap ∧ ∀ k, (s.account k).Sound cap

theorem sound_init (cap : ℕ) (hcap : 0 < cap) : (init (α := α) cap hcap).Sound cap :=
  ⟨rfl, fun _ => ⟨.nil, rfl, rfl, Nat.zero_le _⟩⟩

theorem sound_step {cap : ℕ} {s s' : Buffering α} {e : Event α} (hs : s.Sound cap)
    (h : s.step e = some s') : s'.Sound cap := by
  obtain ⟨hcap, hs⟩ := hs
  refine ⟨(step_cap h).trans hcap, fun k => ?_⟩
  rcases account_step h k with h | ⟨x, h⟩ | h
  · exact h ▸ hs k
  · rw [h, hcap]
    exact (hs k).push (hcap ▸ s.buffer.cap_pos) x
  · exact h ▸ (hs k).yield

/-- **The failover buffer.** In every run and for every kind, the queue is a suffix of what
was pushed, every pushed entry has one fate, in the order of the pushes, the numbers add up,
the drops are the refusals and the overflow, no queue is too long, and a call that is about
another kind leaves this one alone. -/
theorem bounded_fifo {cap : ℕ} {hcap : 0 < cap} {es : List (Event α)} {s : Buffering α}
    (h : Run (Steps step) (init cap hcap) es s) (k : Str) :
    s.buffer.queues k <:+ s.pushed k ∧
    Fates (s.pushed k) (s.yielded k) (s.dropped k) (s.buffer.queues k) ∧
    (s.pushed k).length = (s.yielded k).length + (s.dropped k).length + s.buffer.size k ∧
    (s.dropped k).length = s.refused k ∧ (s.dropped k).length = s.overflow k ∧
    s.buffer.size k ≤ cap ∧
    ∀ e s', s.step e = some s' → s.kindOf e ≠ some k → Untouched s s' k := by
  have hs := (h.invariant (I := Sound cap) (fun _ _ _ hs hstep => sound_step hs hstep)
    (sound_init cap hcap)).2 k
  exact ⟨hs.fates.suffix, hs.fates, hs.fates.length, hs.refused.symm, hs.overflow.symm, hs.size,
    fun e s' hstep hk => untouched_step hstep hk⟩

/-- Between the `next`s of a generator come a push that drops and another kind. -/
def sampleCalls : List (Event ℕ) :=
  [.push (str "a") 1, .drain (str "a"), .next 0, .push (str "a") 2, .push (str "b") 4,
    .push (str "a") 3, .next 0]

theorem bounded_fifo_sample : ∃ s : Buffering ℕ, Run (Steps step) (init 1 one_pos) sampleCalls s ∧
    (s.yielded (str "a") = [1, 3] ∧ s.dropped (str "a") = [2]) ∧
    s.buffer.queues (str "b") <:+ s.pushed (str "b") ∧
    Fates (s.pushed (str "b")) (s.yielded (str "b")) (s.dropped (str "b"))
      (s.buffer.queues (str "b")) ∧
    (s.pushed (str "b")).length =
      (s.yielded (str "b")).length + (s.dropped (str "b")).length + s.buffer.size (str "b") ∧
    (s.dropped (str "b")).length = s.refused (str "b") ∧
    (s.dropped (str "b")).length = s.overflow (str "b") ∧ s.buffer.size (str "b") ≤ 1 ∧
    ∀ e s', s.step e = some s' → s.kindOf e ≠ some (str "b") → Untouched s s' (str "b") := by
  have hend : (exec step (init 1 one_pos) sampleCalls).map
      (fun s => (s.yielded (str "a"), s.dropped (str "a"))) = some ([1, 3], [2]) := by
    decide +kernel
  obtain ⟨s, hs, hlists⟩ := Option.map_eq_some_iff.mp hend
  have hrun := run_of_exec hs
  exact ⟨s, hrun, Prod.mk.inj hlists, bounded_fifo hrun (str "b")⟩

/-! ## A generator taken to its end -/

theorem next_of_nil {s : Buffering α} {d : Drain} (hd : d.stage ≠ .finished)
    (hq : s.buffer.queues d.kind = []) (i : ℕ) :
    (s.next i d).buffer = s.buffer ∧ (s.next i d).log = s.log ∧
      (s.next i d).drains = s.drains.set i ⟨d.kind, .finished⟩ := by
  unfold next resume FailoverBuffer.popleft
  cases hstage : d.stage with
  | created => simp [hq, setDrain]
  | suspended => simp [hq, setDrain, setGauge]
  | finished => exact absurd hstage hd

theorem next_of_cons {s : Buffering α} {d : Drain} (hd : d.stage ≠ .finished) {x : α} {q : List α}
    (hq : s.buffer.queues d.kind = x :: q) (i : ℕ) :
    (s.next i d).buffer =
        { s.buffer with queues := fun k => if k = d.kind then q else s.buffer.queues k } ∧
      (s.next i d).log = s.log ++ [.yielded d.kind x] ∧
      (s.next i d).drains = s.drains.set i ⟨d.kind, .suspended⟩ := by
  unfold next resume FailoverBuffer.popleft
  cases hstage : d.stage with
  | created => simp [hq, setDrain]
  | suspended => simp [hq, setDrain, setGauge]
  | finished => exact absurd hstage hd

/-- Without a push in between, a generator is `FailoverBuffer.drain`. -/
theorem exhaust {s : Buffering α} {i : ℕ} {d : Drain} (hi : s.drains[i]? = some d)
    (hd : d.stage ≠ .finished) :
    ∃ s', Run (Steps step) s (List.replicate (s.buffer.size d.kind + 1) (.next i)) s' ∧
      s'.buffer = (s.buffer.drain d.kind).2 ∧
      s'.log = s.log ++ (s.buffer.drain d.kind).1.map (.yielded d.kind) ∧
      s'.drains[i]? = some ⟨d.kind, .finished⟩ := by
  have hstep : ∀ (s : Buffering α) (d : Drain), s.drains[i]? = some d →
      Steps step s (.next i) (s.next i d) := fun s d hi => congrArg (Option.map _) hi
  have hset : ∀ {s : Buffering α} {d : Drain} (d' : Drain), s.drains[i]? = some d →
      (s.drains.set i d')[i]? = some d' := fun d' hi =>
    List.getElem?_set_self (List.getElem?_eq_some_iff.mp hi).1
  unfold FailoverBuffer.size FailoverBuffer.drain
  induction hq : s.buffer.queues d.kind generalizing s d with
  | nil =>
    obtain ⟨hbuffer, hlog, hdrains⟩ := next_of_nil hd hq i
    refine ⟨_, .cons (hstep s d hi) (.nil _), ?_, ?_, hdrains ▸ hset _ hi⟩
    · rw [hbuffer]
      refine FailoverBuffer.ext_queues rfl fun k => ?_
      dsimp only
      split_ifs with hk
      · rw [hk, hq]
      · rfl
    · rw [hlog]
      simp
  | cons x q ih =>
    obtain ⟨hbuffer, hlog, hdrains⟩ := next_of_cons hd hq i
    have hq' : (s.next i d).buffer.queues d.kind = q := by
      rw [hbuffer]
      exact if_pos rfl
    obtain ⟨s', hrun, hbuffer', hlog', hdrains'⟩ :=
      @ih (s.next i d) ⟨d.kind, .suspended⟩ (hdrains ▸ hset _ hi) nofun hq'
    refine ⟨s', .cons (hstep s d hi) hrun, ?_, ?_, hdrains'⟩
    · rw [hbuffer', hbuffer]
      refine FailoverBuffer.ext_queues rfl fun k => ?_
      dsimp only
      split_ifs <;> rfl
    · rw [hlog', hlog]
      simp

end Buffering

end Gdrl
