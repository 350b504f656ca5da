import Gdrl.Counter
import Gdrl.Run

/-!
# The relay

`receive` is what `Relay._handle` makes of the bytes of one message before it touches
Redis : it drops the message, lets an exception through, or has slots to apply. `handle`
applies them one by one, `run` is `Relay.run` over a sequence of messages and edits of
the partition table. An exception that comes out of `handle` ends the run.
-/

namespace Gdrl

/-! ## Collaborators -/

/-- `PartitionTable` : a set of directed pairs. -/
structure PartitionTable where
  rules : List (Str × Str)

namespace PartitionTable

def empty : PartitionTable := ⟨[]⟩

def add (t : PartitionTable) (f g : Str) : PartitionTable := ⟨(f, g) :: t.rules⟩

def remove (t : PartitionTable) (f g : Str) : PartitionTable :=
  ⟨t.rules.filter fun r => r ≠ (f, g)⟩

def blocks (t : PartitionTable) (f g : Str) : Bool := t.rules.contains (f, g)

end PartitionTable

/-- `FailoverBuffer` : a queue per kind, of at most `cap` entries. -/
structure FailoverBuffer (α : Type) where
  cap : ℕ
  cap_pos : 0 < cap
  queues : Str → List α

namespace FailoverBuffer

variable {α : Type}

/-- A buffer with the default `cap`. -/
def new : FailoverBuffer α := ⟨10000, by decide, fun _ => []⟩

/-- `FailoverBuffer.push`. A full queue loses its oldest entry. -/
def push (b : FailoverBuffer α) (kind : Str) (x : α) : Bool × FailoverBuffer α :=
  let q := b.queues kind
  let q' := if b.cap ≤ q.length then q.tail ++ [x] else q ++ [x]
  (q.length < b.cap, { b with queues := fun k => if k = kind then q' else b.queues k })

/-- `FailoverBuffer.drain`, taken to its end with no `push` in between. -/
def drain (b : FailoverBuffer α) (kind : Str) : List α × FailoverBuffer α :=
  (b.queues kind, { b with queues := fun k => if k = kind then [] else b.queues k })

/-- `FailoverBuffer.size` -/
def size (b : FailoverBuffer α) (kind : Str) : ℕ := (b.queues kind).length

/-- A queue with room takes an entry at its end. -/
theorem push_queues {b : FailoverBuffer α} {kind : Str} (h : b.size kind < b.cap) (x : α) :
    (b.push kind x).2.queues kind = b.queues kind ++ [x] := by
  simp only [push, if_true]
  exact if_neg (not_le.mpr h)

theorem mem_push {b : FailoverBuffer α} {kind k : Str} {x y : α}
    (h : y ∈ (b.push kind x).2.queues k) : y ∈ b.queues k ∨ (k = kind ∧ y = x) := by
  simp only [push] at h
  split_ifs at h with hk hcap
  · subst hk
    rcases List.mem_append.mp h with h | h
    · exact Or.inl (List.mem_of_mem_tail h)
    · exact Or.inr ⟨rfl, List.mem_singleton.mp h⟩
  · subst hk
    rcases List.mem_append.mp h with h | h
    · exact Or.inl h
    · exact Or.inr ⟨rfl, List.mem_singleton.mp h⟩
  · exact Or.inl h

end FailoverBuffer

/-! ## One message -/

inductive Kind
  | counter | reconcile
  deriving DecidableEq, Repr

/-- What becomes of a message : dropped as malformed, an exception that nothing catches,
dropped at the partition or as the region's own, or slots to apply. -/
inductive Receipt
  | malformed (e : EnvelopeError)
  | raised (e : PyError)
  | partition
  | selfOrigin
  | apply (kind : Kind) (writes : List SlotWrite) (tsMs : ℤ)

namespace Envelope

/-- The region an envelope claims. -/
def asserted : Envelope → Region
  | counter env => env.region
  | reconcile env => env.origin

def kind : Envelope → Kind
  | counter _ => .counter
  | reconcile _ => .reconcile

def tsMs : Envelope → ℤ
  | counter env => env.tsMs
  | reconcile env => env.tsMs

/-- The slots an envelope carries. -/
def writes : Envelope → List SlotWrite
  | counter env => [⟨env.tier, env.userId, env.windowId, env.region, env.value⟩]
  | reconcile env =>
    env.slots.entries.map fun e => ⟨e.1.1, e.1.2, env.windowId, env.origin, e.2⟩

theorem peer_of_mem_writes {env : Envelope} {w : SlotWrite} (hw : w ∈ env.writes) :
    w.peer = env.asserted := by
  cases env with
  | counter env =>
    obtain rfl := List.mem_singleton.mp hw
    rfl
  | reconcile env =>
    obtain ⟨e, -, rfl⟩ := List.mem_map.mp hw
    rfl

end Envelope

namespace Relay

/-- `"relay_apply"`, the relay's kind in the buffer. -/
def bufferKind : Str := str "relay_apply"

/-- `Relay._handle` up to the first slot. -/
def receive (py : Python) (self : Region) (table : PartitionTable) (raw : List Byte) : Receipt :=
  match parse py raw with
  | .error (.envelope e) => .malformed e
  | .error (.py e) => .raised e
  | .ok env =>
    if table.blocks env.asserted.name self.name then .partition
    else if env.asserted = self then .selfOrigin
    else .apply env.kind env.writes env.tsMs

/-- What the relay of one region works on. -/
structure State where
  redis : GlobalRedis
  table : PartitionTable
  buffer : FailoverBuffer SlotWrite

/-- One slot : applied, or put into the buffer if the call raises. The flag says that the
call returned. -/
def applyOne (self : Region) (w : SlotWrite) (out : Outcome) (nowMs : ℤ) (s : State) :
    Bool × State :=
  match applyRemoteSlot self w out nowMs s.redis with
  | (.ok _, m) => (true, { s with redis := m })
  | (.error .ownSlotWrite, m) => (false, { s with redis := m })
  | (.error _, m) => (false, { s with redis := m, buffer := (s.buffer.push bufferKind w).2 })

/-- The commands of one message : how the `n`-th one ends, and when. -/
abbrev Calls := ℕ → Outcome × ℤ

/-- The slots of a message in order. -/
def applyAll (self : Region) : Calls → List SlotWrite → State → State
  | _, [], s => s
  | calls, w :: ws, s =>
    applyAll self (fun n => calls (n + 1)) ws (applyOne self w (calls 0).1 (calls 0).2 s).2

/-- `Relay._observe` subtracts an `int` from a `float`. -/
def observe (tsMs : ℤ) : Option PyError :=
  if (Float64.ofInt tsMs).isFinite then none else some .overflow

/-- `Relay._handle`, with the exception that comes out of it. A counter message whose slot
could not be applied is not observed; a reconcile message is, in any case. -/
def handle (py : Python) (self : Region) (raw : List Byte) (calls : Calls) (s : State) :
    Option PyError × State :=
  match receive py self s.table raw with
  | .malformed _ => (none, s)
  | .raised e => (some e, s)
  | .partition => (none, s)
  | .selfOrigin => (none, s)
  | .apply .counter writes tsMs =>
    match writes with
    | [] => (observe tsMs, s)
    | w :: _ =>
      let (returned, s') := applyOne self w (calls 0).1 (calls 0).2 s
      (if returned then observe tsMs else none, s')
  | .apply .reconcile writes tsMs => (observe tsMs, applyAll self calls writes s)

/-- What the relay meets : a message, with what becomes of its commands, or an edit of the
partition table by the admin surface. -/
inductive Event
  | deliver (raw : List Byte) (calls : Calls)
  | add (f g : Str)
  | remove (f g : Str)
  | clear

def step (py : Python) (self : Region) (s : State) : Event → Option PyError × State
  | .deliver raw calls => handle py self raw calls s
  | .add f g => (none, { s with table := s.table.add f g })
  | .remove f g => (none, { s with table := s.table.remove f g })
  | .clear => (none, { s with table := .empty })

/-- `Relay.run`, up to the first exception. -/
def run (py : Python) (self : Region) : State → List Event → Option PyError × State
  | s, [] => (none, s)
  | s, e :: es =>
    match step py self s e with
    | (some err, s') => (some err, s')
    | (none, s') => run py self s' es

theorem run_deliver_none {py : Python} {self : Region} {raw : List Byte} {calls : Calls} {s : State}
    (h : (handle py self raw calls s).1 = none) (es : List Event) :
    run py self s (.deliver raw calls :: es) = run py self (handle py self raw calls s).2 es := by
  rw [run, step, ← Prod.eta (handle py self raw calls s), h]

theorem run_deliver_some {py : Python} {self : Region} {raw : List Byte} {calls : Calls} {s : State}
    {e : PyError} (h : (handle py self raw calls s).1 = some e) (es : List Event) :
    run py self s (.deliver raw calls :: es) = (some e, (handle py self raw calls s).2) := by
  rw [run, step, ← Prod.eta (handle py self raw calls s), h]

/-! ## Frames -/

@[simp] theorem applyOne_table (self : Region) (w : SlotWrite) (out : Outcome) (nowMs : ℤ)
    (s : State) : (applyOne self w out nowMs s).2.table = s.table := by
  unfold applyOne
  split <;> rfl

@[simp] theorem applyAll_table (self : Region) (calls : Calls) (ws : List SlotWrite) (s : State) :
    (applyAll self calls ws s).table = s.table := by
  induction ws generalizing calls s with
  | nil => rfl
  | cons w ws ih => rw [applyAll, ih, applyOne_table]

theorem applyOne_redis (self : Region) (w : SlotWrite) (out : Outcome) (nowMs : ℤ) (s : State) :
    (applyOne self w out nowMs s).2.redis = (applyRemoteSlot self w out nowMs s.redis).2 := by
  unfold applyOne
  split <;> simp_all

theorem applyOne_returned (self : Region) (w : SlotWrite) (out : Outcome) (nowMs : ℤ) (s : State) :
    (applyOne self w out nowMs s).1 = true ↔
      w.peer ≠ self ∧ w.sendable = true ∧ out = .ok := by
  rw [← applyRemoteSlot_ok self w out nowMs s.redis]
  unfold applyOne
  split <;> simp_all

/-- No message touches the partition table. -/
@[simp] theorem handle_table (py : Python) (self : Region) (raw : List Byte) (calls : Calls)
    (s : State) : (handle py self raw calls s).2.table = s.table := by
  unfold handle
  split
  · rfl
  · rfl
  · rfl
  · rfl
  · split
    · rfl
    · exact applyOne_table _ _ _ _ _
  · exact applyAll_table _ _ _ _

/-- An envelope whose handling lets no exception through. -/
def Quiet (self : Region) (table : PartitionTable) (calls : Calls) (env : Envelope) : Prop :=
  table.blocks env.asserted.name self.name = true ∨ env.asserted = self ∨
    (env.kind = .counter ∧ ∀ w ∈ env.writes, ¬ (w.sendable = true ∧ (calls 0).1 = .ok)) ∨
    (Float64.ofInt env.tsMs).isFinite = true

theorem observe_eq_none (tsMs : ℤ) :
    observe tsMs = none ↔ (Float64.ofInt tsMs).isFinite = true := by
  unfold observe
  split_ifs with h <;> simp [h]

/-- What handling does with what `parse` returns. -/
theorem handle_quiet (py : Python) (self : Region) (raw : List Byte) (calls : Calls) (s : State) :
    (handle py self raw calls s).1 = none ↔
      match parse py raw with
      | .error (.envelope _) => True
      | .error (.py _) => False
      | .ok env => Quiet self s.table calls env := by
  unfold handle receive
  match parse py raw with
  | .error (.envelope e) => simp
  | .error (.py e) => simp
  | .ok env =>
    dsimp only
    by_cases h1 : s.table.blocks env.asserted.name self.name = true
    · simp [h1, Quiet]
    · rw [if_neg h1]
      by_cases h2 : env.asserted = self
      · simp [h2, Quiet]
      · rw [if_neg h2]
        cases env with
        | counter env =>
          have hret := applyOne_returned self
            ⟨env.tier, env.userId, env.windowId, env.region, env.value⟩ (calls 0).1 (calls 0).2 s
          have hpeer : env.region ≠ self := h2
          simp only [hpeer, ne_eq, not_false_eq_true, true_and] at hret
          simp only [Envelope.kind, Envelope.writes, Envelope.tsMs, Quiet, h1, h2, false_or,
            List.mem_singleton, forall_eq, true_and, Bool.false_eq_true]
          split_ifs with h3
          · rw [observe_eq_none]
            simp [hret.mp h3]
          · simp only [true_iff]
            exact Or.inl fun h => h3 (hret.mpr h)
        | reconcile env =>
          simp only [Envelope.kind, Envelope.tsMs, Quiet, h1, h2, false_or, observe_eq_none,
            reduceCtorEq, false_and, Bool.false_eq_true]

/-! ## Command by command -/

/-- What the relay is at between two Redis commands : waiting for a message, with the slots
of one message still to apply, or ended by an exception. -/
inductive Task
  | idle
  | applying (kind : Kind) (writes : List SlotWrite) (tsMs : ℤ)
  | dead
  deriving DecidableEq

/-- On to the next message, or out with an exception. -/
def Task.ofError : Option PyError → Task
  | none => .idle
  | some _ => .dead

/-- The task a message makes. -/
def accept (py : Python) (self : Region) (table : PartitionTable) (raw : List Byte) : Task :=
  match receive py self table raw with
  | .malformed _ => .idle
  | .raised _ => .dead
  | .partition => .idle
  | .selfOrigin => .idle
  | .apply _ [] tsMs => .ofError (observe tsMs)
  | .apply kind (w :: ws) tsMs => .applying kind (w :: ws) tsMs

/-- One slot of the task. -/
def advance (self : Region) (t : Task) (out : Outcome) (nowMs : ℤ) (s : State) :
    Option (Task × State) :=
  match t with
  | .applying kind (w :: ws) tsMs =>
    let (returned, s') := applyOne self w out nowMs s
    let next := match kind, ws with
      | .counter, _ => if returned then .ofError (observe tsMs) else .idle
      | .reconcile, [] => .ofError (observe tsMs)
      | .reconcile, w' :: ws' => .applying .reconcile (w' :: ws') tsMs
    some (next, s')
  | _ => none

/-- The task without a pause, for at most `n` slots. -/
def work (self : Region) : ℕ → Calls → Task → State → Task × State
  | 0, _, t, s => (t, s)
  | n + 1, calls, t, s =>
    match advance self t (calls 0).1 (calls 0).2 s with
    | none => (t, s)
    | some (t', s') => work self n (fun n => calls (n + 1)) t' s'

theorem work_reconcile (self : Region) (w : SlotWrite) (ws : List SlotWrite) (calls : Calls)
    (tsMs : ℤ) (s : State) :
    work self (ws.length + 1) calls (.applying .reconcile (w :: ws) tsMs) s =
      (.ofError (observe tsMs), applyAll self calls (w :: ws) s) := by
  induction ws generalizing w calls s with
  | nil => rfl
  | cons w' ws ih =>
    exact (ih w' (fun n => calls (n + 1)) (applyOne self w (calls 0).1 (calls 0).2 s).2 :)

/-- `handle` is the message's task without a pause, and lets an exception through where the
task ends the relay. -/
theorem handle_eq_work (py : Python) (self : Region) (raw : List Byte) (calls : Calls)
    (s : State) : ∃ n, work self n calls (accept py self s.table raw) s =
      (.ofError (handle py self raw calls s).1, (handle py self raw calls s).2) := by
  unfold handle accept
  cases receive py self s.table raw with
  | malformed e => exact ⟨0, rfl⟩
  | raised e => exact ⟨0, rfl⟩
  | partition => exact ⟨0, rfl⟩
  | selfOrigin => exact ⟨0, rfl⟩
  | apply kind writes tsMs =>
    cases writes with
    | nil => cases kind <;> exact ⟨0, rfl⟩
    | cons w ws =>
      cases kind with
      | counter =>
        refine ⟨1, ?_⟩
        dsimp only [work, advance]
        split_ifs <;> rfl
      | reconcile => exact ⟨ws.length + 1, work_reconcile self w ws calls tsMs s⟩

/-! ## Samples -/

/-- A fresh relay. -/
def State.fresh : State := ⟨fun _ => .empty, .empty, .new⟩

/-- A counter message. -/
def plainRegion : List Byte := utf8Encode (
  str "\x7b\"tier\":\"free\",\"user_id\":\"u_1\",\"window_id\":7,\"region\":\"eu\"," ++
  str "\"value\":3,\"ts_ms\":9\x7d")

end Relay

end Gdrl
