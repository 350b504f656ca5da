import Gdrl.Service
import Mathlib.Data.List.Count

/-!
# The relay's metrics

`handle` and `run` are the relay once more, with the metrics that it and its buffer write, in
order. A message is counted once (`run_accounted`) : as dropped for a cause, as received, or
not at all if its counter slot went into the buffer or an exception came out of it. The gauge
of the messages in flight goes back also where an exception ends the run.
-/

namespace Gdrl

namespace Metrics

open Relay (State Calls bufferKind)

/-- The labels of `MESSAGES_DROPPED`. -/
inductive Cause
  | malformed | partition | selfOrigin | selfOriginLua
  deriving DecidableEq, Repr

/-- One write to a metric : `RELAY_INFLIGHT` up or down, `MESSAGES_DROPPED`, an observation of
`LAG_SECONDS` from a region, `MESSAGES_TOTAL`, `BUFFER_OVERFLOW`, and `BUFFER_SIZE` set. -/
inductive Sample
  | inflight (up : Bool)
  | dropped (cause : Cause)
  | lag (origin : Region)
  | total (kind : Kind) (origin : Region)
  | overflow
  | bufferSize (n : ℕ)
  deriving DecidableEq, Repr

/-! ## The relay with its metrics -/

/-- `FailoverBuffer.push` for the relay's kind. -/
def push (b : FailoverBuffer SlotWrite) (w : SlotWrite) : List Sample × FailoverBuffer SlotWrite :=
  let b' := (b.push bufferKind w).2
  if b.cap ≤ b.size bufferKind then ([.overflow, .bufferSize (b'.size bufferKind)], b')
  else ([.bufferSize (b'.size bufferKind)], b')

/-- One slot, with what its exception is counted as. The flag says that the call returned. -/
def applyOne (own : Region) (w : SlotWrite) (out : Outcome) (nowMs : ℤ) (s : State) :
    Bool × List Sample × State :=
  match applyRemoteSlot own w out nowMs s.redis with
  | (.ok _, m) => (true, [], { s with redis := m })
  | (.error .ownSlotWrite, m) => (false, [.dropped .selfOriginLua], { s with redis := m })
  | (.error _, m) =>
    (false, (push s.buffer w).1, { s with redis := m, buffer := (push s.buffer w).2 })

/-- The loop of `_handle_reconcile`. -/
def applyAll (own : Region) : Calls → List SlotWrite → State → List Sample × State
  | _, [], s => ([], s)
  | calls, w :: ws, s =>
    let (_, log, s') := applyOne own w (calls 0).1 (calls 0).2 s
    let (log', s'') := applyAll own (fun n => calls (n + 1)) ws s'
    (log ++ log', s'')

/-- `Relay._observe` -/
def observe (origin : Region) (kind : Kind) (tsMs : ℤ) : Option PyError × List Sample :=
  match Relay.observe tsMs with
  | none => (none, [.lag origin, .total kind origin])
  | some e => (some e, [])

/-- `Relay._handle_counter` -/
def handleCounter (own origin : Region) (env : CounterEnvelope) (calls : Calls) (s : State) :
    Option PyError × List Sample × State :=
  if env.region = own then (none, [.dropped .selfOrigin], s)
  else
    let w : SlotWrite := ⟨env.tier, env.userId, env.windowId, env.region, env.value⟩
    match applyOne own w (calls 0).1 (calls 0).2 s with
    | (false, log, s') => (none, log, s')
    | (true, log, s') =>
      ((observe origin .counter env.tsMs).1, log ++ (observe origin .counter env.tsMs).2, s')

/-- `Relay._handle_reconcile` -/
def handleReconcile (own origin : Region) (env : ReconcileEnvelope) (calls : Calls) (s : State) :
    Option PyError × List Sample × State :=
  if env.origin = own then (none, [.dropped .selfOrigin], s)
  else
    let (log, s') := applyAll own calls (Envelope.reconcile env).writes s
    ((observe origin .reconcile env.tsMs).1, log ++ (observe origin .reconcile env.tsMs).2, s')

/-- `Relay._handle` -/
def handle (py : Python) (own origin : Region) (raw : List Byte) (calls : Calls) (s : State) :
    Option PyError × List Sample × State :=
  match parse py raw with
  | .error (.envelope _) => (none, [.dropped .malformed], s)
  | .error (.py e) => (some e, [], s)
  | .ok env =>
    if s.table.blocks env.asserted.name own.name then (none, [.dropped .partition], s)
    else match env with
      | .counter env => handleCounter own origin env calls s
      | .reconcile env => handleReconcile own origin env calls s

/-- A message with the origin that the transport gives it, or an edit of the table. -/
inductive Event
  | deliver (origin : Region) (raw : List Byte) (calls : Calls)
  | add (f g : Str)
  | remove (f g : Str)
  | clear

/-- The event without the origin. -/
def Event.plain : Event → Relay.Event
  | .deliver _ raw calls => .deliver raw calls
  | .add f g => .add f g
  | .remove f g => .remove f g
  | .clear => .clear

/-- One turn of the loop in `Relay.run`. -/
def step (py : Python) (own : Region) (s : State) :
    Event → Option PyError × List Sample × State
  | .deliver origin raw calls =>
    let (err, log, s') := handle py own origin raw calls s
    (err, .inflight true :: log ++ [.inflight false], s')
  | .add f g => (none, [], { s with table := s.table.add f g })
  | .remove f g => (none, [], { s with table := s.table.remove f g })
  | .clear => (none, [], { s with table := .empty })

/-- `Relay.run`, up to the first exception. -/
def run (py : Python) (own : Region) : State → List Event → Option PyError × List Sample × State
  | s, [] => (none, [], s)
  | s, e :: es =>
    match step py own s e with
    | (some err, log, s') => (some err, log, s')
    | (none, log, s') =>
      let (err, log', s'') := run py own s' es
      (err, log ++ log', s'')

/-! ## The same relay -/

theorem applyOne_eq (own : Region) (w : SlotWrite) (out : Outcome) (nowMs : ℤ) (s : State) :
    ((applyOne own w out nowMs s).1, (applyOne own w out nowMs s).2.2) =
      Relay.applyOne own w out nowMs s := by
  have hpush : (push s.buffer w).2 = (s.buffer.push bufferKind w).2 := by
    unfold push
    dsimp only
    split_ifs <;> rfl
  unfold applyOne Relay.applyOne
  split <;> simp_all

theorem applyAll_eq (own : Region) (calls : Calls) (ws : List SlotWrite) (s : State) :
    (applyAll own calls ws s).2 = Relay.applyAll own calls ws s := by
  induction ws generalizing calls s with
  | nil => rfl
  | cons w ws ih =>
    have hone := congrArg Prod.snd (applyOne_eq own w (calls 0).1 (calls 0).2 s)
    dsimp only at hone
    rw [Relay.applyAll, ← hone, ← ih]
    rfl

theorem observe_eq (origin : Region) (kind : Kind) (tsMs : ℤ) :
    (observe origin kind tsMs).1 = Relay.observe tsMs := by
  unfold observe
  split <;> simp_all

/-- With the metrics left out it is the relay. -/
theorem handle_eq (py : Python) (own origin : Region) (raw : List Byte) (calls : Calls)
    (s : State) :
    ((handle py own origin raw calls s).1, (handle py own origin raw calls s).2.2) =
      Relay.handle py own raw calls s := by
  unfold handle Relay.handle Relay.receive
  match parse py raw with
  | .error (.envelope e) => rfl
  | .error (.py e) => rfl
  | .ok env =>
    dsimp only
    split_ifs with hblocks hown
    · rfl
    · cases env with
      | counter env =>
        obtain rfl : env.region = own := hown
        simp [handleCounter]
      | reconcile env =>
        obtain rfl : env.origin = own := hown
        simp [handleReconcile]
    · cases env with
      | counter env =>
        have hne : env.region ≠ own := hown
        have hone := applyOne_eq own ⟨env.tier, env.userId, env.windowId, env.region, env.value⟩
          (calls 0).1 (calls 0).2 s
        simp only [handleCounter, if_neg hne, Envelope.kind, Envelope.writes, Envelope.tsMs, ← hone,
          ← observe_eq origin .counter]
        split <;> simp_all
      | reconcile env =>
        have hne : env.origin ≠ own := hown
        simp only [handleReconcile, if_neg hne, Envelope.kind, Envelope.tsMs, observe_eq,
          ← applyAll_eq]

theorem step_eq (py : Python) (own : Region) (s : State) (e : Event) :
    ((step py own s e).1, (step py own s e).2.2) = Relay.step py own s e.plain := by
  cases e with
  | deliver origin raw calls => exact handle_eq py own origin raw calls s
  | add f g => rfl
  | remove f g => rfl
  | clear => rfl

theorem run_eq (py : Python) (own : Region) (s : State) (es : List Event) :
    ((run py own s es).1, (run py own s es).2.2) = Relay.run py own s (es.map Event.plain) := by
  induction es generalizing s with
  | nil => rfl
  | cons e es ih =>
    rw [List.map_cons, Relay.run, ← step_eq, run]
    obtain ⟨err, log, s'⟩ := step py own s e
    cases err with
    | some err => rfl
    | none => exact ih s'

/-! ## Every message counts once -/

namespace Sample

/-- What ends the count of a message : that it is dropped, or that it is received. -/
def final : Sample → Bool
  | dropped _ => true
  | total _ _ => true
  | _ => false

/-- A write to the buffer's metrics. -/
def ofBuffer : Sample → Bool
  | overflow => true
  | bufferSize _ => true
  | _ => false

end Sample

/-- A counter message whose slot goes into the buffer. -/
def defers (py : Python) (own : Region) (s : State) : Event → Bool
  | .deliver _ raw calls =>
    match Relay.receive py own s.table raw with
    | .apply .counter (w :: _) _ => !(Relay.applyOne own w (calls 0).1 (calls 0).2 s).1
    | _ => false
  | _ => false

/-- The number of these in a run. -/
def deferred (py : Python) (own : Region) : State → List Event → ℕ
  | _, [] => 0
  | s, e :: es =>
    match step py own s e with
    | (some _, _, _) => (defers py own s e).toNat
    | (none, _, s') => (defers py own s e).toNat + deferred py own s' es

/-- What the metrics say of a message : dropped, received, deferred or ended by an exception,
with the buffer's own metrics before. -/
inductive Fate (origin : Region) : List Sample → Bool → Option PyError → Prop
  | dropped (cause : Cause) (h : cause ≠ .selfOriginLua) : Fate origin [.dropped cause] false none
  | received {log : List Sample} (kind : Kind) (h : ∀ x ∈ log, x.ofBuffer = true) :
    Fate origin (log ++ [.lag origin, .total kind origin]) false none
  | deferred {log : List Sample} (h : ∀ x ∈ log, x.ofBuffer = true) : Fate origin log true none
  | raised {log : List Sample} (e : PyError) (h : ∀ x ∈ log, x.ofBuffer = true) :
    Fate origin log false (some e)

section Fates

variable {py : Python} {own origin : Region} {s : State}

theorem push_ofBuffer (b : FailoverBuffer SlotWrite) (w : SlotWrite) :
    ∀ x ∈ (push b w).1, x.ofBuffer = true := by
  unfold push
  dsimp only
  split_ifs <;> simp [Sample.ofBuffer]

/-- For a slot of a peer only the buffer's metrics are written. -/
theorem applyOne_ofBuffer {w : SlotWrite} (hw : w.peer ≠ own) (out : Outcome) (nowMs : ℤ)
    (s : State) : ∀ x ∈ (applyOne own w out nowMs s).2.1, x.ofBuffer = true := by
  have hown : (applyRemoteSlot own w out nowMs s.redis).1 ≠ .error .ownSlotWrite := by
    unfold applyRemoteSlot
    rw [if_neg hw]
    split_ifs <;> cases out <;> simp
  unfold applyOne
  split
  · simp
  · rename_i m heq
    rw [heq] at hown
    exact absurd rfl hown
  · exact push_ofBuffer s.buffer w

theorem applyAll_ofBuffer {ws : List SlotWrite} (hws : ∀ w ∈ ws, w.peer ≠ own) (calls : Calls)
    (s : State) : ∀ x ∈ (applyAll own calls ws s).1, x.ofBuffer = true := by
  induction ws generalizing calls s with
  | nil => exact fun x hx => absurd hx List.not_mem_nil
  | cons w ws ih =>
    rw [List.forall_mem_cons] at hws
    intro x hx
    rcases List.mem_append.mp hx with hx | hx
    · exact applyOne_ofBuffer hws.1 _ _ _ x hx
    · exact ih hws.2 _ _ x hx

theorem observe_fate {log : List Sample} (h : ∀ x ∈ log, x.ofBuffer = true) (kind : Kind)
    (tsMs : ℤ) :
    Fate origin (log ++ (observe origin kind tsMs).2) false (observe origin kind tsMs).1 := by
  unfold observe
  split
  · exact .received kind h
  · rename_i e _
    rw [List.append_nil]
    exact .raised e h

/-- Every message has one fate. -/
theorem handle_fate (py : Python) (own origin : Region) (raw : List Byte) (calls : Calls)
    (s : State) : Fate origin (handle py own origin raw calls s).2.1
      (defers py own s (.deliver origin raw calls)) (handle py own origin raw calls s).1 := by
  unfold handle defers Relay.receive
  dsimp only
  cases parse py raw with
  | error e =>
    cases e with
    | envelope e => exact .dropped .malformed (by decide)
    | py e => exact .raised e (fun x hx => absurd hx List.not_mem_nil)
  | ok env =>
    dsimp only
    by_cases hblocks : s.table.blocks env.asserted.name own.name = true
    · simp only [if_pos hblocks]
      exact .dropped .partition (by decide)
    · simp only [if_neg hblocks]
      by_cases hown : env.asserted = own
      · simp only [if_pos hown]
        cases env with
        | counter env =>
          simp only [handleCounter, if_pos (show env.region = own from hown)]
          exact .dropped .selfOrigin (by decide)
        | reconcile env =>
          simp only [handleReconcile, if_pos (show env.origin = own from hown)]
          exact .dropped .selfOrigin (by decide)
      · simp only [if_neg hown]
        cases env with
        | counter env =>
          have hne : env.region ≠ own := hown
          have hone := applyOne_eq own
            ⟨env.tier, env.userId, env.windowId, env.region, env.value⟩ (calls 0).1 (calls 0).2 s
          have hlog := @applyOne_ofBuffer own
            ⟨env.tier, env.userId, env.windowId, env.region, env.value⟩ hne (calls 0).1
            (calls 0).2 s
          simp only [handleCounter, if_neg hne, Envelope.kind, Envelope.writes, ← hone]
          split
          · rename_i log s' heq
            rw [heq] at hlog
            exact heq ▸ .deferred hlog
          · rename_i log s' heq
            rw [heq] at hlog
            exact heq ▸ observe_fate hlog .counter env.tsMs
        | reconcile env =>
          have hne : env.origin ≠ own := hown
          simp only [handleReconcile, if_neg hne, Envelope.kind]
          refine observe_fate (applyAll_ofBuffer (fun w hw => ?_) calls s) .reconcile env.tsMs
          rw [Envelope.peer_of_mem_writes hw]
          exact hne

end Fates

/-- The accounts of a run : a message is counted as dropped or received once, unless it is
deferred or ends the run, the gauge of the messages in flight is back at 0, each lag belongs to
a message received from the same region, and `OwnSlotWriteError` never comes up. -/
structure Accounted (log : List Sample) (deferred : ℕ) (err : Option PyError) : Prop where
  once : log.countP Sample.final + deferred + err.isSome.toNat = log.count (.inflight true)
  inflight : log.count (.inflight false) = log.count (.inflight true)
  lag : ∀ origin, log.count (.lag origin) =
    log.count (.total .counter origin) + log.count (.total .reconcile origin)
  never : .dropped .selfOriginLua ∉ log

theorem Accounted.nil : Accounted [] 0 none := ⟨rfl, rfl, fun _ => rfl, List.not_mem_nil⟩

theorem Accounted.append {log log' : List Sample} {d d' : ℕ} {err : Option PyError}
    (h : Accounted log d none) (h' : Accounted log' d' err) :
    Accounted (log ++ log') (d + d') err := by
  refine ⟨?_, ?_, fun origin => ?_, ?_⟩
  · have h1 := h.once
    have h2 := h'.once
    simp only [Option.isSome_none, Bool.toNat_false] at h1
    rw [List.countP_append, List.count_append]
    omega
  · rw [List.count_append, List.count_append, h.inflight, h'.inflight]
  · have h1 := h.lag origin
    have h2 := h'.lag origin
    simp only [List.count_append]
    omega
  · rw [List.mem_append, not_or]
    exact ⟨h.never, h'.never⟩

/-- A log of the buffer's metrics counts for nothing else. -/
theorem count_of_ofBuffer {log : List Sample} (h : ∀ x ∈ log, x.ofBuffer = true) :
    log.countP Sample.final = 0 ∧ ∀ x : Sample, x.ofBuffer = false → log.count x = 0 := by
  constructor
  · rw [List.countP_eq_zero]
    intro x hx
    have := h x hx
    cases x <;> simp_all [Sample.ofBuffer, Sample.final]
  · intro x hx
    rw [List.count_eq_zero]
    intro hmem
    rw [h x hmem] at hx
    cases hx

/-- The accounts of one message. -/
theorem Fate.accounted {origin : Region} {log : List Sample} {deferred : Bool}
    {err : Option PyError} (h : Fate origin log deferred err) :
    Accounted (.inflight true :: log ++ [.inflight false]) deferred.toNat err := by
  have hbuffer : ∀ {log : List Sample}, (∀ x ∈ log, x.ofBuffer = true) →
      log.countP Sample.final = 0 ∧ log.count (.inflight true) = 0 ∧
        log.count (.inflight false) = 0 ∧ (∀ r, log.count (.lag r) = 0) ∧
        (∀ k r, log.count (.total k r) = 0) ∧ .dropped .selfOriginLua ∉ log := by
    intro log hlog
    obtain ⟨hfinal, hcount⟩ := count_of_ofBuffer hlog
    exact ⟨hfinal, hcount _ rfl, hcount _ rfl, fun _ => hcount _ rfl, fun _ _ => hcount _ rfl,
      List.count_eq_zero.mp (hcount _ rfl)⟩
  cases h with
  | dropped cause hcause =>
    refine ⟨by simp [Sample.final, List.countP_cons], by simp, fun r => by simp, ?_⟩
    simpa using hcause.symm
  | received kind hlog =>
    rename_i log
    obtain ⟨hfinal, hup, hdown, hlag, htotal, hnever⟩ := hbuffer hlog
    refine ⟨?_, ?_, fun r => ?_, ?_⟩
    · simp [Sample.final, List.countP_cons, hfinal, hup]
    · simp [hup, hdown]
    · cases kind <;> simp [hlag, htotal, List.count_cons]
    · simpa using hnever
  | deferred hlog =>
    obtain ⟨hfinal, hup, hdown, hlag, htotal, hnever⟩ := hbuffer hlog
    exact ⟨by simp [Sample.final, hfinal, hup], by simp [hup, hdown],
      fun r => by simp [hlag, htotal], by simpa using hnever⟩
  | raised e hlog =>
    obtain ⟨hfinal, hup, hdown, hlag, htotal, hnever⟩ := hbuffer hlog
    exact ⟨by simp [Sample.final, hfinal, hup], by simp [hup, hdown],
      fun r => by simp [hlag, htotal], by simpa using hnever⟩

theorem step_accounted (py : Python) (own : Region) (s : State) (e : Event) :
    Accounted (step py own s e).2.1 (defers py own s e).toNat (step py own s e).1 := by
  cases e with
  | deliver origin raw calls => exact (handle_fate py own origin raw calls s).accounted
  | add f g => exact .nil
  | remove f g => exact .nil
  | clear => exact .nil

/-- **Every message counts once.** Over any messages, any endings of their commands and any
edits of the partition table, the metrics leave the relay what it is, and their sum is the
number of messages, but for the counter messages whose slot went into the buffer and one that
ended the run. -/
theorem run_accounted (py : Python) (own : Region) (s : State) (es : List Event) :
    ((run py own s es).1, (run py own s es).2.2) = Relay.run py own s (es.map Event.plain) ∧
      Accounted (run py own s es).2.1 (deferred py own s es) (run py own s es).1 := by
  refine ⟨run_eq py own s es, ?_⟩
  induction es generalizing s with
  | nil => exact .nil
  | cons e es ih =>
    have hstep := step_accounted py own s e
    rw [run, deferred]
    generalize step py own s e = r at hstep ⊢
    obtain ⟨err, log, s'⟩ := r
    cases err with
    | some err => exact hstep
    | none => exact hstep.append (ih s')

/-! ## The buffer's metrics -/

/-- A write to the gauge of the buffer's size. -/
def Sample.ofSize : Sample → Bool
  | bufferSize _ => true
  | _ => false

/-- What the gauge shows after one more write. -/
def setGauge (n : ℕ) : Sample → ℕ
  | .bufferSize m => m
  | _ => n

/-- The buffer's metrics against the buffer : the gauge is the size, and what was put in and is
not there any more is counted as overflow. -/
structure Gauged (b : FailoverBuffer SlotWrite) (log : List Sample)
    (b' : FailoverBuffer SlotWrite) : Prop where
  cap : b'.cap = b.cap
  le_cap : b'.size bufferKind ≤ b'.cap
  gauge : log.foldl setGauge (b.size bufferKind) = b'.size bufferKind
  kept : b'.size bufferKind + log.count .overflow = b.size bufferKind + log.countP Sample.ofSize

section Gauges

variable {b b' b'' : FailoverBuffer SlotWrite}
  {log log' : List Sample}

theorem Gauged.nil (hb : b.size bufferKind ≤ b.cap) : Gauged b [] b := ⟨rfl, hb, rfl, rfl⟩

theorem Gauged.append (h : Gauged b log b') (h' : Gauged b' log' b'') :
    Gauged b (log ++ log') b'' := by
  refine ⟨h'.cap.trans h.cap, h'.le_cap, ?_, ?_⟩
  · rw [List.foldl_append, h.gauge, h'.gauge]
  · have h1 := h.kept
    have h2 := h'.kept
    rw [List.count_append, List.countP_append]
    omega

/-- Other metrics leave them alone. -/
theorem gauged_of_other (hb : b.size bufferKind ≤ b.cap) (h : ∀ x ∈ log, x.ofBuffer = false) :
    Gauged b log b := by
  have hsize : ∀ x ∈ log, x ≠ .overflow ∧ x.ofSize = false ∧ ∀ n, setGauge n x = n := by
    intro x hx
    have := h x hx
    cases x <;> simp_all [Sample.ofBuffer, Sample.ofSize, setGauge]
  refine ⟨rfl, hb, ?_, ?_⟩
  · clear hb h
    induction log with
    | nil => rfl
    | cons x log ih =>
      rw [List.foldl_cons, (hsize x List.mem_cons_self).2.2]
      exact ih fun y hy => hsize y (List.mem_cons_of_mem _ hy)
  · rw [List.count_eq_zero.mpr fun hmem => (hsize _ hmem).1 rfl,
      List.countP_eq_zero.mpr fun x hx => by simp [(hsize x hx).2.1]]

theorem push_gauged (hb : b.size bufferKind ≤ b.cap) (w : SlotWrite) :
    Gauged b (push b w).1 (push b w).2 := by
  have hsize := FailoverBuffer.size_push b bufferKind w
  have hcap : (b.push bufferKind w).2.cap = b.cap := rfl
  unfold push
  dsimp only
  split_ifs with hfull
  · refine ⟨hcap, ?_, rfl, ?_⟩
    · rw [hsize, hcap]
      omega
    · rw [hsize]
      simp only [List.count_cons_self, List.countP_cons, List.count_cons, List.count_nil,
        List.countP_nil, Sample.ofSize]
      simp
      omega
  · refine ⟨hcap, ?_, rfl, ?_⟩
    · rw [hsize, hcap]
      omega
    · rw [hsize]
      simp [Sample.ofSize]
      omega

variable {s : State}

theorem applyOne_gauged (own : Region) (hs : s.buffer.size bufferKind ≤ s.buffer.cap)
    (w : SlotWrite) (out : Outcome) (nowMs : ℤ) :
    Gauged s.buffer (applyOne own w out nowMs s).2.1 (applyOne own w out nowMs s).2.2.buffer := by
  unfold applyOne
  split
  · exact .nil hs
  · exact gauged_of_other hs (by simp [Sample.ofBuffer])
  · exact push_gauged hs w

theorem applyAll_gauged (own : Region) (hs : s.buffer.size bufferKind ≤ s.buffer.cap)
    (calls : Calls) (ws : List SlotWrite) :
    Gauged s.buffer (applyAll own calls ws s).1 (applyAll own calls ws s).2.buffer := by
  induction ws generalizing calls s with
  | nil => exact .nil hs
  | cons w ws ih =>
    have hone := applyOne_gauged own hs w (calls 0).1 (calls 0).2
    exact hone.append (ih hone.le_cap _)

theorem observe_other (origin : Region) (kind : Kind) (tsMs : ℤ) :
    ∀ x ∈ (observe origin kind tsMs).2, x.ofBuffer = false := by
  unfold observe
  split <;> simp [Sample.ofBuffer]

theorem handle_gauged (py : Python) (own origin : Region)
    (hs : s.buffer.size bufferKind ≤ s.buffer.cap) (raw : List Byte) (calls : Calls) :
    Gauged s.buffer (handle py own origin raw calls s).2.1
      (handle py own origin raw calls s).2.2.buffer := by
  unfold handle
  split
  · exact gauged_of_other hs (by simp [Sample.ofBuffer])
  · exact .nil hs
  · rename_i env henv
    split_ifs
    · exact gauged_of_other hs (by simp [Sample.ofBuffer])
    · cases env with
      | counter env =>
        dsimp only
        unfold handleCounter
        split_ifs
        · exact gauged_of_other hs (by simp [Sample.ofBuffer])
        · have hone := applyOne_gauged own hs
            ⟨env.tier, env.userId, env.windowId, env.region, env.value⟩ (calls 0).1 (calls 0).2
          dsimp only
          split
          · rename_i log s' heq
            rw [heq] at hone
            exact hone
          · rename_i log s' heq
            rw [heq] at hone
            exact hone.append (gauged_of_other hone.le_cap (observe_other _ _ _))
      | reconcile env =>
        dsimp only
        unfold handleReconcile
        split_ifs
        · exact gauged_of_other hs (by simp [Sample.ofBuffer])
        · have hall := applyAll_gauged own hs calls (Envelope.reconcile env).writes
          exact hall.append (gauged_of_other hall.le_cap (observe_other _ _ _))

theorem step_gauged (py : Python) (own : Region) (hs : s.buffer.size bufferKind ≤ s.buffer.cap)
    (e : Event) :
    Gauged s.buffer (step py own s e).2.1 (step py own s e).2.2.buffer := by
  cases e with
  | deliver origin raw calls =>
    have hhandle := handle_gauged py own origin hs raw calls
    have hup : Gauged s.buffer [.inflight true] s.buffer :=
      gauged_of_other hs (by simp [Sample.ofBuffer])
    have hdown : Gauged (handle py own origin raw calls s).2.2.buffer [.inflight false]
        (handle py own origin raw calls s).2.2.buffer :=
      gauged_of_other hhandle.le_cap (by simp [Sample.ofBuffer])
    exact (hup.append hhandle).append hdown
  | add f g => exact .nil hs
  | remove f g => exact .nil hs
  | clear => exact .nil hs

/-- **The buffer's gauge.** In a relay whose buffer no one drains, the gauge of the buffer's
size is the size after every run, also where slots fall out of a full buffer, and the
overflow counter makes up for what was pushed and is not there. -/
theorem run_gauged (py : Python) (own : Region) {s : State} (es : List Event)
    (hs : s.buffer.size bufferKind ≤ s.buffer.cap) :
    Gauged s.buffer (run py own s es).2.1 (run py own s es).2.2.buffer := by
  induction es generalizing s with
  | nil => exact .nil hs
  | cons e es ih =>
    have hstep := step_gauged py own hs e
    rw [run]
    generalize step py own s e = r at hstep ⊢
    obtain ⟨err, log, s'⟩ := r
    cases err with
    | some err => exact hstep
    | none => exact hstep.append (ih hstep.le_cap)

theorem run_gauged_sample : Gauged State.fresh.buffer
    (run samplePython .us .fresh [.deliver .eu Relay.plainRegion fun _ => (.failed, 0)]).2.1
    (run samplePython .us .fresh
      [.deliver .eu Relay.plainRegion fun _ => (.failed, 0)]).2.2.buffer :=
  run_gauged samplePython .us _ (by decide)

end Gauges

end Metrics

end Gdrl
