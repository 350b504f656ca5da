import Gdrl.Lanes
import Gdrl.Run
import Gdrl.Wiring

/-!
# The transport

`subscribe_peers` starts one task `_pump` for each client, and all of them put what they
hear into one queue, from which the relay takes it. A pump subscribes, listens and puts;
when anything raises, it sleeps and subscribes anew. What a Redis publishes goes to the
subscribers of the moment : nothing is kept for a pump that is not listening. A connection
may be lost before anything raises, and redis-py may then connect and subscribe again without
a word to the pump. What is published in between is lost, and what a lost connection still
had to read may be.

The stream of a region is what was yielded under its name, what the queue has under it and
what its pump has still to read, in this order. A publication goes to its end, every other
step only moves its parts on, and a connection that ends takes some of the last part away.
-/

namespace Gdrl

namespace Transport

open Wiring (Client)

/-! ## A pump -/

/-- What `PubSub.listen` yields, its `data` only where this is `bytes`. -/
structure Frame where
  type : Option Str
  data : Option (List Byte)
  deriving DecidableEq

namespace Frame

/-- What `_pump` puts into the queue for it. -/
def payload (f : Frame) : Option (List Byte) :=
  if f.type = some (str "message") then f.data else none

/-- A publication as a subscriber gets it. -/
def message (raw : List Byte) : Frame := ⟨some (str "message"), some raw⟩

@[simp] theorem payload_message (raw : List Byte) : (message raw).payload = some raw := if_pos rfl

theorem payload_of_ne {f : Frame} (h : f.type ≠ some (str "message")) : f.payload = none :=
  if_neg h

end Frame

/-- Where a pump waits : for the subscription, for a frame with those not read yet, the same
on a connection that is lost, or for the end of `asyncio.sleep`. -/
inductive Phase
  | connecting
  | listening (unread : List Frame)
  | broken (unread : List Frame)
  | sleeping (seconds : ℕ)
  deriving DecidableEq

/-- `_pump`, its `backoff` in seconds. -/
structure Pump where
  client : Client
  backoff : ℕ
  phase : Phase
  deriving DecidableEq

/-- What a pump meets : `subscribe` returns, `subscribe` or `listen` raises, `listen` returns,
`sleep` returns, a frame comes that is no publication, the next frame is read. The connection
is lost with all but some of the frames, and redis-py subscribes again inside `listen`. -/
inductive Action
  | subscribed
  | failed
  | ended
  | woke
  | notice (f : Frame)
  | read
  | lost (kept : ℕ)
  | resubscribed
  deriving DecidableEq

/-- The pump stops to listen. -/
def Action.cuts : Action → Bool
  | failed | ended | lost _ => true
  | _ => false

namespace Pump

def start (client : Client) : Pump := ⟨client, 1, .connecting⟩

/-- One step of `_pump`, with what it puts into the queue. -/
def act (p : Pump) (a : Action) : Option (List (List Byte) × Pump) :=
  match a, p.phase with
  | .subscribed, .connecting => some ([], { p with backoff := 1, phase := .listening [] })
  | .failed, .connecting => some ([], { p with phase := .sleeping (min p.backoff 30) })
  | .failed, .listening _ => some ([], { p with phase := .sleeping (min p.backoff 30) })
  | .failed, .broken _ => some ([], { p with phase := .sleeping (min p.backoff 30) })
  | .ended, .listening _ => some ([], { p with phase := .connecting })
  | .woke, .sleeping _ =>
    some ([], { p with backoff := min (p.backoff * 2) 30, phase := .connecting })
  | .notice f, .listening unread =>
    if f.type = some (str "message") then none
    else some ([], { p with phase := .listening (unread ++ [f]) })
  | .read, .listening (f :: unread) =>
    some (f.payload.toList, { p with phase := .listening unread })
  | .read, .broken (f :: unread) => some (f.payload.toList, { p with phase := .broken unread })
  | .lost kept, .listening unread => some ([], { p with phase := .broken (unread.take kept) })
  | .resubscribed, .broken _ => some ([], { p with phase := .listening [] })
  | _, _ => none

/-- A publication at the pump's client. -/
def hear (raw : List Byte) (p : Pump) : Pump :=
  match p.phase with
  | .listening unread => { p with phase := .listening (unread ++ [.message raw]) }
  | _ => p

def isListening (p : Pump) : Bool :=
  match p.phase with
  | .listening _ => true
  | _ => false

/-- What the pump has still to put into the queue. -/
def pending (p : Pump) : List (List Byte) :=
  match p.phase with
  | .listening unread => unread.filterMap Frame.payload
  | .broken unread => unread.filterMap Frame.payload
  | _ => []

variable {p p' : Pump} {a : Action} {out : List (List Byte)}

/-- All that a pump can do, with what it puts into the queue. -/
inductive Effect : Pump → Action → List (List Byte) → Pump → Prop
  | subscribed {c : Client} {b : ℕ} :
    Effect ⟨c, b, .connecting⟩ .subscribed [] ⟨c, 1, .listening []⟩
  | failed {c : Client} {b : ℕ} {phase : Phase} (hawake : ∀ seconds, phase ≠ .sleeping seconds) :
    Effect ⟨c, b, phase⟩ .failed [] ⟨c, b, .sleeping (min b 30)⟩
  | ended {c : Client} {b : ℕ} {unread : List Frame} :
    Effect ⟨c, b, .listening unread⟩ .ended [] ⟨c, b, .connecting⟩
  | woke {c : Client} {b seconds : ℕ} :
    Effect ⟨c, b, .sleeping seconds⟩ .woke [] ⟨c, min (b * 2) 30, .connecting⟩
  | notice {c : Client} {b : ℕ} {unread : List Frame} {f : Frame}
    (htype : f.type ≠ some (str "message")) :
    Effect ⟨c, b, .listening unread⟩ (.notice f) [] ⟨c, b, .listening (unread ++ [f])⟩
  | read {c : Client} {b : ℕ} {f : Frame} {unread : List Frame} :
    Effect ⟨c, b, .listening (f :: unread)⟩ .read f.payload.toList ⟨c, b, .listening unread⟩
  | readBroken {c : Client} {b : ℕ} {f : Frame} {unread : List Frame} :
    Effect ⟨c, b, .broken (f :: unread)⟩ .read f.payload.toList ⟨c, b, .broken unread⟩
  | lost {c : Client} {b kept : ℕ} {unread : List Frame} :
    Effect ⟨c, b, .listening unread⟩ (.lost kept) [] ⟨c, b, .broken (unread.take kept)⟩
  | resubscribed {c : Client} {b : ℕ} {unread : List Frame} :
    Effect ⟨c, b, .broken unread⟩ .resubscribed [] ⟨c, b, .listening []⟩

theorem effect_of_act (h : p.act a = some (out, p')) : Effect p a out p' := by
  obtain ⟨c, b, phase⟩ := p
  cases a with
  | notice f =>
    cases phase with
    | listening unread =>
      obtain ⟨htype, hsome⟩ := Option.ite_none_left_eq_some.mp h
      obtain ⟨rfl, rfl⟩ := Prod.mk.inj (Option.some.inj hsome)
      exact .notice htype
    | connecting | broken | sleeping => cases h
  | subscribed =>
    cases phase <;> cases h
    exact .subscribed
  | failed =>
    cases phase <;> cases h
    all_goals exact .failed nofun
  | ended =>
    cases phase <;> cases h
    exact .ended
  | woke =>
    cases phase <;> cases h
    exact .woke
  | read =>
    cases phase with
    | listening unread =>
      cases unread <;> cases h
      exact .read
    | broken unread =>
      cases unread <;> cases h
      exact .readBroken
    | connecting | sleeping => cases h
  | lost kept =>
    cases phase <;> cases h
    exact .lost
  | resubscribed =>
    cases phase <;> cases h
    exact .resubscribed

theorem Effect.client (h : Effect p a out p') : p'.client = p.client := by
  cases h <;> rfl

theorem filterMap_cons_payload (f : Frame) (fs : List Frame) :
    (f :: fs).filterMap Frame.payload = f.payload.toList ++ fs.filterMap Frame.payload := by
  cases hf : f.payload <;> simp [hf]

/-- A pump passes on what it has read, in order, and may lose the rest. -/
theorem Effect.sublist (h : Effect p a out p') : (out ++ p'.pending).Sublist p.pending := by
  cases h with
  | read | readBroken => simp [pending, filterMap_cons_payload]
  | notice htype => simp [pending, Frame.payload_of_ne htype]
  | lost => exact (List.take_sublist _ _).filterMap _
  | subscribed | failed | ended | woke | resubscribed => exact List.nil_sublist _

/-- A pump that goes on listening loses nothing. -/
theorem Effect.listening (h : Effect p a out p') (hp : p.isListening = true)
    (hcut : a.cuts = false) : p'.isListening = true ∧ out ++ p'.pending = p.pending := by
  cases h with
  | read => exact ⟨rfl, (filterMap_cons_payload _ _).symm⟩
  | notice htype => exact ⟨rfl, by simp [pending, Frame.payload_of_ne htype]⟩
  | failed | ended | lost => cases hcut
  | subscribed | woke | readBroken | resubscribed => cases hp

theorem pending_hear (raw : List Byte) (p : Pump) :
    (p.hear raw).pending = p.pending ++ if p.isListening then [raw] else [] := by
  unfold hear
  split
  · rename_i unread hphase
    simp [pending, isListening, hphase]
  · rename_i hphase
    unfold isListening
    split
    · rename_i unread hlisten
      exact absurd hlisten (hphase unread)
    · simp

end Pump

/-! ## All pumps -/

/-- What `subscribe_peers` is at : the tasks, the queue, and what it has yielded so far. -/
structure State where
  pumps : Region → Option Pump
  queue : List (Region × List Byte)
  yielded : List (Region × List Byte)

/-- `Transport` with its clients, when the first message is asked for. -/
def start (own : Region) (peers : Dict Region Client) : State where
  pumps r := ((Wiring.subscribed own peers).get? r).map Pump.start
  queue := []
  yielded := []

/-- A step of one pump, a publication at one client's Redis, the next message of the queue,
or the end of the generator, which cancels the tasks. -/
inductive Event
  | pump (r : Region) (a : Action)
  | publish (c : Client) (raw : List Byte)
  | get
  | close
  deriving DecidableEq

/-- A publication reaches the pumps of its client. -/
def hearAt (c : Client) (raw : List Byte) (p : Pump) : Pump :=
  if p.client = c then p.hear raw else p

def step (s : State) : Event → Option State
  | .pump r a =>
    ((s.pumps r).bind fun p => p.act a).map fun (out, p) =>
      { s with
        pumps := Function.update s.pumps r (some p)
        queue := s.queue ++ out.map fun raw => (r, raw) }
  | .publish c raw => some { s with pumps := fun r => (s.pumps r).map (hearAt c raw) }
  | .get =>
    match s.queue with
    | [] => none
    | e :: queue => some { s with queue := queue, yielded := s.yielded ++ [e] }
  | .close => some { s with pumps := fun _ => none, queue := [] }

/-! ## The stream of a region -/

namespace State

/-- What the pump of a region has still to put into the queue. -/
def pending (s : State) (r : Region) : List (List Byte) := (s.pumps r).elim [] Pump.pending

/-- What was yielded for a region, what waits in the queue and what is to be read. -/
def stream (s : State) (r : Region) : List (List Byte) :=
  lane r s.yielded ++ lane r s.queue ++ s.pending r

/-- The region's pump, if there is one, hears one client. -/
def Hears (s : State) (r : Region) (c : Client) : Prop := ∀ p ∈ s.pumps r, p.client = c

/-- The region's pump is listening to one client. -/
def Listens (s : State) (r : Region) (c : Client) : Prop :=
  ∃ p, s.pumps r = some p ∧ p.client = c ∧ p.isListening = true

end State

namespace Event

/-- What an event publishes at one client. -/
def published (c : Client) : Event → List (List Byte)
  | pump _ _ => []
  | publish c' raw => if c' = c then [raw] else []
  | get => []
  | close => []

/-- The region's pump stops to listen. -/
def Interrupts (r : Region) : Event → Prop
  | pump q a => q = r ∧ a.cuts = true
  | close => True
  | _ => False

instance (r : Region) : (e : Event) → Decidable (e.Interrupts r)
  | pump q a => inferInstanceAs (Decidable (q = r ∧ a.cuts = true))
  | publish _ _ => .isFalse id
  | get => .isFalse id
  | close => .isTrue trivial

end Event

section Streams

variable {s s' t : State} {r : Region} {c : Client} {e : Event}

/-- What a step of one pump does. -/
theorem step_pump {q : Region} {a : Action} (h : step s (.pump q a) = some s') :
    ∃ p out p', s.pumps q = some p ∧ p.act a = some (out, p') ∧
      s' = ⟨Function.update s.pumps q (some p'), s.queue ++ out.map (q, ·), s.yielded⟩ := by
  obtain ⟨⟨out, p'⟩, hact, rfl⟩ := Option.map_eq_some_iff.mp h
  obtain ⟨p, hp, hact⟩ := Option.bind_eq_some_iff.mp hact
  exact ⟨p, out, p', hp, hact, rfl⟩

theorem step_get (h : step s .get = some s') :
    ∃ x queue, s.queue = x :: queue ∧ s' = ⟨s.pumps, queue, s.yielded ++ [x]⟩ := by
  simp only [step] at h
  split at h
  · cases h
  · rename_i x queue hqueue
    exact ⟨x, queue, hqueue, (Option.some.inj h).symm⟩

/-- The next message only changes its place. -/
theorem stream_get (h : step s .get = some s') (r : Region) :
    s'.pumps = s.pumps ∧ s'.stream r = s.stream r := by
  obtain ⟨x, queue, hqueue, rfl⟩ := step_get h
  refine ⟨rfl, ?_⟩
  have hlane : lane r (s.yielded ++ [x]) ++ lane r queue = lane r s.yielded ++ lane r s.queue := by
    rw [hqueue, lane_append, List.append_assoc, ← lane_append]
    rfl
  simp only [State.stream, hlane, State.pending]

theorem lane_map_self (r : Region) (out : List (List Byte)) : lane r (out.map (r, ·)) = out := by
  induction out with
  | nil => rfl
  | cons raw out ih => rw [List.map_cons, lane_cons_self, ih]

theorem lane_map_of_ne {q : Region} (h : q ≠ r) (out : List (List Byte)) :
    lane r (out.map (q, ·)) = [] := by
  induction out with
  | nil => rfl
  | cons raw out ih => rw [List.map_cons, lane_cons_of_ne h, ih]

/-- A step of another region's pump. -/
theorem stream_pump_of_ne {q : Region} {a : Action} (hq : q ≠ r)
    (h : step s (.pump q a) = some s') :
    s'.pumps r = s.pumps r ∧ s'.stream r = s.stream r := by
  obtain ⟨p, out, p', -, -, rfl⟩ := step_pump h
  have hp : Function.update s.pumps q (some p') r = s.pumps r :=
    Function.update_of_ne (Ne.symm hq) _ _
  refine ⟨hp, ?_⟩
  simp only [State.stream, State.pending, lane_append, lane_map_of_ne hq, hp, List.append_nil]

/-- A publication goes to the end of the stream if the pump is listening. -/
theorem stream_publish {p : Pump} (hp : s.pumps r = some p) {raw : List Byte} {c : Client}
    (h : step s (.publish c raw) = some s') :
    s'.pumps r = some (hearAt c raw p) ∧
      s'.stream r = s.stream r ++ if p.client = c ∧ p.isListening then [raw] else [] := by
  obtain rfl := Option.some.inj h
  refine ⟨by simp [hp], ?_⟩
  simp only [State.stream, State.pending, hp, Option.map_some, Option.elim_some,
    List.append_assoc]
  unfold hearAt
  by_cases hc : p.client = c
  · simp [hc, Pump.pending_hear]
  · simp [hc]

/-- Without a pump nothing comes under a region's name. -/
theorem stream_of_none (hp : s.pumps r = none) (h : step s e = some s') :
    s'.pumps r = none ∧ (s'.stream r).Sublist (s.stream r) := by
  cases e with
  | pump q a =>
    by_cases hq : q = r
    · obtain ⟨p, out, p', hp', -⟩ := step_pump h
      rw [hq, hp] at hp'
      cases hp'
    · obtain ⟨hpumps, hstream⟩ := stream_pump_of_ne hq h
      exact ⟨hpumps.trans hp, hstream ▸ .refl _⟩
  | publish c raw =>
    obtain rfl := Option.some.inj h
    simp [hp, State.stream, State.pending]
  | get =>
    obtain ⟨hpumps, hstream⟩ := stream_get h r
    exact ⟨hpumps ▸ hp, hstream ▸ .refl _⟩
  | close =>
    obtain rfl := Option.some.inj h
    simp [State.stream, State.pending]

/-- Any step : the stream keeps its order and gets at most the publication of its end. -/
theorem stream_step (hs : s.Hears r c) (h : step s e = some s') :
    s'.Hears r c ∧ (s'.stream r).Sublist (s.stream r ++ e.published c) := by
  cases hp : s.pumps r with
  | none =>
    obtain ⟨hpumps, hsub⟩ := stream_of_none hp h
    refine ⟨fun p hp' => ?_, hsub.trans (List.sublist_append_left _ _)⟩
    rw [hpumps] at hp'
    cases hp'
  | some p =>
    have hc : p.client = c := hs p hp
    cases e with
    | pump q a =>
      rw [Event.published, List.append_nil]
      by_cases hq : q = r
      · subst hq
        obtain ⟨p₀, out, p', hp₀, hact, rfl⟩ := step_pump h
        obtain rfl := Option.some.inj (hp.symm.trans hp₀)
        refine ⟨fun p'' hp'' => ?_, ?_⟩
        · obtain rfl : p' = p'' := by simpa using hp''
          exact (Pump.effect_of_act hact).client.trans hc
        · have hout := (Pump.effect_of_act hact).sublist
          simpa [State.stream, State.pending, hp, lane_map_self] using hout
      · obtain ⟨hpumps, hstream⟩ := stream_pump_of_ne hq h
        exact ⟨fun p' hp' => hs p' (hpumps ▸ hp'), hstream ▸ .refl _⟩
    | publish c' raw =>
      obtain ⟨hpumps, hstream⟩ := stream_publish hp h
      constructor
      · intro p' hp'
        rw [hpumps] at hp'
        obtain rfl := Option.some.inj hp'
        unfold hearAt Pump.hear
        split_ifs
        · split <;> exact hc
        · exact hc
      · rw [hstream, hc, Event.published]
        refine List.Sublist.append_left ?_ _
        by_cases hcc : c = c' <;> cases p.isListening <;> simp [hcc, eq_comm]
    | get =>
      obtain ⟨hpumps, hstream⟩ := stream_get h r
      refine ⟨fun p' hp' => hs p' (hpumps ▸ hp'), ?_⟩
      rw [hstream, Event.published, List.append_nil]
    | close =>
      obtain rfl := Option.some.inj h
      simp [State.Hears, State.stream, State.pending, Event.published]

/-- A step that does not interrupt : the stream of a pump that is listening gets what is
published at its client. -/
theorem stream_step_of_listens (he : ¬ e.Interrupts r) (hs : s.Listens r c)
    (h : step s e = some s') :
    s'.Listens r c ∧ s'.stream r = s.stream r ++ e.published c := by
  obtain ⟨p, hp, hc, hl⟩ := hs
  cases e with
  | pump q a =>
    rw [Event.published, List.append_nil]
    by_cases hq : q = r
    · subst hq
      obtain ⟨p₀, out, p', hp₀, hact, rfl⟩ := step_pump h
      obtain rfl := Option.some.inj (hp.symm.trans hp₀)
      have hcut : a.cuts = false := Bool.eq_false_of_not_eq_true fun ha => he ⟨rfl, ha⟩
      obtain ⟨hl', hpending⟩ := (Pump.effect_of_act hact).listening hl hcut
      refine ⟨⟨p', by simp, (Pump.effect_of_act hact).client.trans hc, hl'⟩, ?_⟩
      simp [State.stream, State.pending, hp, lane_map_self, ← hpending]
    · obtain ⟨hpumps, hstream⟩ := stream_pump_of_ne hq h
      exact ⟨⟨p, hpumps.trans hp, hc, hl⟩, hstream⟩
  | publish c' raw =>
    obtain ⟨hpumps, hstream⟩ := stream_publish hp h
    constructor
    · refine ⟨_, hpumps, ?_⟩
      unfold hearAt Pump.hear
      unfold Pump.isListening at hl
      split_ifs <;> split at hl <;> simp_all [Pump.isListening]
    · rw [hstream, hc, hl, Event.published]
      by_cases hcc : c = c' <;> simp [hcc, eq_comm]
  | get =>
    obtain ⟨hpumps, hstream⟩ := stream_get h r
    refine ⟨⟨p, hpumps ▸ hp, hc, hl⟩, ?_⟩
    rw [hstream, Event.published, List.append_nil]
  | close => exact absurd trivial he

end Streams

/-! ## Runs -/

/-- What a run publishes at one client, in order. -/
def publishedAt (c : Client) (es : List Event) : List (List Byte) := es.flatMap (Event.published c)

section Runs

variable {own r : Region} {peers : Dict Region Client} {c : Client} {es : List Event} {s t : State}

theorem start_pumps (own : Region) (peers : Dict Region Client) (r : Region) :
    (start own peers).pumps r = ((Wiring.subscribed own peers).get? r).map Pump.start := rfl

@[simp] theorem stream_start (own : Region) (peers : Dict Region Client) (r : Region) :
    (start own peers).stream r = [] := by
  simp only [State.stream, State.pending, start, lane_nil, List.nil_append]
  cases (Wiring.subscribed own peers).get? r <;> rfl

theorem hears_start (hc : (Wiring.subscribed own peers).get? r = some c) :
    (start own peers).Hears r c := by
  intro p hp
  rw [start_pumps, hc] at hp
  exact Option.some.inj hp ▸ rfl

theorem hears_of_run (hc : (Wiring.subscribed own peers).get? r = some c)
    (h : Run (Steps step) (start own peers) es t) : t.Hears r c :=
  h.invariant (I := fun s => s.Hears r c) (fun _ _ _ hs hstep => (stream_step hs hstep).1)
    (hears_start hc)

/-- The stream of a run is in the order of the publications. -/
theorem stream_of_run (hc : (Wiring.subscribed own peers).get? r = some c)
    (h : Run (Steps step) (start own peers) es t) : (t.stream r).Sublist (publishedAt c es) := by
  have hsub := h.sublist (I := fun s => s.Hears r c) (f := fun s => s.stream r)
    (fun _ _ _ hs hstep => stream_step hs hstep) (hears_start hc)
  rw [stream_start, List.nil_append] at hsub
  exact hsub

/-- A region without a client has no stream. -/
theorem stream_eq_nil_of_run (hc : (Wiring.subscribed own peers).get? r = none)
    (h : Run (Steps step) (start own peers) es t) : t.stream r = [] := by
  have hstart : (start own peers).pumps r = none := by rw [start_pumps, hc, Option.map_none]
  have hall := h.invariant (I := fun s => s.pumps r = none ∧ s.stream r = [])
    (fun s e s' hs hstep => by
      obtain ⟨hpumps, hsub⟩ := stream_of_none hs.1 hstep
      exact ⟨hpumps, List.sublist_nil.mp (hs.2 ▸ hsub)⟩) ⟨hstart, stream_start ..⟩
  exact hall.2

theorem lane_yielded_sublist (t : State) (r : Region) :
    (lane r t.yielded).Sublist (t.stream r) := by
  rw [State.stream, List.append_assoc]
  exact List.sublist_append_left _ _

/-- **Order of the pumps.** Whatever the order in which the pumps connect, fail, sleep, read and
take turns, the messages yielded under a region's name are publications of the client
subscribed under it, in the order of publication and each once at most, and nothing is yielded
under the name of a region that has no client. -/
theorem yielded_in_order (h : Run (Steps step) (start own peers) es t) (r : Region) :
    (lane r t.yielded).Sublist
      (((Wiring.subscribed own peers).get? r).elim [] fun c => publishedAt c es) := by
  refine (lane_yielded_sublist t r).trans ?_
  cases hc : (Wiring.subscribed own peers).get? r with
  | none => exact stream_eq_nil_of_run hc h ▸ .refl _
  | some c => exact stream_of_run hc h

theorem stream_of_listens {s : State} (hs : s.Listens r c) (h : Run (Steps step) s es t)
    (hes : ∀ e ∈ es, ¬ e.Interrupts r) :
    t.Listens r c ∧ t.stream r = s.stream r ++ publishedAt c es :=
  h.appends (Q := fun e => ¬ e.Interrupts r) (I := fun s => s.Listens r c)
    (f := fun s => s.stream r) (fun _ _ _ he hs hstep => stream_step_of_listens he hs hstep) hes hs

/-- A subscription starts with nothing to read. -/
theorem step_subscribed {s' : State} (hs : s.Hears r c)
    (h : step s (.pump r .subscribed) = some s') :
    s'.Listens r c ∧ s'.stream r = lane r s.yielded ++ lane r s.queue := by
  obtain ⟨p, out, p', hp, hact, rfl⟩ := step_pump h
  unfold Pump.act at hact
  split at hact <;> try contradiction
  rename_i hphase
  obtain ⟨rfl, rfl⟩ := Prod.mk.inj (Option.some.inj hact)
  exact ⟨⟨_, Function.update_self .., hs p hp, rfl⟩,
    by simp [State.stream, State.pending, Pump.pending]⟩

/-- **No loss while listening.** From the moment a pump has subscribed and up to its next
interruption, every publication of its client is yielded, waits in the queue or is still to be
read, in order and once, behind what came before under the region's name. -/
theorem nothing_lost_while_listening {es' : List Event} {s' : State}
    (hc : (Wiring.subscribed own peers).get? r = some c)
    (h : Run (Steps step) (start own peers) es s)
    (hsub : step s (.pump r .subscribed) = some s') (h' : Run (Steps step) s' es' t)
    (hes : ∀ e ∈ es', ¬ e.Interrupts r) :
    lane r t.yielded ++ lane r t.queue ++ t.pending r =
      lane r s.yielded ++ lane r s.queue ++ publishedAt c es' := by
  obtain ⟨hlistens, hstream⟩ := step_subscribed (hears_of_run hc h) hsub
  rw [← hstream]
  exact (stream_of_listens hlistens h' hes).2

/-- Everything that was heard has been yielded. -/
def State.Drained (s : State) : Prop := s.queue = [] ∧ ∀ r, s.pending r = []

/-- What is yielded is never taken back. -/
theorem yielded_prefix (h : Run (Steps step) s es t) : s.yielded <+: t.yielded := by
  refine h.relate (R := fun s t => s.yielded <+: t.yielded) (fun _ => List.prefix_rfl)
    (fun _ _ _ => List.IsPrefix.trans) fun s e s' hstep => ?_
  cases e with
  | pump q a =>
    obtain ⟨p, out, p', -, -, rfl⟩ := step_pump hstep
    exact List.prefix_rfl
  | publish c raw =>
    obtain rfl := Option.some.inj hstep
    exact List.prefix_rfl
  | get =>
    obtain ⟨x, queue, -, rfl⟩ := step_get hstep
    exact List.prefix_append _ _
  | close =>
    obtain rfl := Option.some.inj hstep
    exact List.prefix_rfl

theorem State.Drained.lane_yielded (h : t.Drained) (r : Region) :
    lane r t.yielded = t.stream r := by
  rw [State.stream, h.1, h.2 r, lane_nil, List.append_nil, List.append_nil]

/-- **The pumps yield.** Where every pump is listening and everything heard so far has been
yielded, a run that interrupts none and leaves nothing behind yields on what its clients publish,
each message once and under the name of its client's region. -/
theorem yields_of_drained {es' : List Event} (h : Run (Steps step) (start own peers) es s)
    (hs : s.Drained)
    (hopen : ∀ r c, (Wiring.subscribed own peers).get? r = some c → s.Listens r c)
    (h' : Run (Steps step) s es' t) (hes : ∀ r, ∀ e ∈ es', ¬ e.Interrupts r) (ht : t.Drained) :
    ∃ ys, t.yielded = s.yielded ++ ys ∧
      Wiring.Yields own peers (fun c => publishedAt c es') ys := by
  obtain ⟨ys, hys⟩ := yielded_prefix h'
  refine ⟨ys, hys.symm, ?_⟩
  have hlane : ∀ r, lane r s.yielded ++ lane r ys = t.stream r := fun r => by
    rw [← ht.lane_yielded, ← hys, lane_append]
  have hlanes : ∀ r c, (Wiring.subscribed own peers).get? r = some c →
      lane r ys = publishedAt c es' := by
    intro r c hc
    refine List.append_cancel_left ((hlane r).trans ?_)
    rw [(stream_of_listens (hopen r c hc) h' (hes r)).2, hs.lane_yielded]
  -- nothing under the name of a region without a client
  have htags : ∀ e ∈ ys, e.1 ∈ (Wiring.subscribed own peers).entries.map Prod.fst := by
    intro e he
    by_contra hnot
    have hnone : (Wiring.subscribed own peers).get? e.1 = none := Dict.lookup_of_notMem hnot
    have hmem : e.2 ∈ lane e.1 s.yielded ++ lane e.1 ys :=
      List.mem_append_right _ (mem_lane.mpr he)
    rw [hlane, stream_eq_nil_of_run hnone (h.append h')] at hmem
    cases hmem
  refine (perm_flatMap_lane (Wiring.subscribed own peers).nodup htags).trans ?_
  rw [List.flatMap_map]
  refine List.Perm.of_eq (List.flatMap_congr fun e he => ?_)
  rw [hlanes e.1 e.2 (Dict.mem_entries.mp he), Wiring.pump]

end Runs

/-! ## Backoff -/

/-- The failures of a pump since its last subscription, after one more event. -/
def countFailure (r : Region) (n : ℕ) : Event → ℕ
  | .pump q .subscribed => if q = r then 0 else n
  | .pump q .failed => if q = r then n + 1 else n
  | _ => n

/-- The failures of a region's pump in a row. -/
def failures (r : Region) (es : List Event) : ℕ := es.foldl (countFailure r) 0

/-- The `backoff` that so many failures leave, and the sleep before the next attempt. -/
def Pump.Backed (p : Pump) (n : ℕ) : Prop :=
  match p.phase with
  | .sleeping seconds => ∃ k, n = k + 1 ∧ p.backoff = min (2 ^ k) 30 ∧ seconds = p.backoff
  | _ => p.backoff = min (2 ^ n) 30

/-- The next pause is the last one doubled, up to the limit. -/
theorem min_double (k : ℕ) : min (min (2 ^ k) 30 * 2) 30 = min (2 ^ (k + 1)) 30 := by
  rw [pow_succ]
  omega

theorem Pump.Effect.backed {p p' : Pump} {a : Action} {out : List (List Byte)} {r : Region} {n : ℕ}
    (h : Effect p a out p') (hp : p.Backed n) : p'.Backed (countFailure r n (.pump r a)) := by
  cases h with
  | subscribed => simp [countFailure, Backed]
  | @failed c b phase hawake =>
    have hb : b = min (2 ^ n) 30 := by
      cases phase with
      | sleeping seconds => exact absurd rfl (hawake seconds)
      | connecting | listening | broken => exact hp
    simp [countFailure, Backed, hb]
  | woke =>
    obtain ⟨k, rfl, hb, -⟩ := hp
    dsimp only at hb
    simp [countFailure, Backed, hb, min_double]
  | ended | notice | read | readBroken | lost | resubscribed => exact hp

theorem Pump.backed_hearAt {p : Pump} {n : ℕ} (hp : p.Backed n) (c : Client) (raw : List Byte) :
    (hearAt c raw p).Backed n := by
  unfold hearAt Pump.hear
  split_ifs
  · split
    · rename_i unread hphase
      simpa [Pump.Backed, hphase] using hp
    · exact hp
  · exact hp

theorem backed_step {r : Region} {s s' : State} {e : Event} {n : ℕ}
    (hs : ∀ p ∈ s.pumps r, p.Backed n) (h : step s e = some s') :
    ∀ p ∈ s'.pumps r, p.Backed (countFailure r n e) := by
  intro p' hp'
  cases e with
  | pump q a =>
    by_cases hq : q = r
    · subst hq
      obtain ⟨p, out, p₁, hp, hact, rfl⟩ := step_pump h
      obtain rfl : p₁ = p' := by simpa using hp'
      exact (Pump.effect_of_act hact).backed (hs p hp)
    · rw [(stream_pump_of_ne hq h).1] at hp'
      have hsame : countFailure r n (.pump q a) = n := by cases a <;> simp [countFailure, hq]
      rw [hsame]
      exact hs p' hp'
  | publish c raw =>
    obtain rfl := Option.some.inj h
    obtain ⟨p, hp, rfl⟩ := Option.map_eq_some_iff.mp hp'
    exact Pump.backed_hearAt (hs p hp) c raw
  | get => exact hs p' ((stream_get h r).1 ▸ hp')
  | close =>
    obtain rfl := Option.some.inj h
    cases hp'

/-- **Exponential backoff.** A pump that sleeps has failed since its last subscription, and it
sleeps `2 ^ (n - 1)` seconds after the `n`-th failure in a row, 30 at most. -/
theorem backoff_of_run {own r : Region} {peers : Dict Region Client} {es : List Event} {t : State}
    {p : Pump} {seconds : ℕ} (h : Run (Steps step) (start own peers) es t)
    (hp : t.pumps r = some p) (hsleep : p.phase = .sleeping seconds) :
    0 < failures r es ∧ seconds = min (2 ^ (failures r es - 1)) 30 := by
  have hstart : ∀ p ∈ (start own peers).pumps r, p.Backed 0 := by
    intro p hp
    obtain ⟨c, -, rfl⟩ := Option.map_eq_some_iff.mp hp
    rfl
  have hbacked := h.foldl (I := fun s n => ∀ p ∈ s.pumps r, p.Backed n)
    (fun _ _ _ _ hs hstep => backed_step hs hstep) hstart p hp
  simp only [Pump.Backed, hsleep] at hbacked
  obtain ⟨k, hk, hb, hseconds⟩ := hbacked
  rw [failures, hk, hseconds, hb]
  exact ⟨Nat.succ_pos k, rfl⟩

/-! ## Samples -/

/-- What can be compared of a state. -/
structure View where
  pumps : List (Option Pump)
  queue : List (Region × List Byte)
  yielded : List (Region × List Byte)
  deriving DecidableEq

def State.view (s : State) : View := ⟨Region.all.map s.pumps, s.queue, s.yielded⟩

/-- Both pumps are listening and have nothing to read. -/
def viewOf (yielded : List (Region × List Byte)) : View :=
  ⟨[some ⟨.home, 1, .listening []⟩, some ⟨.peer (str "redis://redis-eu"), 1, .listening []⟩, none],
    [], yielded⟩

/-- One peer of `us`. -/
def samplePeer : Client := .peer (str "redis://redis-eu")

def samplePeers : Dict Region Client := Dict.empty.set .eu samplePeer

/-- Both pumps subscribe. -/
def sampleOpening : List Event := [.pump .eu .subscribed, .pump .us .subscribed]

/-- One message of each client, of which the later is read first. -/
def sampleTraffic : List Event :=
  [.publish samplePeer [1], .publish .home [2], .pump .us .read, .pump .eu .read, .get, .get]

/-- The pumps subscribe, and there is the same traffic twice. -/
theorem exists_sample : ∃ s t u, Run (Steps step) (start .us samplePeers) sampleOpening s ∧
    Run (Steps step) s sampleTraffic t ∧ t.view = viewOf [(.us, [2]), (.eu, [1])] ∧
    Run (Steps step) t sampleTraffic u ∧
    u.view = viewOf [(.us, [2]), (.eu, [1]), (.us, [2]), (.eu, [1])] := by
  have hmid : (exec step (start .us samplePeers) (sampleOpening ++ sampleTraffic)).map State.view =
      some (viewOf [(.us, [2]), (.eu, [1])]) := by
    decide +kernel
  have hend : (exec step (start .us samplePeers)
      (sampleOpening ++ sampleTraffic ++ sampleTraffic)).map State.view =
      some (viewOf [(.us, [2]), (.eu, [1]), (.us, [2]), (.eu, [1])]) := by
    decide +kernel
  obtain ⟨t, ht, hview⟩ := Option.map_eq_some_iff.mp hmid
  obtain ⟨u, hu, hview'⟩ := Option.map_eq_some_iff.mp hend
  obtain ⟨t', h, h'⟩ := (run_of_exec hu).split
  obtain rfl : t = t' := Option.some.inj (ht.symm.trans (exec_of_run h))
  obtain ⟨s, hs, hst⟩ := h.split
  exact ⟨s, t, u, hs, hst, hview, h', hview'⟩

theorem pumps_of_view {s : State} {yielded : List (Region × List Byte)}
    (h : s.view = viewOf yielded) : s.pumps .us = some ⟨.home, 1, .listening []⟩ ∧
      s.pumps .eu = some ⟨samplePeer, 1, .listening []⟩ ∧ s.pumps .asia = none := by
  simpa [State.view, Region.all, viewOf, samplePeer] using congrArg View.pumps h

theorem yielded_in_order_sample : ∃ es t, Run (Steps step) (start .us samplePeers) es t ∧
    lane .eu t.yielded = [[1]] ∧
    (lane .eu t.yielded).Sublist
      (((Wiring.subscribed .us samplePeers).get? .eu).elim [] fun c => publishedAt c es) := by
  obtain ⟨s, t, -, h, h', hview, -⟩ := exists_sample
  have hyielded : t.yielded = [(.us, [2]), (.eu, [1])] := congrArg View.yielded hview
  refine ⟨_, t, h.append h', ?_, yielded_in_order (h.append h') .eu⟩
  rw [hyielded]
  rfl

theorem nothing_lost_sample : ∃ s s' t, Run (Steps step) (start .us samplePeers) [] s ∧
    step s (.pump .eu .subscribed) = some s' ∧
    Run (Steps step) s' (.pump .us .subscribed :: sampleTraffic) t ∧
    lane .eu t.yielded ++ lane .eu t.queue ++ t.pending .eu =
      lane .eu s.yielded ++ lane .eu s.queue ++
        publishedAt samplePeer (.pump .us .subscribed :: sampleTraffic) := by
  obtain ⟨s, t, -, h, h', -⟩ := exists_sample
  cases h with
  | cons hstep hrest =>
    exact ⟨_, _, t, .nil _, hstep, hrest.append h',
      nothing_lost_while_listening (by decide +kernel) (.nil _) hstep (hrest.append h')
        (by decide +kernel)⟩

theorem drained_of_view {s : State} {yielded : List (Region × List Byte)}
    (h : s.view = viewOf yielded) : s.Drained := by
  obtain ⟨hus, heu, hasia⟩ := pumps_of_view h
  refine ⟨congrArg View.queue h, fun r => ?_⟩
  cases r <;> simp only [State.pending, hus, heu, hasia] <;> rfl

theorem yields_of_drained_sample : ∃ s t,
    Run (Steps step) (start .us samplePeers) (sampleOpening ++ sampleTraffic) s ∧
    Run (Steps step) s sampleTraffic t ∧ s.yielded = [(.us, [2]), (.eu, [1])] ∧
    ∃ ys, t.yielded = s.yielded ++ ys ∧
      Wiring.Yields .us samplePeers (fun c => publishedAt c sampleTraffic) ys := by
  obtain ⟨s₀, s, t, h₀, h, hview, h', hview'⟩ := exists_sample
  obtain ⟨hus, heu, -⟩ := pumps_of_view hview
  refine ⟨s, t, h₀.append h, h', congrArg View.yielded hview,
    yields_of_drained (h₀.append h) (drained_of_view hview) ?_ h' ?_ (drained_of_view hview')⟩
  · intro r c hc
    cases r with
    | us =>
      have hclient : (Wiring.subscribed .us samplePeers).get? .us = some .home := by decide +kernel
      exact ⟨_, hus, Option.some.inj (hclient.symm.trans hc), rfl⟩
    | eu =>
      have hclient : (Wiring.subscribed .us samplePeers).get? .eu = some samplePeer := by
        decide +kernel
      exact ⟨_, heu, Option.some.inj (hclient.symm.trans hc), rfl⟩
    | asia =>
      have hclient : (Wiring.subscribed .us samplePeers).get? .asia = none := by decide +kernel
      cases hclient.symm.trans hc
  · intro r
    cases r <;> decide +kernel

/-- Three failures in a row after a connection that was lost. -/
def sampleOutage : List Event :=
  [.pump .eu .subscribed, .pump .eu .failed, .pump .eu .woke, .pump .eu .failed, .pump .eu .woke,
    .pump .eu .failed]

theorem backoff_of_run_sample : ∃ t p, Run (Steps step) (start .us samplePeers) sampleOutage t ∧
    t.pumps .eu = some p ∧ p.phase = .sleeping 4 ∧ 0 < failures .eu sampleOutage ∧
    4 = min (2 ^ (failures .eu sampleOutage - 1)) 30 := by
  have hend : (exec step (start .us samplePeers) sampleOutage).map (fun t => t.pumps .eu) =
      some (some ⟨samplePeer, 4, .sleeping 4⟩) := by decide +kernel
  obtain ⟨t, ht, hp⟩ := Option.map_eq_some_iff.mp hend
  exact ⟨t, _, run_of_exec ht, hp, rfl, backoff_of_run (run_of_exec ht) hp rfl⟩

end Transport

end Gdrl
