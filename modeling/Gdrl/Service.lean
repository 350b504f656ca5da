import Gdrl.World

/-!
# The sync process

`Service` is what `amain` starts in one region : the relay, the reconciler and the admin
surface, over one local Redis, one partition table and one buffer. Messages may hold
anything, and whatever else writes to the local Redis does so between two steps. Each
region of the `World` is one (`exists_run_service`).

Of all these tasks only the relay touches the buffer, and only to push. So the buffer is
empty at the end of a run exactly if nothing was ever pushed (`recovered_iff`).
-/

namespace Gdrl

namespace FailoverBuffer

variable {α : Type}

theorem size_push (b : FailoverBuffer α) (kind : Str) (x : α) :
    (b.push kind x).2.size kind = min (b.size kind + 1) (max b.cap (b.size kind)) := by
  have hcap := b.cap_pos
  simp only [size, push, if_true]
  split_ifs <;> simp only [List.length_append, List.length_tail, List.length_singleton] <;> omega

end FailoverBuffer

/-- The tasks of `amain` with what they share. -/
structure Service where
  relay : Relay.Task
  state : Relay.State
  pass : Option Pass

namespace Service

inductive Event
  /-- The relay takes a message in. -/
  | deliver (raw : List Byte)
  /-- It applies the next slot of the message. -/
  | apply (out : Outcome) (redisMs : ℤ)
  /-- The admin surface edits the partition table. -/
  | addRule (f g : Str)
  | removeRule (f g : Str)
  | clearRules
  /-- `reconcile_once` starts on a window. -/
  | startPass (window : ℤ)
  | scan (key : Str)
  | endScan
  | flush (tsMs : ℤ) (out : Outcome)
  | abort
  /-- The gateway writes to the local Redis, or a key expires. -/
  | redis (m : GlobalRedis)

/-- The next chunk goes out, or its pass ends with an exception. -/
def flushed (py : Python) (self : Region) (p : Pass) (tsMs : ℤ) (out : Outcome) : Option Pass :=
  match serializeReconcile py (p.envelope self tsMs), out with
  | .ok _, .ok => p.flushed
  | _, _ => none

/-- One step, `none` where it cannot be taken. -/
def step (py : Python) (chunkSize : ℤ) (self : Region) (s : Service) : Event → Option Service
  | .deliver raw =>
    match s.relay with
    | .idle => some { s with relay := Relay.accept py self s.state.table raw }
    | _ => none
  | .apply out redisMs =>
    (Relay.advance self s.relay out redisMs s.state).map fun (relay, state) =>
      { s with relay, state }
  | .addRule f g => some { s with state := { s.state with table := s.state.table.add f g } }
  | .removeRule f g => some { s with state := { s.state with table := s.state.table.remove f g } }
  | .clearRules => some { s with state := { s.state with table := .empty } }
  | .startPass window =>
    match s.pass with
    | none =>
      if Printable window then some { s with pass := some ⟨window, Dict.empty, false⟩ } else none
    | some _ => none
  | .scan key =>
    match s.pass with
    | some p =>
      if p.ending || p.full chunkSize || !glob (scanPattern p.window) key || ¬ Scalar key then none
      else some { s with pass := (p.scan self s.state.redis key).toOption }
    | none => none
  | .endScan =>
    match s.pass with
    | some p =>
      if p.ending || p.full chunkSize then none else some { s with pass := p.scannedAll }
    | none => none
  | .flush tsMs out =>
    match s.pass with
    | some p =>
      if (p.ending || p.full chunkSize) && fits64 tsMs then
        some { s with pass := flushed py self p tsMs out }
      else none
    | none => none
  | .abort =>
    match s.pass with
    | some _ => some { s with pass := none }
    | none => none
  | .redis m => some { s with state := { s.state with redis := m } }

/-- A process at its start, on whatever the local Redis holds. -/
def start (m : GlobalRedis) : Service := ⟨.idle, ⟨m, .empty, .new⟩, none⟩

/-! ## The buffer -/

/-- The slot that a step pushes : the one whose call raises. -/
def pushed (self : Region) (s : Service) : Event → Option SlotWrite
  | .apply out redisMs =>
    match s.relay with
    | .applying _ (x :: _) _ =>
      match (applyRemoteSlot self x out redisMs s.state.redis).1 with
      | .ok _ => none
      | .error .ownSlotWrite => none
      | .error _ => some x
    | _ => none
  | _ => none

/-- The slot that falls out of a full buffer. -/
def evicted (self : Region) (s : Service) (e : Event) : Option SlotWrite :=
  (pushed self s e).bind fun _ =>
    if s.state.buffer.cap ≤ s.state.buffer.size Relay.bufferKind then
      (s.state.buffer.queues Relay.bufferKind).head?
    else none

section Buffer

variable {py : Python} {chunkSize : ℤ} {self : Region} {s s' : Service}

theorem advance_buffer {out : Outcome} {redisMs : ℤ} {t : Relay.Task} {u : Relay.State}
    (h : Relay.advance self s.relay out redisMs s.state = some (t, u)) :
    u.buffer = (pushed self s (.apply out redisMs)).elim s.state.buffer
      fun x => (s.state.buffer.push Relay.bufferKind x).2 := by
  rw [pushed]
  cases hrelay : s.relay with
  | idle | dead =>
    rw [hrelay] at h
    exact absurd h nofun
  | applying kind ws tsMs =>
    rw [hrelay] at h
    cases ws with
    | nil => exact absurd h nofun
    | cons x xs =>
      obtain ⟨-, rfl⟩ := Prod.mk.inj (Option.some.inj h)
      dsimp only [Relay.applyOne]
      cases hcall : applyRemoteSlot self x out redisMs s.state.redis with
      | mk r m =>
        cases r with
        | ok b => rfl
        | error err => cases err <;> rfl

/-- Every step leaves the buffer alone or pushes one slot. -/
theorem step_buffer {e : Event} (h : s.step py chunkSize self e = some s') :
    s'.state.buffer = (pushed self s e).elim s.state.buffer
      fun x => (s.state.buffer.push Relay.bufferKind x).2 := by
  cases e with
  | deliver raw =>
    rw [step] at h
    split at h
    · obtain rfl := Option.some.inj h
      rfl
    · exact absurd h nofun
  | apply out redisMs =>
    obtain ⟨⟨t, u⟩, hadv, rfl⟩ := Option.map_eq_some_iff.mp h
    exact advance_buffer hadv
  | addRule f g | removeRule f g | clearRules | redis m =>
    obtain rfl := Option.some.inj h
    rfl
  | startPass | scan | endScan | flush =>
    rw [step] at h
    split at h
    · split_ifs at h
      all_goals
        obtain rfl := Option.some.inj h
        rfl
    · exact absurd h nofun
  | abort =>
    rw [step] at h
    split at h
    · obtain rfl := Option.some.inj h
      rfl
    · exact absurd h nofun

/-- How many slots wait in the buffer. -/
def backlog (s : Service) : ℕ := s.state.buffer.size Relay.bufferKind

/-- No step makes the buffer smaller, and a step fills an empty one only by a push. -/
theorem step_backlog {e : Event} (h : s.step py chunkSize self e = some s') :
    s.backlog ≤ s'.backlog ∧ (pushed self s e = none → s'.backlog = s.backlog) ∧
      ((pushed self s e).isSome = true → 0 < s'.backlog) := by
  have hbuffer := step_buffer h
  unfold backlog
  rw [hbuffer]
  cases hp : pushed self s e with
  | none => exact ⟨le_rfl, fun _ => rfl, nofun⟩
  | some x =>
    have hcap := s.state.buffer.cap_pos
    rw [Option.elim_some, FailoverBuffer.size_push]
    exact ⟨by omega, nofun, fun _ => by omega⟩

theorem run_backlog {es : List Event} (h : Run (Steps (step py chunkSize self)) s es s') :
    s.backlog ≤ s'.backlog :=
  h.relate (R := fun s s' => s.backlog ≤ s'.backlog) (fun _ => le_rfl) (fun _ _ _ => le_trans)
    fun _ _ _ hstep => (step_backlog hstep).1

end Buffer

/-! ## Recovery -/

section Recovery

variable (py : Python) (chunkSize : ℤ) (q : Region)

/-- A slot that some step of a run yields. -/
def Yields (f : Service → Event → Option SlotWrite) (s : Service) (es : List Event)
    (x : SlotWrite) : Prop :=
  ∃ a e b u, es = a ++ e :: b ∧ Run (Steps (step py chunkSize q)) s a u ∧ f u e = some x

/-- What the process owes at the end of a run : the buffer is empty, and every slot that
was pushed and did not fall out is merged. -/
structure Recovered (s : Service) (es : List Event) (s' : Service) : Prop where
  size : s'.state.buffer.size Relay.bufferKind = 0
  merged : ∀ x, Yields py chunkSize q (pushed q) s es x →
    ¬ Yields py chunkSize q (evicted q) s es x →
    x.value.toInt ≤ (s'.state.redis x.key).slot x.peer

variable {py chunkSize q}

/-- The buffer is empty exactly if nothing was pushed. -/
theorem backlog_eq_zero_iff {s s' : Service} {es : List Event} (hs : s.backlog = 0)
    (h : Run (Steps (step py chunkSize q)) s es s') :
    s'.backlog = 0 ↔ ∀ x, ¬ Yields py chunkSize q (pushed q) s es x := by
  constructor
  · rintro hzero x ⟨a, e, b, u, rfl, ha, hx⟩
    cases ha.rest (fun _ _ _ _ h h' => Option.some.inj (h.symm.trans h')) h with
    | cons hstep hrest =>
      have hpos := (step_backlog hstep).2.2 (by rw [hx]; rfl)
      exact absurd (run_backlog hrest) (by omega)
  · intro hnone
    by_contra hne
    obtain ⟨a, e, b, u, u', hes, ha, hu, hstep, hu', -⟩ :=
      h.exists_exit (I := fun s => s.backlog = 0) hs hne
    cases hx : pushed q u e with
    | none => exact hu' (((step_backlog hstep).2.1 hx).trans hu)
    | some x => exact hnone x ⟨a, e, b, u, hes, ha, hx⟩

/-- **Recovery.** Whatever a run is, through however many outages and with whatever behind
them, the process has recovered at its end exactly if nothing was ever pushed. -/
theorem recovered_iff {m : GlobalRedis} {es : List Event} {s : Service}
    (h : Run (Steps (step py chunkSize q)) (start m) es s) :
    Recovered py chunkSize q (start m) es s ↔
      ∀ x, ¬ Yields py chunkSize q (pushed q) (start m) es x := by
  have hiff := backlog_eq_zero_iff (s := start m) rfl h
  exact ⟨fun hr => hiff.mp hr.size, fun hn => ⟨hiff.mpr hn, fun x hx => absurd hx (hn x)⟩⟩

end Recovery

/-! ## Samples -/

/-- A counter message of `eu` for another user. -/
def laterMessage : List Byte := utf8Encode (
  str "\x7b\"tier\":\"free\",\"user_id\":\"u_2\",\"window_id\":7,\"region\":\"eu\"," ++
  str "\"value\":1,\"ts_ms\":20\x7d")

/-- The local Redis is down for one slot and stays up. Behind it the reconciler goes over
both windows of a tick, and the relay handles the next message. -/
def outage : List Event :=
  [.deliver Relay.plainRegion, .apply .failed 0, .startPass 8, .endScan, .startPass 7, .endScan,
    .deliver laterMessage, .apply .ok 1000]

/-- All is handled, and the slot still waits in the buffer, unmerged. -/
theorem not_recovered : ∃ s, Run (Steps (step samplePython 1000 .us)) (start fun _ => .empty)
    outage s ∧ s.relay = .idle ∧ s.pass = none ∧ s.backlog = 1 ∧
    (s.state.redis (globalKey (str "free") (str "u_2") 7)).slots .eu = some 1 ∧
    (s.state.redis (globalKey (str "free") (str "u_1") 7)).slots .eu = none ∧
    ¬ Recovered samplePython 1000 .us (start fun _ => .empty) outage s := by
  have hend : (exec (step samplePython 1000 .us) (start fun _ => .empty) outage).map (fun s =>
      (s.relay, s.pass.isNone, s.backlog,
        (s.state.redis (globalKey (str "free") (str "u_2") 7)).slots .eu,
        (s.state.redis (globalKey (str "free") (str "u_1") 7)).slots .eu)) =
      some (.idle, true, 1, some 1, none) := by decide +kernel
  obtain ⟨s, hs, heq⟩ := Option.map_eq_some_iff.mp hend
  obtain ⟨hrelay, heq⟩ := Prod.mk.inj heq
  obtain ⟨hpass, heq⟩ := Prod.mk.inj heq
  obtain ⟨hone, heq⟩ := Prod.mk.inj heq
  obtain ⟨hlater, hlost⟩ := Prod.mk.inj heq
  refine ⟨s, run_of_exec hs, hrelay, Option.isNone_iff_eq_none.mp hpass, hone, hlater, hlost, ?_⟩
  rintro ⟨hsize, -⟩
  exact absurd (hone.symm.trans hsize) one_ne_zero

/-- Without an outage. -/
theorem recovered_sample : ∃ s, Run (Steps (step samplePython 1000 .us)) (start fun _ => .empty)
    [.deliver Relay.plainRegion, .apply .ok 0] s ∧
    Recovered samplePython 1000 .us (start fun _ => .empty)
      [.deliver Relay.plainRegion, .apply .ok 0] s := by
  have hend : (exec (step samplePython 1000 .us) (start fun _ => .empty)
      [.deliver Relay.plainRegion, .apply .ok 0]).map backlog = some 0 := by decide +kernel
  obtain ⟨s, hs, hzero⟩ := Option.map_eq_some_iff.mp hend
  have hrun := run_of_exec hs
  exact ⟨s, hrun, (recovered_iff hrun).mpr ((backlog_eq_zero_iff rfl hrun).mp hzero)⟩

end Service

namespace World

/-- The sync process of a region. -/
def service (w : World) (q : Region) : Service := ⟨w.relays q, w.relayState q, w.passes q⟩

section Service

variable {py : Python} {chunkSize : ℤ} {w w' : World}

theorem advance_table {self : Region} {t t' : Relay.Task} {out : Outcome} {redisMs : ℤ}
    {s s' : Relay.State} (h : Relay.advance self t out redisMs s = some (t', s')) :
    s'.table = s.table := by
  unfold Relay.advance at h
  split at h
  · obtain ⟨-, rfl⟩ := Prod.mk.inj (Option.some.inj h)
    exact Relay.applyOne_table _ _ _ _ _
  · exact absurd h nofun

/-- A reconciler moves, and its process with it. -/
theorem service_of_pass {r : Region} {o : Option Pass} (sent : List (List Byte))
    (e : Service.Event)
    (hstep : (w.service r).step py chunkSize r e = some { w.service r with pass := o })
    (hw : w' = { w with passes := replace w.passes r o, sent }) (q : Region) :
    w'.service q = w.service q ∨
      ∃ e', (w.service q).step py chunkSize q e' = some (w'.service q) := by
  subst hw
  by_cases hq : q = r
  · subst hq
    refine Or.inr ⟨e, hstep.trans ?_⟩
    simp only [service, replace_self]
    rfl
  · exact Or.inl (by simp only [service, replace_of_ne _ _ hq]; rfl)

/-- The admin surface edits a table. -/
theorem service_of_table {r : Region} {table : PartitionTable} (e : Service.Event)
    (hstep : (w.service r).step py chunkSize r e =
      some { w.service r with state := { w.relayState r with table } })
    (hw : w' = { w with tables := replace w.tables r table }) (q : Region) :
    w'.service q = w.service q ∨
      ∃ e', (w.service q).step py chunkSize q e' = some (w'.service q) := by
  subst hw
  by_cases hq : q = r
  · subst hq
    refine Or.inr ⟨e, hstep.trans ?_⟩
    simp only [service, relayState, replace_self]
  · exact Or.inl (by simp only [service, relayState, replace_of_ne _ _ hq])

/-- A flush replaces the pass of its region, whatever goes out. -/
theorem stepFlush_passes (w : World) (r : Region) (p : Pass) (tsMs : ℤ) (out : Outcome) :
    ∃ sent, w.stepFlush py r p tsMs out = { w with
      passes := replace w.passes r (Service.flushed py r p tsMs out), sent } := by
  unfold stepFlush Service.flushed
  cases serializeReconcile py (p.envelope r tsMs) <;> cases out <;> exact ⟨_, rfl⟩

/-- A step of one sync process is one of the process of its region and none of the others. -/
theorem service_step {e : Event} (h : w.step py chunkSize e = some w') (q : Region) :
    w'.service q = w.service q ∨
      ∃ e', (w.service q).step py chunkSize q e' = some (w'.service q) := by
  cases e with
  | gateway e =>
    cases effect h with
    | gateway s hs hne heq =>
      rw [heq]
      exact Or.inr ⟨.redis (s.globals q), rfl⟩
  | deliver p raw =>
    rw [step] at h
    split at h
    · rename_i hidle
      split_ifs at h
      obtain rfl := Option.some.inj h
      by_cases hq : q = p
      · subst hq
        refine Or.inr ⟨.deliver raw, ?_⟩
        simp only [Service.step, service, hidle, replace_self]
        rfl
      · exact Or.inl (by simp only [service, replace_of_ne _ _ hq]; rfl)
    · exact absurd h nofun
  | apply p out redisMs =>
    obtain ⟨⟨t, s⟩, hadv, rfl⟩ := Option.map_eq_some_iff.mp h
    by_cases hq : q = p
    · subst hq
      refine Or.inr ⟨.apply out redisMs, Option.map_eq_some_iff.mpr ⟨_, hadv, ?_⟩⟩
      have htable : w.tables q = s.table := (advance_table hadv).symm
      simp only [service, relayState, replace_self, Cluster.setGlobal, if_pos, htable]
    · refine Or.inl ?_
      simp only [service, relayState, replace_of_ne _ _ hq, Cluster.setGlobal, if_neg hq]
  | addRule p f g => exact service_of_table (.addRule f g) rfl (Option.some.inj h).symm q
  | removeRule p f g => exact service_of_table (.removeRule f g) rfl (Option.some.inj h).symm q
  | clearRules p => exact service_of_table .clearRules rfl (Option.some.inj h).symm q
  | startPass r window =>
    rw [step] at h
    split at h
    · rename_i hnone
      split_ifs at h with hwindow
      exact service_of_pass _ (.startPass window)
        (by simp only [Service.step, service, hnone, if_pos hwindow])
        (Option.some.inj h).symm q
    · exact absurd h nofun
  | scan r key =>
    rw [step] at h
    split at h
    · rename_i p hp
      split_ifs at h with hguard
      refine service_of_pass (r := r) (o := (p.scan r (w.cluster.globals r) key).toOption) w.sent
        (.scan key) (by simp only [Service.step, service, hp, if_neg hguard]; rfl) ?_ q
      split at h
      all_goals
        rename_i hscan
        rw [hscan]
        exact (Option.some.inj h).symm
    · exact absurd h nofun
  | endScan r =>
    rw [step] at h
    split at h
    · rename_i p hp
      split_ifs at h with hguard
      exact service_of_pass _ .endScan (by simp only [Service.step, service, hp, if_neg hguard])
        (Option.some.inj h).symm q
    · exact absurd h nofun
  | flush r tsMs out =>
    rw [step] at h
    split at h
    · rename_i p hp
      split_ifs at h with hguard
      obtain ⟨sent, hflush⟩ := @stepFlush_passes py w r p tsMs out
      exact service_of_pass _ (.flush tsMs out)
        (by simp only [Service.step, service, hp, if_pos hguard])
        ((Option.some.inj h).symm.trans hflush) q
    · exact absurd h nofun
  | abort r =>
    rw [step] at h
    split at h
    · rename_i p hp
      exact service_of_pass _ .abort (by simp only [Service.step, service, hp])
        (Option.some.inj h).symm q
    · exact absurd h nofun

/-- The sync processes of the three regions. -/
theorem exists_run_service {es : List Event}
    (h : Run (Steps (World.step py chunkSize)) init es w) (q : Region) :
    ∃ es', Run (Steps (Service.step py chunkSize q)) (.start fun _ => .empty) es' (w.service q) :=
  h.simulate (fun w => w.service q) (I := fun _ => True) (fun _ _ _ _ _ => trivial)
    (fun _ _ _ _ hstep => service_step hstep q) trivial

end Service

end World

end Gdrl
