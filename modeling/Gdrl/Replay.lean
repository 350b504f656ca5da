import Gdrl.Join

/-!
# The buffer

A slot whose call of `apply_remote_slot` raises goes into the buffer. `replay` drains it
and applies every entry. As long as nothing falls out of the buffer, what a state
`settles` to, the hashes with the queue merged into them, does not depend on the calls
that raise : an applied slot and a queued one are merged alike, and a slot that is both
is merged once.
-/

namespace Gdrl

namespace Relay

section Replay

variable {py : Python} {self : Region}

/-- The slots that wait in the buffer. -/
def queued (s : State) : List SlotWrite := s.buffer.queues bufferKind

/-- Slots applied one by one with the local Redis up, the `n`-th at `times n`. -/
def applyEach (self : Region) : (ℕ → ℤ) → List SlotWrite → GlobalRedis → GlobalRedis
  | _, [], m => m
  | times, w :: ws, m =>
    applyEach self (fun n => times (n + 1)) ws (applyRemoteSlot self w .ok (times 0) m).2

/-- Every drained entry goes through `apply_remote_slot`. -/
def replay (self : Region) (times : ℕ → ℤ) (s : State) : State :=
  let (ws, b) := s.buffer.drain bufferKind
  { s with redis := applyEach self times ws s.redis, buffer := b }

/-! ## One slot -/

/-- The call for a slot of another region raises. -/
def raises (w : SlotWrite) (out : Outcome) : Bool := !(w.sendable && out = .ok)

theorem applyOne_buffer {w : SlotWrite} (hp : w.peer ≠ self) (out : Outcome) (nowMs : ℤ)
    (s : State) : (applyOne self w out nowMs s).2.buffer =
      if raises w out then (s.buffer.push bufferKind w).2 else s.buffer := by
  have hv : ¬ w.value.toInt < 0 := not_lt.mpr w.value.nonneg
  unfold applyOne applyRemoteSlot raises
  by_cases h1 : w.sendable = true
  · simp only [if_neg hp, if_neg hv, SlotWrite.encodable_of_sendable h1, h1]
    cases out <;> rfl
  · by_cases h2 : w.encodable = true <;> simp [hp, hv, h1, h2]

/-- What the hashes come to once the queue is applied. -/
def settled (s : State) : Str → Region → Option ℤ := (queued s).foldl mergeWrite (slotsOf s.redis)

/-- The slot is in the hash, or waits in the buffer. -/
def Landed (s : State) (w : SlotWrite) : Prop :=
  w ∈ queued s ∨ ∃ v ∈ slotsOf s.redis w.key w.peer, w.value.toInt ≤ v

/-- A merge of exact slots never takes a value back. -/
theorem le_mergeWrite {slots : Str → Region → Option ℤ} {k : Str} {r : Region} {n v : ℤ}
    (hv : v ∈ slots k r) (hn : n ≤ v) (w : SlotWrite) : ∃ v ∈ mergeWrite slots w k r, n ≤ v := by
  unfold mergeWrite
  rw [Option.mem_def.mp hv]
  split_ifs
  · exact ⟨_, rfl, hn.trans (le_max_left _ _)⟩
  · exact ⟨v, rfl, hn⟩

theorem mergeWrite_self {w : SlotWrite} (hw : w.encodable = true)
    (slots : Str → Region → Option ℤ) :
    ∃ v ∈ mergeWrite slots w w.key w.peer, w.value.toInt ≤ v := by
  unfold mergeWrite mergeSlot
  rw [if_pos (addresses_iff.mpr ⟨hw, rfl, rfl⟩)]
  cases slots w.key w.peer with
  | none => exact ⟨_, rfl, le_rfl⟩
  | some v => exact ⟨_, rfl, le_max_right _ _⟩

/-- A slot that is applied and stays out of the queue, or is queued, applied or not. -/
theorem applyOne_spec {w : SlotWrite} (hw : Exact w) (hp : w.peer ≠ self) (out : Outcome)
    (nowMs : ℤ) {s : State} (hroom : raises w out = true → (queued s).length < s.buffer.cap) :
    (raises w out = false ∧ w.encodable = true ∧
      queued (applyOne self w out nowMs s).2 = queued s ∧
      slotsOf (applyOne self w out nowMs s).2.redis = mergeWrite (slotsOf s.redis) w) ∨
    (raises w out = true ∧ queued (applyOne self w out nowMs s).2 = queued s ++ [w] ∧
      (slotsOf (applyOne self w out nowMs s).2.redis = slotsOf s.redis ∨
        slotsOf (applyOne self w out nowMs s).2.redis = mergeWrite (slotsOf s.redis) w)) := by
  have hbuffer := applyOne_buffer hp out nowMs s
  cases hr : raises w out with
  | false =>
    have hok : w.sendable = true ∧ out = .ok := by simpa [raises] using hr
    rw [hr, if_neg Bool.false_ne_true] at hbuffer
    refine Or.inl ⟨rfl, SlotWrite.encodable_of_sendable hok.1, ?_, ?_⟩
    · rw [queued, hbuffer, queued]
    · exact applyOne_slots hw hp (by rw [hok.2]; rfl) nowMs s
  | true =>
    rw [hr, if_pos rfl] at hbuffer
    refine Or.inr ⟨rfl, ?_, ?_⟩
    · rw [queued, hbuffer, FailoverBuffer.push_queues (hroom hr), queued]
    · by_cases happlied : out.applied = true
      · exact Or.inr (applyOne_slots hw hp happlied nowMs s)
      · rw [applyOne_redis, applyRemoteSlot_redis, if_neg fun h => happlied h.2.2]
        exact Or.inl rfl

@[simp] theorem applyOne_cap (w : SlotWrite) (out : Outcome) (nowMs : ℤ) (s : State) :
    (applyOne self w out nowMs s).2.buffer.cap = s.buffer.cap := by
  unfold applyOne
  split <;> rfl

section Room

variable {w : SlotWrite} (hw : Exact w) (hp : w.peer ≠ self) (out : Outcome) (nowMs : ℤ)
  {s : State} (hroom : raises w out = true → (queued s).length < s.buffer.cap)

include hw hp hroom

/-- Applied or queued, it comes to the same. -/
theorem applyOne_settled :
    settled (applyOne self w out nowMs s).2 = mergeWrite (settled s) w := by
  rcases applyOne_spec hw hp out nowMs hroom with ⟨-, -, hq, hs⟩ | ⟨-, hq, hs | hs⟩
  · rw [settled, hq, hs, foldl_comm mergeWrite_comm, settled]
  · rw [settled, hq, hs, List.foldl_append, settled]
    rfl
  · rw [settled, hq, hs, List.foldl_append, foldl_comm mergeWrite_comm, List.foldl_cons,
      List.foldl_nil, mergeWrite_idem, settled]

theorem applyOne_landed {x : SlotWrite} (hx : x = w ∨ Landed s x) :
    Landed (applyOne self w out nowMs s).2 x := by
  have hspec := applyOne_spec hw hp out nowMs hroom
  rcases hx with rfl | hx | ⟨v, hv, hle⟩
  · rcases hspec with ⟨-, he, -, hs⟩ | ⟨-, hq, -⟩
    · exact Or.inr (hs ▸ mergeWrite_self he _)
    · exact Or.inl (hq ▸ List.mem_append_right _ (List.mem_singleton_self _))
  · rcases hspec with ⟨-, -, hq, -⟩ | ⟨-, hq, -⟩
    · exact Or.inl (hq ▸ hx)
    · exact Or.inl (hq ▸ List.mem_append_left _ hx)
  · have hkept : slotsOf (applyOne self w out nowMs s).2.redis = slotsOf s.redis ∨
        slotsOf (applyOne self w out nowMs s).2.redis = mergeWrite (slotsOf s.redis) w := by
      rcases hspec with ⟨-, -, -, hs⟩ | ⟨-, -, hs⟩
      · exact Or.inr hs
      · exact hs
    rcases hkept with hs | hs
    · exact Or.inr ⟨v, hs ▸ hv, hle⟩
    · exact Or.inr (hs ▸ le_mergeWrite hv hle w)

theorem applyOne_queued : queued (applyOne self w out nowMs s).2 =
    queued s ++ if raises w out then [w] else [] := by
  rcases applyOne_spec hw hp out nowMs hroom with ⟨hr, -, hq, -⟩ | ⟨hr, hq, -⟩
  · rw [hq, hr]
    simp
  · rw [hq, hr, if_pos rfl]

end Room

/-! ## One message -/

/-- The slots of a message whose calls raise. -/
def pushedAll : Calls → List SlotWrite → List SlotWrite
  | _, [] => []
  | calls, w :: ws =>
    (if raises w (calls 0).1 then [w] else []) ++ pushedAll (fun n => calls (n + 1)) ws

/-- The slots of a list one by one : the queue grows by those whose calls raise, what the
state settles to grows by all of them, and each of them lands. -/
theorem applyAll_spec {calls : Calls} {ws : List SlotWrite} (hw : ∀ w ∈ ws, Exact w)
    (hp : ∀ w ∈ ws, w.peer ≠ self) {s : State}
    (hroom : (queued s).length + (pushedAll calls ws).length ≤ s.buffer.cap) :
    queued (applyAll self calls ws s) = queued s ++ pushedAll calls ws ∧
    settled (applyAll self calls ws s) = ws.foldl mergeWrite (settled s) ∧
    (∀ x, x ∈ ws ∨ Landed s x → Landed (applyAll self calls ws s) x) := by
  induction ws generalizing calls s with
  | nil => exact ⟨(List.append_nil _).symm, rfl, fun x hx => hx.resolve_left List.not_mem_nil⟩
  | cons w ws ih =>
    have hlen : (queued s).length + ((if raises w (calls 0).1 then [w] else []).length +
        (pushedAll (fun n => calls (n + 1)) ws).length) ≤ s.buffer.cap := by
      rwa [pushedAll, List.length_append] at hroom
    have hfirst : raises w (calls 0).1 = true → (queued s).length < s.buffer.cap := fun hr => by
      rw [hr, if_pos rfl, List.length_singleton] at hlen
      omega
    have hwe := hw w List.mem_cons_self
    have hpe := hp w List.mem_cons_self
    have hqueued := applyOne_queued hwe hpe (calls 0).1 (calls 0).2 hfirst
    have hrest : (queued (applyOne self w (calls 0).1 (calls 0).2 s).2).length +
        (pushedAll (fun n => calls (n + 1)) ws).length ≤
          (applyOne self w (calls 0).1 (calls 0).2 s).2.buffer.cap := by
      rw [hqueued, List.length_append, applyOne_cap]
      omega
    obtain ⟨h1, h2, h3⟩ := ih (fun x hx => hw x (List.mem_cons_of_mem w hx))
      (fun x hx => hp x (List.mem_cons_of_mem w hx)) hrest
    refine ⟨?_, ?_, fun x hx => h3 x ?_⟩
    · rw [applyAll, h1, hqueued, pushedAll, List.append_assoc]
    · rw [applyAll, h2, applyOne_settled hwe hpe _ _ hfirst, List.foldl_cons]
    · have hland := applyOne_landed hwe hpe (calls 0).1 (calls 0).2 hfirst (x := x)
      rcases hx with hx | hx
      · rcases List.mem_cons.mp hx with rfl | hx
        · exact Or.inr (hland (Or.inl rfl))
        · exact Or.inl hx
      · exact Or.inr (hland (Or.inr hx))

@[simp] theorem applyAll_cap (calls : Calls) (ws : List SlotWrite) (s : State) :
    (applyAll self calls ws s).buffer.cap = s.buffer.cap := by
  induction ws generalizing calls s with
  | nil => rfl
  | cons w ws ih => rw [applyAll, ih, applyOne_cap]

/-! ## A run -/

/-- What a message carries if it parses : integer values below `2 ^ 53`, and a timestamp
that a float can hold. -/
def Sized (py : Python) (raw : List Byte) : Prop :=
  ∀ env, parse py raw = .ok env →
    (∀ w ∈ env.writes, Exact w) ∧ (Float64.ofInt env.tsMs).isFinite = true

/-- The same event with the local Redis up. -/
def Event.up : Event → Event
  | .deliver raw calls => .deliver raw fun n => (.ok, (calls n).2)
  | e => e

/-- The slots that an event puts into the buffer. -/
def pushedBy (py : Python) (self : Region) (s : State) : Event → List SlotWrite
  | .deliver raw calls => pushedAll calls ((writesOf py raw).filter (accepts self s.table))
  | _ => []

/-- The slots that a run puts into the buffer. -/
def pushes (py : Python) (self : Region) : State → List Event → List SlotWrite
  | _, [] => []
  | s, e :: es =>
    pushedBy py self s e ++
      match step py self s e with
      | (some _, _) => []
      | (none, s') => pushes py self s' es

theorem pushes_deliver_none {raw : List Byte} {calls : Calls} {s : State}
    (h : (handle py self raw calls s).1 = none) (es : List Event) :
    pushes py self s (.deliver raw calls :: es) =
      pushedBy py self s (.deliver raw calls) ++
        pushes py self (handle py self raw calls s).2 es := by
  rw [pushes, step, ← Prod.eta (handle py self raw calls s), h]

theorem pushes_deliver_some {raw : List Byte} {calls : Calls} {s : State} {err : PyError}
    (h : (handle py self raw calls s).1 = some err) (es : List Event) :
    pushes py self s (.deliver raw calls :: es) = pushedBy py self s (.deliver raw calls) := by
  rw [pushes, step, ← Prod.eta (handle py self raw calls s), h]
  exact List.append_nil _

theorem exact_of_sized {raw : List Byte} (h : Sized py raw) : ∀ w ∈ writesOf py raw, Exact w := by
  unfold writesOf
  match hp : parse py raw with
  | .ok env => exact (h env hp).1
  | .error e => exact fun w hw => absurd hw List.not_mem_nil

/-- Whether a sized message ends the relay does not depend on its calls. -/
theorem handle_none_iff {raw : List Byte} (h : Sized py raw) (calls : Calls) (s : State) :
    (handle py self raw calls s).1 = none ↔ ∀ e, parse py raw ≠ .error (.py e) := by
  rw [handle_quiet]
  match hp : parse py raw with
  | .ok env => simp [Quiet, (h env hp).2]
  | .error (.envelope e) => simp
  | .error (.py e) => simp

/-- The slots that the relay accepts of a sized message. -/
theorem exact_of_accepts {raw : List Byte} (h : Sized py raw) {table : PartitionTable} :
    ∀ w ∈ (writesOf py raw).filter (accepts self table), Exact w ∧ w.peer ≠ self :=
  fun w hw => ⟨exact_of_sized h w (List.mem_filter.mp hw).1,
    (accepts_iff.mp (List.mem_filter.mp hw).2).2⟩

theorem mem_pushedAll {calls : Calls} {ws : List SlotWrite} {w : SlotWrite}
    (h : w ∈ pushedAll calls ws) : w ∈ ws := by
  induction ws generalizing calls with
  | nil => exact absurd h List.not_mem_nil
  | cons x ws ih =>
    rcases List.mem_append.mp h with h | h
    · split_ifs at h
      · exact List.mem_singleton.mp h ▸ List.mem_cons_self
      · exact absurd h List.not_mem_nil
    · exact List.mem_cons_of_mem x (ih h)

/-- Every entry of the buffer is an exact slot of another region. -/
def Queueable (self : Region) (s : State) : Prop :=
  ∀ w ∈ queued s, Exact w ∧ w.peer ≠ self

/-- One message, in a relay with calls that raise and in one with the local Redis up. -/
theorem handle_spec {s t : State} {raw : List Byte} (hsized : Sized py raw) (calls : Calls)
    (htable : t.table = s.table) (hslots : slotsOf t.redis = settled s)
    (hqueue : Queueable self s)
    (hroom : (queued s).length + (pushedBy py self s (.deliver raw calls)).length ≤
      s.buffer.cap) :
    queued (handle py self raw calls s).2 =
      queued s ++ pushedBy py self s (.deliver raw calls) ∧
    Queueable self (handle py self raw calls s).2 ∧
    slotsOf (handle py self raw (fun n => (.ok, (calls n).2)) t).2.redis =
      settled (handle py self raw calls s).2 ∧
    ∀ x, x ∈ (writesOf py raw).filter (accepts self s.table) ∨ Landed s x →
      Landed (handle py self raw calls s).2 x := by
  have hacc : ∀ w ∈ (writesOf py raw).filter (accepts self s.table), Exact w ∧ w.peer ≠ self :=
    exact_of_accepts hsized
  obtain ⟨hq, hs, hl⟩ := applyAll_spec (fun w hw => (hacc w hw).1) (fun w hw => (hacc w hw).2) hroom
  have hnew : queued (handle py self raw calls s).2 =
      queued s ++ pushedBy py self s (.deliver raw calls) := by
    rw [handle_state, hq]
    rfl
  refine ⟨hnew, fun w hw => ?_, ?_, fun x hx => ?_⟩
  · rw [hnew] at hw
    rcases List.mem_append.mp hw with hw | hw
    · exact hqueue w hw
    · exact hacc w (mem_pushedAll hw)
  · rw [handle_state, handle_state, hs, htable, applyAll_slots (fun w hw => (hacc w hw).1)
      (fun w hw => (hacc w hw).2) fun _ => rfl, hslots]
  · rw [handle_state]
    exact hl x hx

/-- A run in which calls raise, beside the same run with the local Redis up : it settles to
the hashes of the other run, nothing that has landed is lost, and every slot that it
accepts lands. -/
theorem run_spec {s t : State} {es : List Event} (htable : t.table = s.table)
    (hslots : slotsOf t.redis = settled s) (hqueue : Queueable self s)
    (hes : ∀ raw calls, .deliver raw calls ∈ es → Sized py raw)
    (hroom : (queued s).length + (pushes py self s es).length ≤ s.buffer.cap) :
    Queueable self (run py self s es).2 ∧
    slotsOf (run py self t (es.map Event.up)).2.redis = settled (run py self s es).2 ∧
    (∀ x, Landed s x → Landed (run py self s es).2 x) ∧
    ((run py self s es).1 = none →
      ∀ x ∈ accepted py self s.table es, Landed (run py self s es).2 x) := by
  induction es generalizing s t with
  | nil => exact ⟨hqueue, hslots, fun _ => id, fun _ x hx => absurd hx List.not_mem_nil⟩
  | cons e es ih =>
    have hes' : ∀ raw calls, .deliver raw calls ∈ es → Sized py raw :=
      fun raw calls he => hes raw calls (List.mem_cons_of_mem e he)
    cases e with
    | deliver raw calls =>
      have hsized := hes raw calls List.mem_cons_self
      have hnone : ∀ calls s, (handle py self raw calls s).1 = none ↔
          ∀ e, parse py raw ≠ .error (.py e) := handle_none_iff hsized
      cases herr : (handle py self raw calls s).1 with
      | none =>
        have hup : (handle py self raw (fun n => (.ok, (calls n).2)) t).1 = none :=
          (hnone _ t).mpr ((hnone calls s).mp herr)
        rw [pushes_deliver_none herr, List.length_append] at hroom
        obtain ⟨h1, h2, h3, h4⟩ := handle_spec hsized calls htable hslots hqueue (by omega)
        have hsame : (handle py self raw calls s).2.buffer.cap = s.buffer.cap := by
          rw [handle_state, applyAll_cap]
        obtain ⟨h5, h6, h7, h8⟩ := ih (s := (handle py self raw calls s).2)
          (t := (handle py self raw (fun n => (.ok, (calls n).2)) t).2)
          (by rw [handle_table, handle_table, htable]) h3 h2 hes'
          (by rw [h1, List.length_append, hsame]; omega)
        rw [run_deliver_none herr, List.map_cons, Event.up, run_deliver_none hup]
        refine ⟨h5, h6, fun x hx => h7 x (h4 x (Or.inr hx)), fun hr x hx => ?_⟩
        rcases List.mem_append.mp hx with hx | hx
        · exact h7 x (h4 x (Or.inl hx))
        · exact h8 hr x (by rwa [handle_table])
      | some err =>
        have hup : (handle py self raw (fun n => (.ok, (calls n).2)) t).1 ≠ none := fun h =>
          absurd ((hnone calls s).mpr ((hnone _ t).mp h)) (by rw [herr]; exact nofun)
        obtain ⟨err', hup⟩ := Option.ne_none_iff_exists'.mp hup
        rw [pushes_deliver_some herr] at hroom
        obtain ⟨h1, h2, h3, h4⟩ := handle_spec hsized calls htable hslots hqueue hroom
        rw [run_deliver_some herr, List.map_cons, Event.up, run_deliver_some hup]
        exact ⟨h2, h3, fun x hx => h4 x (Or.inr hx), nofun⟩
    | add f g =>
      exact ih (s := { s with table := s.table.add f g }) (t := { t with table := t.table.add f g })
        (by rw [htable]) hslots hqueue hes' hroom
    | remove f g =>
      exact ih (s := { s with table := s.table.remove f g })
        (t := { t with table := t.table.remove f g }) (by rw [htable]) hslots hqueue hes' hroom
    | clear =>
      exact ih (s := { s with table := .empty }) (t := { t with table := .empty }) rfl hslots
        hqueue hes' hroom

theorem applyEach_slots {ws : List SlotWrite} (h : ∀ w ∈ ws, Exact w ∧ w.peer ≠ self)
    (times : ℕ → ℤ) (m : GlobalRedis) :
    slotsOf (applyEach self times ws m) = ws.foldl mergeWrite (slotsOf m) := by
  induction ws generalizing times m with
  | nil => rfl
  | cons w ws ih =>
    have hw := h w List.mem_cons_self
    have hone : slotsOf (applyRemoteSlot self w .ok (times 0) m).2 = mergeWrite (slotsOf m) w := by
      have hs := applyOne_slots hw.1 hw.2 (show Outcome.applied .ok = true from rfl) (times 0)
        ⟨m, .empty, .new⟩
      rwa [applyOne_redis] at hs
    rw [applyEach, ih (fun x hx => h x (List.mem_cons_of_mem w hx)), hone, List.foldl_cons]

/-- **Buffer and replay.** In a run over sized messages, with any calls raising, with or
without effect, that starts with an empty buffer and pushes no more than the buffer
holds, draining the buffer and applying its entries leaves the hashes that the same run
leaves with the local Redis up. Every slot of another region's message that is not
blocked is merged or pushed. -/
theorem replay_run (py : Python) (self : Region) {s : State} {es : List Event}
    (hempty : s.buffer.size bufferKind = 0)
    (hes : ∀ raw calls, .deliver raw calls ∈ es → Sized py raw)
    (hcap : (pushes py self s es).length ≤ s.buffer.cap) :
    (∀ times k r, ((replay self times (run py self s es).2).redis k).slots r =
      ((run py self s (es.map Event.up)).2.redis k).slots r) ∧
    ((run py self s es).1 = none → ∀ w ∈ accepted py self s.table es,
      w ∈ (run py self s es).2.buffer.queues bufferKind ∨
        w.value.toInt ≤ ((run py self s es).2.redis w.key).slot w.peer) := by
  have hnil : queued s = [] := List.length_eq_zero_iff.mp hempty
  have hqueue : Queueable self s := fun w hw => absurd (hnil ▸ hw) List.not_mem_nil
  obtain ⟨h1, h2, -, h4⟩ := run_spec (t := s) rfl (by rw [settled, hnil]; rfl) hqueue hes
    (by rw [hnil, List.length_nil, Nat.zero_add]; exact hcap)
  refine ⟨fun times k r => ?_, fun hr w hw => (h4 hr w hw).imp id ?_⟩
  · have hreplay : slotsOf (replay self times (run py self s es).2).redis =
        settled (run py self s es).2 := applyEach_slots h1 times _
    exact congrFun (congrFun (hreplay.trans h2.symm) k) r
  · rintro ⟨v, hv, hle⟩
    rw [Hash.slot, show ((run py self s es).2.redis w.key).slots w.peer = some v from hv]
    exact hle

theorem sized_of_documented {raw : List Byte} (h : documented py raw = true) : Sized py raw := by
  intro env henv
  have hexact := exact_of_documented h
  unfold writesOf at hexact
  unfold documented at h
  rw [henv] at h hexact
  exact ⟨hexact, (Bool.and_eq_true_iff.mp h).2⟩

/-- Two slots of `eu`. -/
def plainReconcile : List Byte := utf8Encode (
  str "\x7b\"kind\":\"reconcile\",\"v\":1,\"origin\":\"eu\",\"window_id\":7,\"ts_ms\":9," ++
  str "\"slots\":\x7b\"free:u_1\":3,\"free:u_2\":4\x7d\x7d")

/-- The local Redis fails at the second slot of a message, and loses its reply to the
first of the next one. -/
def partlyDown : List Event :=
  [.deliver plainReconcile fun n => (if n = 1 then .failed else .ok, 0),
    .deliver plainRegion fun _ => (.lost, 0)]

theorem replay_run_sample :
    ((run samplePython .us .fresh partlyDown).2.redis
      (globalKey (str "free") (str "u_2") 7)).slots .eu = none ∧
    ((run samplePython .us .fresh (partlyDown.map Event.up)).2.redis
      (globalKey (str "free") (str "u_2") 7)).slots .eu = some 4 ∧
    ∀ k r, ((replay .us (fun _ => 1000)
        (run samplePython .us .fresh partlyDown).2).redis k).slots r =
      ((run samplePython .us .fresh (partlyDown.map Event.up)).2.redis k).slots r := by
  have hreconcile : documented samplePython plainReconcile = true := by decide +kernel
  have hregion : documented samplePython plainRegion = true := by decide +kernel
  refine ⟨by decide +kernel, by decide +kernel, fun k r => ?_⟩
  refine (replay_run samplePython .us rfl (fun raw calls hmem => ?_) (by decide +kernel)).1 _ k r
  rcases List.mem_cons.mp hmem with heq | hmem
  · exact (Event.deliver.inj heq).1 ▸ sized_of_documented hreconcile
  · exact (Event.deliver.inj (List.mem_singleton.mp hmem)).1 ▸ sized_of_documented hregion

end Replay

end Relay

end Gdrl
