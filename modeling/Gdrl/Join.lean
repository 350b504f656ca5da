import Gdrl.Relay

/-!
# The relay as a join

A message of the documented types merges the slots it carries into the local hashes, one
by one by the maximum. The merges of any two slots commute and each is idempotent, so that
the hashes a run leaves depend on the set of accepted slots alone (`run_join`).
-/

namespace Gdrl

namespace Relay

section Join

variable (py : Python) (self : Region)

/-- All slots of all keys. -/
def slotsOf (m : GlobalRedis) (k : Str) (r : Region) : Option ℤ := (m k).slots r

/-- Whether a write is for slot `r` of key `k`. A key with surrogates is no key of Redis. -/
def addresses (w : SlotWrite) (k : Str) (r : Region) : Bool :=
  w.encodable && w.key = k && w.peer = r

theorem addresses_iff {w : SlotWrite} {k : Str} {r : Region} :
    addresses w k r = true ↔ w.encodable = true ∧ w.key = k ∧ w.peer = r := by
  simp [addresses, and_assoc]

/-- The maximum of one slot and a write for it. -/
def mergeWrite (slots : Str → Region → Option ℤ) (w : SlotWrite) (k : Str) (r : Region) :
    Option ℤ :=
  if addresses w k r then mergeSlot (slots k r) w.value.toInt else slots k r

/-- The slots that a message carries. -/
def writesOf (raw : List Byte) : List SlotWrite :=
  match parse py raw with
  | .ok env => env.writes
  | .error _ => []

/-- Those that the relay applies : of a region not its own and not blocked. -/
def accepts (table : PartitionTable) (w : SlotWrite) : Bool :=
  !table.blocks w.peer.name self.name && w.peer ≠ self

/-- The slots applied in a run, each message under the partition table of its moment. -/
def accepted : PartitionTable → List Event → List SlotWrite
  | _, [] => []
  | table, .deliver raw _ :: es =>
    (writesOf py raw).filter (accepts self table) ++ accepted table es
  | table, .add f g :: es => accepted (table.add f g) es
  | table, .remove f g :: es => accepted (table.remove f g) es
  | _, .clear :: es => accepted .empty es

/-- A message of the documented types : values are integers below `2 ^ 53`, and the
timestamp is one that a float can hold. -/
def documented (raw : List Byte) : Bool :=
  match parse py raw with
  | .ok env =>
    (env.writes.all fun w => match w.value.val with
      | .int n => n < 2 ^ 53
      | .bool _ => false) && (Float64.ofInt env.tsMs).isFinite
  | .error _ => false

/-- An event of a run with the local Redis up. -/
def Documented : Event → Prop
  | .deliver raw calls => documented py raw = true ∧ ∀ n, (calls n).1 = .ok
  | _ => True

variable {py self}

theorem mergeSlot_comm (o : Option ℤ) (v w : ℤ) :
    mergeSlot (mergeSlot o v) w = mergeSlot (mergeSlot o w) v := by
  cases o with
  | none => exact congrArg some (max_comm v w)
  | some c => exact congrArg some (max_right_comm c v w)

theorem mergeSlot_idem (o : Option ℤ) (v : ℤ) : mergeSlot (mergeSlot o v) v = mergeSlot o v := by
  cases o with
  | none => exact congrArg some (max_self v)
  | some c => exact congrArg some (by rw [max_assoc, max_self])

theorem mergeWrite_comm (slots : Str → Region → Option ℤ) (v w : SlotWrite) :
    mergeWrite (mergeWrite slots v) w = mergeWrite (mergeWrite slots w) v := by
  funext k r
  unfold mergeWrite
  split_ifs
  · exact mergeSlot_comm _ _ _
  all_goals rfl

theorem mergeWrite_idem (slots : Str → Region → Option ℤ) (w : SlotWrite) :
    mergeWrite (mergeWrite slots w) w = mergeWrite slots w := by
  funext k r
  unfold mergeWrite
  split_ifs
  · exact mergeSlot_idem _ _
  · rfl

/-- An integer slot value in the range where Lua compares exactly. -/
def Exact (w : SlotWrite) : Prop := (∃ n, w.value.val = .int n) ∧ w.value.toInt < 2 ^ 53

theorem applyOne_slots {w : SlotWrite} (hw : Exact w) (hp : w.peer ≠ self) {out : Outcome}
    (hout : out.applied = true) (nowMs : ℤ) (s : State) :
    slotsOf (applyOne self w out nowMs s).2.redis = mergeWrite (slotsOf s.redis) w := by
  obtain ⟨⟨n, hn⟩, hlt⟩ := hw
  have hsend : w.sendable = w.encodable := by
    unfold SlotWrite.sendable
    rw [hn]
  funext k r
  rw [slotsOf, applyOne_redis, applyRemoteSlot_redis, hsend, mergeWrite]
  by_cases he : w.encodable = true
  · rw [if_pos ⟨hp, he, hout⟩]
    by_cases hk : k = w.key
    · subst hk
      rw [GlobalRedis.set_self, maxMerge_slots nowMs _ _ w.value.nonneg hlt]
      by_cases hr : r = w.peer
      · subst hr
        rw [if_pos rfl, if_pos (addresses_iff.mpr ⟨he, rfl, rfl⟩), slotsOf]
      · rw [if_neg hr, if_neg fun h => hr (addresses_iff.mp h).2.2.symm, slotsOf]
    · rw [GlobalRedis.set_of_ne _ _ hk, if_neg fun h => hk (addresses_iff.mp h).2.1.symm, slotsOf]
  · rw [if_neg fun h => he h.2.1, if_neg fun h => he (addresses_iff.mp h).1, slotsOf]

theorem applyAll_slots {calls : Calls} {ws : List SlotWrite} (hw : ∀ w ∈ ws, Exact w)
    (hp : ∀ w ∈ ws, w.peer ≠ self) (hcalls : ∀ n, (calls n).1.applied = true) (s : State) :
    slotsOf (applyAll self calls ws s).redis = ws.foldl mergeWrite (slotsOf s.redis) := by
  induction ws generalizing calls s with
  | nil => rfl
  | cons w ws ih =>
    rw [applyAll, ih (fun x hx => hw x (List.mem_cons_of_mem w hx))
      (fun x hx => hp x (List.mem_cons_of_mem w hx)) (fun n => hcalls (n + 1)),
      applyOne_slots (hw w List.mem_cons_self) (hp w List.mem_cons_self) (hcalls 0),
      List.foldl_cons]

theorem exact_of_documented {raw : List Byte} (h : documented py raw = true) :
    ∀ w ∈ writesOf py raw, Exact w := by
  unfold documented at h
  unfold writesOf
  match hp : parse py raw with
  | .error e => simp
  | .ok env =>
    rw [hp] at h
    intro w hw
    have hall := List.all_eq_true.mp (Bool.and_eq_true_iff.mp h).1 w hw
    unfold Exact SlotValue.toInt
    cases hv : w.value.val with
    | int n => exact ⟨⟨n, rfl⟩, by simpa [hv, PyInt.toInt] using hall⟩
    | bool b => simp [hv] at hall

theorem accepts_iff {table : PartitionTable} {w : SlotWrite} :
    accepts self table w = true ↔ table.blocks w.peer.name self.name = false ∧ w.peer ≠ self := by
  simp [accepts]

/-- Whatever a message is, handling it is applying the slots of it that the relay accepts. -/
theorem handle_state (raw : List Byte) (calls : Calls) (s : State) :
    (handle py self raw calls s).2 =
      applyAll self calls ((writesOf py raw).filter (accepts self s.table)) s := by
  unfold writesOf handle receive
  match parse py raw with
  | .error (.envelope e) => rfl
  | .error (.py e) => rfl
  | .ok env =>
    dsimp only
    have hnone : (env.asserted = self ∨ s.table.blocks env.asserted.name self.name = true) →
        env.writes.filter (accepts self s.table) = [] := by
      intro h
      refine List.filter_eq_nil_iff.mpr fun w hw hacc => ?_
      rw [accepts_iff, Envelope.peer_of_mem_writes hw] at hacc
      rcases h with h | h
      · exact hacc.2 h
      · rw [hacc.1] at h
        exact absurd h Bool.false_ne_true
    by_cases h1 : s.table.blocks env.asserted.name self.name = true
    · rw [if_pos h1, hnone (Or.inr h1)]
      rfl
    · by_cases h2 : env.asserted = self
      · rw [if_neg h1, if_pos h2, hnone (Or.inl h2)]
        rfl
      · have hall : env.writes.filter (accepts self s.table) = env.writes :=
          List.filter_eq_self.mpr fun w hw => by
            rw [accepts_iff, Envelope.peer_of_mem_writes hw]
            exact ⟨Bool.not_eq_true _ ▸ h1, h2⟩
        rw [if_neg h1, if_neg h2, hall]
        cases env <;> rfl

/-- A documented message is handled without an exception, and merges what it carries
unless its region is blocked or the relay's own. -/
theorem handle_documented {raw : List Byte} (h : documented py raw = true) {calls : Calls}
    (hcalls : ∀ n, (calls n).1 = .ok) (s : State) :
    (handle py self raw calls s).1 = none ∧
      slotsOf (handle py self raw calls s).2.redis =
        ((writesOf py raw).filter (accepts self s.table)).foldl mergeWrite (slotsOf s.redis) := by
  refine ⟨?_, ?_⟩
  · rw [handle_quiet]
    unfold documented at h
    match hp : parse py raw with
    | .error e => simp [hp] at h
    | .ok env =>
      rw [hp] at h
      exact Or.inr (Or.inr (Or.inr (Bool.and_eq_true_iff.mp h).2))
  · rw [handle_state, applyAll_slots (fun w hw => exact_of_documented h w (List.mem_filter.mp hw).1)
      (fun w hw => (accepts_iff.mp (List.mem_filter.mp hw).2).2) fun n => by rw [hcalls n]; rfl]

/-- A run over documented messages merges the accepted slots, one by one. -/
theorem run_slots {s : State} {es : List Event} (hdoc : ∀ e ∈ es, Documented py e) :
    (run py self s es).1 = none ∧
      slotsOf (run py self s es).2.redis =
        (accepted py self s.table es).foldl mergeWrite (slotsOf s.redis) := by
  induction es generalizing s with
  | nil => exact ⟨rfl, rfl⟩
  | cons e es ih =>
    have htail := fun s' => @ih s' fun x hx => hdoc x (List.mem_cons_of_mem e hx)
    cases e with
    | deliver raw calls =>
      obtain ⟨hraw, hcalls⟩ := hdoc _ List.mem_cons_self
      obtain ⟨h1, h2⟩ := @handle_documented py self raw hraw calls hcalls s
      have h3 := htail (handle py self raw calls s).2
      rw [handle_table, h2, ← List.foldl_append] at h3
      rw [run_deliver_none h1]
      exact h3
    | add f g => exact htail _
    | remove f g => exact htail _
    | clear => exact htail _

/-- The values that some writes carry for one slot. -/
def valuesFor (ws : List SlotWrite) (k : Str) (r : Region) : List ℤ :=
  (ws.filter fun w => addresses w k r).map fun w => w.value.toInt

theorem foldl_mergeWrite (ws : List SlotWrite) (slots : Str → Region → Option ℤ) (k : Str)
    (r : Region) :
    ws.foldl mergeWrite slots k r = (valuesFor ws k r).foldl mergeSlot (slots k r) := by
  induction ws generalizing slots with
  | nil => rfl
  | cons w ws ih =>
    rw [List.foldl_cons, ih, mergeWrite]
    by_cases h : addresses w k r = true
    · rw [if_pos h, valuesFor, valuesFor, List.filter_cons, if_pos h, List.map_cons,
        List.foldl_cons]
    · rw [if_neg h, valuesFor, valuesFor, List.filter_cons, if_neg h]

/-- With an absent slot read as 0, merging non-negative values is taking the maximum. -/
theorem getD_foldl_mergeSlot {vs : List ℤ} (hvs : ∀ v ∈ vs, 0 ≤ v) (o : Option ℤ) :
    (vs.foldl mergeSlot o).getD 0 = vs.foldl max (o.getD 0) := by
  induction vs generalizing o with
  | nil => rfl
  | cons v vs ih =>
    rw [List.foldl_cons, ih fun x hx => hvs x (List.mem_cons_of_mem v hx),
      getD_mergeSlot o (hvs v List.mem_cons_self), List.foldl_cons]

theorem nonneg_of_mem_valuesFor {ws : List SlotWrite} {k : Str} {r : Region} :
    ∀ v ∈ valuesFor ws k r, 0 ≤ v := by
  intro v hv
  obtain ⟨w, -, rfl⟩ := List.mem_map.mp hv
  exact w.value.nonneg

/-- No accepted write is for the relay's own region. -/
theorem peer_ne_of_mem_accepted {table : PartitionTable} {es : List Event} :
    ∀ w ∈ accepted py self table es, w.peer ≠ self := by
  induction es generalizing table with
  | nil => simp [accepted]
  | cons e es ih =>
    cases e with
    | deliver raw calls =>
      intro w hw
      rcases List.mem_append.mp hw with hw | hw
      · exact (accepts_iff.mp (List.mem_filter.mp hw).2).2
      · exact ih w hw
    | add f g => exact ih
    | remove f g => exact ih
    | clear => exact ih

/-- All slots that the messages of a run carry. -/
def carried (py : Python) (es : List Event) : List SlotWrite :=
  es.flatMap fun
    | .deliver raw _ => writesOf py raw
    | _ => []

theorem carried_deliver (raw : List Byte) (calls : Calls) (es : List Event) :
    carried py (.deliver raw calls :: es) = writesOf py raw ++ carried py es := rfl

/-- A run that leaves the partition table alone. -/
def Uncut (es : List Event) : Prop := ∀ e ∈ es, ∃ raw calls, e = .deliver raw calls

theorem accepted_of_uncut {es : List Event} (h : Uncut es) (table : PartitionTable) :
    accepted py self table es = (carried py es).filter (accepts self table) := by
  induction es with
  | nil => rfl
  | cons e es ih =>
    obtain ⟨raw, calls, rfl⟩ := h e List.mem_cons_self
    rw [accepted, ih fun x hx => h x (List.mem_cons_of_mem _ hx), carried_deliver,
      List.filter_append]

/-- **The relay is a join.** In a run over documented messages and any edits of the
partition table every message is handled, every slot ends as the maximum of what it was
and of what the accepted messages carry for it, a slot that none of them carries, such as
one of the relay's own region, is untouched, and under a fixed table two runs whose
messages carry the same slots, in whatever order, number and grouping, leave the same
hashes. -/
theorem run_join (py : Python) (self : Region) (s : State) {es : List Event}
    (hdoc : ∀ e ∈ es, Documented py e) :
    (run py self s es).1 = none ∧
    (∀ k r, ((run py self s es).2.redis k).slot r =
      (valuesFor (accepted py self s.table es) k r).foldl max ((s.redis k).slot r)) ∧
    (∀ k r, r = self ∨ valuesFor (accepted py self s.table es) k r = [] →
      ((run py self s es).2.redis k).slots r = (s.redis k).slots r) ∧
    ∀ es', (∀ e ∈ es', Documented py e) → Uncut es → Uncut es' →
      (∀ w, w ∈ carried py es ↔ w ∈ carried py es') →
      ∀ k r, ((run py self s es').2.redis k).slots r = ((run py self s es).2.redis k).slots r := by
  obtain ⟨hnone, hslots⟩ := @run_slots py self s es hdoc
  have hslot : ∀ k r, ((run py self s es).2.redis k).slots r =
      (valuesFor (accepted py self s.table es) k r).foldl mergeSlot ((s.redis k).slots r) :=
    fun k r => (congrFun (congrFun hslots k) r).trans (foldl_mergeWrite _ _ k r)
  refine ⟨hnone, fun k r => ?_, fun k r h => ?_, ?_⟩
  · rw [Hash.slot, hslot, getD_foldl_mergeSlot nonneg_of_mem_valuesFor, Hash.slot]
  · have hnil : valuesFor (accepted py self s.table es) k r = [] := by
      rcases h with rfl | h
      · refine List.map_eq_nil_iff.mpr (List.filter_eq_nil_iff.mpr fun w hw haddr => ?_)
        exact peer_ne_of_mem_accepted w hw (addresses_iff.mp haddr).2.2
      · exact h
    rw [hslot, hnil, List.foldl_nil]
  · intro es' hdoc' huncut huncut' hsame k r
    have hslots' := (@run_slots py self s es' hdoc').2
    have hmem : ∀ w, w ∈ accepted py self s.table es' ↔ w ∈ accepted py self s.table es := by
      intro w
      rw [accepted_of_uncut huncut, accepted_of_uncut huncut', List.mem_filter, List.mem_filter,
        hsame]
    rw [foldl_eq_of_mem_iff mergeWrite_comm mergeWrite_idem hmem, ← hslots] at hslots'
    exact congrFun (congrFun hslots' k) r

/-- One message, then an edit that cuts `eu` off, then the message again. -/
theorem run_join_plainRegion :
    let calls : Calls := fun _ => (.ok, 0)
    let es := [Event.deliver plainRegion calls, .add Region.eu.name Region.us.name,
      .deliver plainRegion calls]
    (run samplePython .us .fresh es).1 = none ∧
    ((run samplePython .us .fresh es).2.redis (globalKey (str "free") (str "u_1") 7)).slot .eu =
      (valuesFor (accepted samplePython .us .empty es) (globalKey (str "free") (str "u_1") 7)
        .eu).foldl max 0 := by
  intro calls es
  have hraw : documented samplePython plainRegion = true := by decide +kernel
  have hdoc : ∀ e ∈ es, Documented samplePython e := by
    simp only [es, List.forall_mem_cons]
    exact ⟨⟨hraw, fun _ => rfl⟩, trivial, ⟨hraw, fun _ => rfl⟩, by simp⟩
  have h := run_join samplePython .us .fresh hdoc
  exact ⟨h.1, h.2.1 _ _⟩

end Join

end Relay

end Gdrl
