import Gdrl.Relay

/-!
# Which messages the relay survives

`parse` raises `EnvelopeError` for most malformed messages, and `Relay._handle` catches no
other exception. `Survives` says of the bytes of a message whether anything else comes out
of handling it, and `run_survives_iff` that a run over messages goes to its end exactly if
it survives each of them.
-/

namespace Gdrl

namespace Relay

section Survives

variable (py : Python) (self : Region)

/-- A counter object, with the `n`-th command of its handling as `calls` says, lets no
exception through : a field is missing, or the region has a hash and either it or the
value is refused, or both timestamps convert and the relay does not get as far as the
metrics or can take the difference of times there. -/
def CounterSurvives (table : PartitionTable) (obj : List (Str × Json)) (calls : Calls) : Prop :=
  missing counterRequired obj ≠ [] ∨
  ((field obj (str "region")).hashable = true ∧
    ∀ r v, asRegion (field obj (str "region")) = some r →
      asSlotValue (field obj (str "value")) = some v →
      (∃ n, pyInt (field obj (str "window_id")) = .ok n) ∧
      ∃ ts, pyInt (field obj (str "ts_ms")) = .ok ts ∧
        (table.blocks r.name self.name = true ∨ r = self ∨ (∃ b, v.val = .bool b) ∨
          ¬ Scalar (pyStr py (field obj (str "tier"))) ∨
          ¬ Scalar (pyStr py (field obj (str "user_id"))) ∨
          (calls 0).1 ≠ .ok ∨ (Float64.ofInt ts).isFinite = true))

/-- The same for a reconcile object, whose handling always ends at the metrics. -/
def ReconcileSurvives (table : PartitionTable) (obj : List (Str × Json)) : Prop :=
  asVersionOne (obj.lookup (str "v")) = none ∨
  missing reconcileRequired obj ≠ [] ∨
  ((field obj (str "origin")).hashable = true ∧
    ∀ r items, asRegion (field obj (str "origin")) = some r →
      field obj (str "slots") = .obj items → SlotsAccepted items →
      (∃ n, pyInt (field obj (str "window_id")) = .ok n) ∧
      ∃ ts, pyInt (field obj (str "ts_ms")) = .ok ts ∧
        (table.blocks r.name self.name = true ∨ r = self ∨ (Float64.ofInt ts).isFinite = true))

/-- What the relay survives : bytes that `json.loads` refuses with `JSONDecodeError`, a
value that is no object, and an object as above. -/
def Survives (table : PartitionTable) (raw : List Byte) (calls : Calls) : Prop :=
  match loads py raw with
  | .error e => e = .jsonDecode
  | .ok (.obj obj) =>
    if isReconcile obj then ReconcileSurvives self table obj
    else CounterSurvives py self table obj calls
  | .ok _ => True

variable {py self}

theorem sendable_iff (w : SlotWrite) :
    w.sendable = true ↔ ¬ ((∃ b, w.value.val = .bool b) ∨ ¬ Scalar w.tier ∨ ¬ Scalar w.userId) := by
  unfold SlotWrite.sendable SlotWrite.encodable
  cases w.value.val with
  | int n => simp
  | bool b => simp

theorem counterSurvives_iff (table : PartitionTable) (obj : List (Str × Json)) (calls : Calls) :
    (match (parseCounter py obj).map Envelope.counter with
      | .error (.envelope _) => True
      | .error (.py _) => False
      | .ok env => Quiet self table calls env) ↔ CounterSurvives py self table obj calls := by
  rw [parseCounter_eq, CounterSurvives]
  by_cases h1 : missing counterRequired obj ≠ []
  · rw [if_pos h1]
    simp [raiseEnvelope, Except.map, h1]
  · rw [if_neg h1]
    cases h2 : (field obj (str "region")).hashable with
    | false => simp [Except.map, h1]
    | true =>
      cases asRegion (field obj (str "region")) with
      | none => simp [raiseEnvelope, Except.map]
      | some r =>
        cases asSlotValue (field obj (str "value")) with
        | none => simp [raiseEnvelope, Except.map]
        | some v =>
          cases pyInt (field obj (str "window_id")) with
          | error e => simp [Except.map, h1]
          | ok n =>
            cases pyInt (field obj (str "ts_ms")) with
            | error e => simp [Except.map, h1]
            | ok ts =>
              simp [Except.map, h1, Quiet, Envelope.asserted, Envelope.kind, Envelope.writes,
                Envelope.tsMs, sendable_iff]
              tauto

theorem reconcileSurvives_iff (table : PartitionTable) (obj : List (Str × Json)) (calls : Calls) :
    (match (parseReconcile obj).map Envelope.reconcile with
      | .error (.envelope _) => True
      | .error (.py _) => False
      | .ok env => Quiet self table calls env) ↔ ReconcileSurvives self table obj := by
  rw [parseReconcile_eq, ReconcileSurvives]
  cases asVersionOne (obj.lookup (str "v")) with
  | none => simp [raiseEnvelope, Except.map]
  | some version =>
    by_cases h1 : missing reconcileRequired obj ≠ []
    · simp [raiseEnvelope, Except.map, h1]
    · cases h2 : (field obj (str "origin")).hashable with
      | false => simp [Except.map, h1]
      | true =>
        cases asRegion (field obj (str "origin")) with
        | none => simp [raiseEnvelope, Except.map, h1]
        | some r =>
          cases field obj (str "slots") with
          | obj items =>
            rcases parseSlots_cases Dict.empty items with ⟨hs, d, hd⟩ | ⟨hs, e, he⟩
            · cases pyInt (field obj (str "window_id")) with
              | error e => simp [Except.map, h1, hd, hs]
              | ok n =>
                cases pyInt (field obj (str "ts_ms")) with
                | error e => simp [Except.map, h1, hd, hs]
                | ok ts =>
                  simp [Except.map, h1, hd, hs, Quiet, Envelope.asserted, Envelope.kind,
                    Envelope.tsMs]
            · simp [Except.map, h1, he, hs]
          | _ => simp [raiseEnvelope, Except.map, h1]

/-- Handling a message lets no exception through exactly if the relay survives it. -/
theorem handle_survives (raw : List Byte) (calls : Calls) (s : State) :
    (handle py self raw calls s).1 = none ↔ Survives py self s.table raw calls := by
  rw [handle_quiet, Survives, parse]
  cases loads py raw with
  | error e => cases e <;> simp [raiseEnvelope]
  | ok v =>
    cases v with
    | obj obj =>
      dsimp only
      split_ifs with h
      · exact reconcileSurvives_iff s.table obj calls
      · exact counterSurvives_iff s.table obj calls
    | _ => simp [raiseEnvelope]

/-- Messages as events. -/
def deliveries (ds : List (List Byte × Calls)) : List Event := ds.map fun d => .deliver d.1 d.2

/-- Whether `parse` returns an envelope. -/
def parsable (py : Python) (raw : List Byte) : Bool :=
  match parse py raw with
  | .ok _ => true
  | .error _ => false

/-- A message that does not parse changes nothing. -/
theorem handle_of_not_parsable {raw : List Byte} (h : parsable py raw = false) (calls : Calls)
    (s : State) : (handle py self raw calls s).2 = s := by
  unfold parsable at h
  unfold handle receive
  match hp : parse py raw with
  | .ok env => simp [hp] at h
  | .error (.envelope e) => rfl
  | .error (.py e) => rfl

theorem deliveries_cons (raw : List Byte) (calls : Calls) (ds : List (List Byte × Calls)) :
    deliveries ((raw, calls) :: ds) = .deliver raw calls :: deliveries ds := rfl

/-- The run over messages that it survives is the run over those that parse. -/
theorem run_filter_parsable {s : State} {ds : List (List Byte × Calls)}
    (h : ∀ d ∈ ds, Survives py self s.table d.1 d.2) :
    (run py self s (deliveries ds)).1 = none ∧
      (run py self s (deliveries ds)).2 =
        (run py self s (deliveries (ds.filter fun d => parsable py d.1))).2 := by
  induction ds generalizing s with
  | nil => exact ⟨rfl, rfl⟩
  | cons d ds ih =>
    obtain ⟨raw, calls⟩ := d
    have hnone := (handle_survives raw calls s).mpr (h _ List.mem_cons_self)
    have htail := @ih (handle py self raw calls s).2 fun d hd => by
      rw [handle_table]
      exact h d (List.mem_cons_of_mem _ hd)
    rw [deliveries_cons, run_deliver_none hnone]
    refine ⟨htail.1, ?_⟩
    by_cases hp : parsable py raw = true
    · rw [List.filter_cons_of_pos (by exact hp), deliveries_cons, run_deliver_none hnone]
      exact htail.2
    · rw [List.filter_cons_of_neg (by exact hp)]
      rw [Bool.not_eq_true] at hp
      have hs := @handle_of_not_parsable py self raw hp calls s
      rw [hs] at htail
      simp only [hs]
      exact htail.2

/-- **The relay survives.** Over any messages, the run ends with no exception and leaves
the hashes that the messages that parse leave, exactly if every message is one that the
relay survives. -/
theorem run_survives_iff (py : Python) (self : Region) (s : State)
    (ds : List (List Byte × Calls)) :
    ((run py self s (deliveries ds)).1 = none ∧
      (run py self s (deliveries ds)).2.redis =
        (run py self s (deliveries (ds.filter fun d => parsable py d.1))).2.redis) ↔
      ∀ d ∈ ds, Survives py self s.table d.1 d.2 := by
  constructor
  · rintro ⟨hnone, -⟩
    induction ds generalizing s with
    | nil => simp
    | cons d ds ih =>
      obtain ⟨raw, calls⟩ := d
      rw [deliveries_cons] at hnone
      cases he : (handle py self raw calls s).1 with
      | some e => simp [run_deliver_some he] at hnone
      | none =>
        rw [run_deliver_none he] at hnone
        have htail := ih _ hnone
        rw [handle_table] at htail
        exact List.forall_mem_cons.mpr ⟨(handle_survives raw calls s).mp he, htail⟩
  · intro h
    obtain ⟨h1, h2⟩ := run_filter_parsable h
    exact ⟨h1, congrArg State.redis h2⟩

/-- A counter message whose region is a list. -/
def listRegion : List Byte := utf8Encode (
  str "\x7b\"tier\":\"free\",\"user_id\":\"u_1\",\"window_id\":7,\"region\":[\"eu\"]," ++
  str "\"value\":3,\"ts_ms\":9\x7d")

/-- A list for a region ends the run with `TypeError`, and the message behind it is lost. -/
theorem run_dies_of_listRegion :
    let calls : Calls := fun _ => (.ok, 0)
    let ds := [(listRegion, calls), (plainRegion, calls)]
    let r := run samplePython .us .fresh (deliveries ds)
    let r' := run samplePython .us .fresh
      (deliveries (ds.filter fun d => parsable samplePython d.1))
    r.1 = some .type ∧
      (r.2.redis (globalKey (str "free") (str "u_1") 7)).slot .eu = 0 ∧
      (r'.2.redis (globalKey (str "free") (str "u_1") 7)).slot .eu = 3 := by
  decide +kernel

end Survives

end Relay

end Gdrl
