import Gdrl.PyJson
import Gdrl.Policy

/-!
# Envelopes

The messages on `rl:sync:counter`. `parse` is `envelope.parse` : it returns an envelope,
raises `EnvelopeError`, or lets an exception of `json.loads`, `hash` or `int` through. The
three are kept apart (`ParseError`), since the relay catches the second only.

An envelope carries its well-formedness : a region is one of the three, a slot value is a
non-negative `int`, which in Python may be a `bool`, and slots have distinct keys.
-/

namespace Gdrl

/-- A Python `int`. A `bool` is one. -/
inductive PyInt
  | int (n : ℤ)
  | bool (b : Bool)
  deriving DecidableEq, Repr

namespace PyInt

def toInt : PyInt → ℤ
  | int n => n
  | bool b => if b then 1 else 0

def toJson : PyInt → Json
  | int n => .int n
  | bool b => .bool b

end PyInt

/-- A slot value that `parse` accepts. -/
abbrev SlotValue := { v : PyInt // 0 ≤ v.toInt }

/-- The integer of a slot value. -/
def SlotValue.toInt (v : SlotValue) : ℤ := v.val.toInt

/-- What compares equal to `RECONCILE_VERSION` : `1`, `1.0` and `True`. -/
inductive VersionOne
  | int | float | bool
  deriving DecidableEq, Repr

structure CounterEnvelope where
  tier : Str
  userId : Str
  windowId : ℤ
  region : Region
  value : SlotValue
  tsMs : ℤ

structure ReconcileEnvelope where
  origin : Region
  windowId : ℤ
  tsMs : ℤ
  slots : Dict (Str × Str) SlotValue
  version : VersionOne

inductive Envelope
  | counter (env : CounterEnvelope)
  | reconcile (env : ReconcileEnvelope)

/-- `EnvelopeError`, with what its message names. -/
inductive EnvelopeError
  | invalidJson
  | notObject (v : Json)
  | counterMissing (keys : List Str)
  | counterRegion (v : Json)
  | counterValue (v : Json)
  | reconcileVersion (v : Option Json)
  | reconcileMissing (keys : List Str)
  | reconcileOrigin (v : Json)
  | slotsNotObject
  | slotKey (key : Str)
  | slotValue (v : Json)

/-- What `parse` raises : its own error, or an exception of something it calls. -/
inductive ParseError
  | envelope (e : EnvelopeError)
  | py (e : PyError)

/-! ## Fields -/

/-- An exception of a conversion. -/
def raisePy {α : Type} (x : Except PyError α) : Except ParseError α := x.mapError .py

def raiseEnvelope {α : Type} (e : EnvelopeError) : Except ParseError α := .error (.envelope e)

/-- `[k for k in required if k not in obj]` -/
def missing (required : List Str) (obj : List (Str × Json)) : List Str :=
  required.filter fun k => (obj.lookup k).isNone

/-- `obj[key]`, behind the check that the key is there. -/
def field (obj : List (Str × Json)) (key : Str) : Json := (obj.lookup key).getD .null

/-- `isinstance(value, int) and value >= 0` -/
def asSlotValue : Json → Option SlotValue
  | .int n => if h : 0 ≤ n then some ⟨.int n, h⟩ else none
  | .bool b => some ⟨.bool b, by cases b <;> decide⟩
  | _ => none

/-- `x in VALID_REGIONS` for a value that has a hash. -/
def asRegion : Json → Option Region
  | .str s => Region.ofName s
  | _ => none

/-- The region check of both kinds. Membership in a set hashes the value first. -/
def checkRegion (v : Json) (e : Json → EnvelopeError) : Except ParseError Region :=
  if v.hashable then
    match asRegion v with
    | some r => .ok r
    | none => raiseEnvelope (e v)
  else .error (.py .type)

/-- A float equal to one. -/
def Float64.isOne : Float64 → Bool
  | .finite neg m e => !neg && m * 2 ^ e.toNat == 2 ^ (-e).toNat
  | _ => false

/-- `version == RECONCILE_VERSION` -/
def asVersionOne : Option Json → Option VersionOne
  | some (.int n) => if n = 1 then some .int else none
  | some (.float x) => if x.isOne then some .float else none
  | some (.bool b) => if b then some .bool else none
  | _ => none

/-- `key.split(":", 1)`, where there is a colon. -/
def splitKey : Str → Option (Str × Str)
  | [] => none
  | c :: s => if c = 58 then some ([], s) else (splitKey s).map fun p => (c :: p.1, p.2)

/-! ## Parsing -/

def counterRequired : List Str :=
  [str "tier", str "user_id", str "window_id", str "region", str "value", str "ts_ms"]

/-- `_parse_counter` -/
def parseCounter (py : Python) (obj : List (Str × Json)) : Except ParseError CounterEnvelope := do
  if (missing counterRequired obj) ≠ [] then
    raiseEnvelope (.counterMissing (missing counterRequired obj))
  let region ← checkRegion (field obj (str "region")) .counterRegion
  match asSlotValue (field obj (str "value")) with
  | none => raiseEnvelope (.counterValue (field obj (str "value")))
  | some value =>
    let windowId ← raisePy (pyInt (field obj (str "window_id")))
    let tsMs ← raisePy (pyInt (field obj (str "ts_ms")))
    return {
      tier := pyStr py (field obj (str "tier"))
      userId := pyStr py (field obj (str "user_id"))
      windowId, region, value, tsMs }

/-- The loop over `slots_raw.items()`. -/
def parseSlots (slots : Dict (Str × Str) SlotValue) :
    List (Str × Json) → Except ParseError (Dict (Str × Str) SlotValue)
  | [] => .ok slots
  | (key, v) :: items =>
    match splitKey key with
    | none => raiseEnvelope (.slotKey key)
    | some tierUser =>
      match asSlotValue v with
      | none => raiseEnvelope (.slotValue v)
      | some value => parseSlots (slots.set tierUser value) items

def reconcileRequired : List Str := [str "origin", str "window_id", str "ts_ms", str "slots"]

/-- `_parse_reconcile` -/
def parseReconcile (obj : List (Str × Json)) : Except ParseError ReconcileEnvelope := do
  match asVersionOne (obj.lookup (str "v")) with
  | none => raiseEnvelope (.reconcileVersion (obj.lookup (str "v")))
  | some version =>
    if (missing reconcileRequired obj) ≠ [] then
      raiseEnvelope (.reconcileMissing (missing reconcileRequired obj))
    let origin ← checkRegion (field obj (str "origin")) .reconcileOrigin
    match field obj (str "slots") with
    | .obj items =>
      let slots ← parseSlots Dict.empty items
      let windowId ← raisePy (pyInt (field obj (str "window_id")))
      let tsMs ← raisePy (pyInt (field obj (str "ts_ms")))
      return { origin, windowId, tsMs, slots, version }
    | _ => raiseEnvelope .slotsNotObject

/-- `obj.get("kind") == "reconcile"` -/
def isReconcile (obj : List (Str × Json)) : Bool :=
  match obj.lookup (str "kind") with
  | some (.str s) => s = str "reconcile"
  | _ => false

/-- `envelope.parse` -/
def parse (py : Python) (raw : List Byte) : Except ParseError Envelope :=
  match loads py raw with
  | .error .jsonDecode => raiseEnvelope .invalidJson
  | .error e => .error (.py e)
  | .ok (.obj obj) =>
    if isReconcile obj then (parseReconcile obj).map .reconcile
    else (parseCounter py obj).map .counter
  | .ok v => raiseEnvelope (.notObject v)

/-! ## Serializing -/

def VersionOne.toJson : VersionOne → Json
  | int => .int 1
  | float => .float (.ofInt 1)
  | bool => .bool true

/-- `f"{tier}:{user_id}"` -/
def slotKey (k : Str × Str) : Str := k.1 ++ 58 :: k.2

/-- The items of its `slots`. -/
def slotItems (slots : Dict (Str × Str) SlotValue) : List (Str × Json) :=
  slots.entries.map fun e => (slotKey e.1, e.2.val.toJson)

/-- The dictionary that `serialize_reconcile` dumps. -/
def ReconcileEnvelope.toJson (env : ReconcileEnvelope) : Json :=
  .obj [(str "kind", .str (str "reconcile")),
    (str "v", env.version.toJson),
    (str "origin", .str env.origin.name),
    (str "window_id", .int env.windowId),
    (str "ts_ms", .int env.tsMs),
    (str "slots", .obj (Dict.ofPairs (slotItems env.slots)).entries)]

/-- `separators=(",", ":")` -/
def compactStyle (py : Python) : Style := pyStyle py [] isSpace_of_mem_nil

/-- `serialize_reconcile` -/
def serializeReconcile (py : Python) (env : ReconcileEnvelope) : Except PyError (List Byte) :=
  (dumps (compactStyle py) env.toJson).map utf8Encode

/-! ## The split of a slot key -/

theorem splitKey_slotKey {tier user : Str} (h : 58 ∉ tier) :
    splitKey (slotKey (tier, user)) = some (tier, user) := by
  induction tier with
  | nil => rfl
  | cons c s ih =>
    rw [List.mem_cons, not_or] at h
    show splitKey (c :: slotKey (s, user)) = _
    rw [splitKey, if_neg (Ne.symm h.1), ih h.2, Option.map_some]

theorem splitKey_eq_none {key : Str} (h : splitKey key = none) : 58 ∉ key := by
  induction key with
  | nil => exact List.not_mem_nil
  | cons c s ih =>
    rw [splitKey] at h
    split_ifs at h with hc
    rw [List.mem_cons, not_or]
    exact ⟨Ne.symm hc, ih (by simpa using h)⟩

theorem splitKey_some {key : Str} {p : Str × Str} (h : splitKey key = some p) :
    58 ∉ p.1 ∧ slotKey p = key := by
  induction key generalizing p with
  | nil => exact absurd h (by simp [splitKey])
  | cons c s ih =>
    rw [splitKey] at h
    split_ifs at h with hc
    · obtain rfl := Option.some.inj h
      exact ⟨List.not_mem_nil, by rw [hc]; rfl⟩
    · obtain ⟨q, hq, rfl⟩ := Option.map_eq_some_iff.mp h
      obtain ⟨h1, h2⟩ := ih hq
      refine ⟨fun hmem => ?_, ?_⟩
      · rcases List.mem_cons.mp hmem with hmem | hmem
        · exact hc hmem.symm
        · exact h1 hmem
      · exact congrArg (c :: ·) h2

/-! ## What parsing does -/

/-- Every item of a slots object is accepted. -/
def SlotsAccepted (items : List (Str × Json)) : Prop :=
  ∀ e ∈ items, 58 ∈ e.1 ∧ (asSlotValue e.2).isSome = true

theorem parseCounter_eq (py : Python) (obj : List (Str × Json)) :
    parseCounter py obj =
      if missing counterRequired obj ≠ [] then
        raiseEnvelope (.counterMissing (missing counterRequired obj))
      else if (field obj (str "region")).hashable = false then .error (.py .type)
      else match asRegion (field obj (str "region")), asSlotValue (field obj (str "value")) with
        | none, _ => raiseEnvelope (.counterRegion (field obj (str "region")))
        | some _, none => raiseEnvelope (.counterValue (field obj (str "value")))
        | some region, some value =>
          match pyInt (field obj (str "window_id")), pyInt (field obj (str "ts_ms")) with
          | .error e, _ => .error (.py e)
          | .ok _, .error e => .error (.py e)
          | .ok windowId, .ok tsMs =>
            .ok ⟨pyStr py (field obj (str "tier")), pyStr py (field obj (str "user_id")), windowId,
              region, value, tsMs⟩ := by
  unfold parseCounter checkRegion
  by_cases h1 : missing counterRequired obj ≠ []
  · rw [if_pos h1, if_pos h1]
    rfl
  · rw [if_neg h1, if_neg h1]
    cases h2 : (field obj (str "region")).hashable with
    | false => rfl
    | true =>
      cases asRegion (field obj (str "region")) with
      | none => rfl
      | some region =>
        cases asSlotValue (field obj (str "value")) with
        | none => rfl
        | some value =>
          cases pyInt (field obj (str "window_id")) with
          | error e => rfl
          | ok windowId =>
            cases pyInt (field obj (str "ts_ms")) with
            | error e => rfl
            | ok tsMs => rfl

/-- The loop over the slots accepts them all or raises `EnvelopeError`. -/
theorem parseSlots_cases (slots : Dict (Str × Str) SlotValue) (items : List (Str × Json)) :
    (SlotsAccepted items ∧ ∃ d, parseSlots slots items = .ok d) ∨
      (¬ SlotsAccepted items ∧ ∃ e, parseSlots slots items = .error (.envelope e)) := by
  induction items generalizing slots with
  | nil => exact Or.inl ⟨by simp [SlotsAccepted], slots, rfl⟩
  | cons item items ih =>
    obtain ⟨key, v⟩ := item
    have hkey : 58 ∈ key ↔ (splitKey key).isSome = true := by
      constructor
      · intro h
        by_contra hn
        exact splitKey_eq_none (by simpa using hn) h
      · intro h
        obtain ⟨p, hp⟩ := Option.isSome_iff_exists.mp h
        rw [← (splitKey_some hp).2]
        simp [slotKey]
    rw [parseSlots]
    simp only [SlotsAccepted, List.forall_mem_cons, hkey]
    cases splitKey key with
    | none => exact Or.inr ⟨by simp, _, rfl⟩
    | some p =>
      cases asSlotValue v with
      | none => exact Or.inr ⟨by simp, _, rfl⟩
      | some value => simpa [SlotsAccepted, hkey] using ih (slots.set p value)

theorem parseReconcile_eq (obj : List (Str × Json)) :
    parseReconcile obj =
      match asVersionOne (obj.lookup (str "v")) with
      | none => raiseEnvelope (.reconcileVersion (obj.lookup (str "v")))
      | some version =>
        if missing reconcileRequired obj ≠ [] then
          raiseEnvelope (.reconcileMissing (missing reconcileRequired obj))
        else if (field obj (str "origin")).hashable = false then .error (.py .type)
        else match asRegion (field obj (str "origin")), field obj (str "slots") with
          | none, _ => raiseEnvelope (.reconcileOrigin (field obj (str "origin")))
          | some origin, .obj items =>
            match parseSlots Dict.empty items, pyInt (field obj (str "window_id")),
              pyInt (field obj (str "ts_ms")) with
            | .error e, _, _ => .error e
            | .ok _, .error e, _ => .error (.py e)
            | .ok _, .ok _, .error e => .error (.py e)
            | .ok slots, .ok windowId, .ok tsMs => .ok ⟨origin, windowId, tsMs, slots, version⟩
          | some _, _ => raiseEnvelope .slotsNotObject := by
  unfold parseReconcile checkRegion
  cases asVersionOne (obj.lookup (str "v")) with
  | none => rfl
  | some version =>
    dsimp only
    by_cases h1 : missing reconcileRequired obj ≠ []
    · rw [if_pos h1, if_pos h1]
      rfl
    · rw [if_neg h1, if_neg h1]
      cases h2 : (field obj (str "origin")).hashable with
      | false => rfl
      | true =>
        cases asRegion (field obj (str "origin")) with
        | none => rfl
        | some origin =>
          cases field obj (str "slots") with
          | obj items =>
            dsimp only [Bind.bind, Except.bind]
            cases parseSlots Dict.empty items with
            | error e => rfl
            | ok slots =>
              cases pyInt (field obj (str "window_id")) with
              | error e => rfl
              | ok windowId =>
                cases pyInt (field obj (str "ts_ms")) with
                | error e => rfl
                | ok tsMs => rfl
          | _ => rfl

end Gdrl
