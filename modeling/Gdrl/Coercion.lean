import Gdrl.Envelope

/-!
# What the parser coerces

The documented format of the two kinds of envelopes, and an envelope that holds an object's
fields unchanged. `parse` accepts every object of the format, and returns its fields as
they are. It also accepts objects that are complete and have a field of another type, and
returns what `str` and `int` make of it (`strict_iff`).
-/

namespace Gdrl

namespace Json

def isStr : Json → Bool
  | .str _ => true
  | _ => false

/-- An integer, and no boolean. -/
def isInt : Json → Bool
  | .int _ => true
  | _ => false

end Json

/-! ## The documented format -/

structure CounterFormat (obj : List (Str × Json)) : Prop where
  kind : isReconcile obj = false
  tier : ∃ s, obj.lookup (str "tier") = some (.str s)
  userId : ∃ s, obj.lookup (str "user_id") = some (.str s)
  windowId : ∃ n, obj.lookup (str "window_id") = some (.int n)
  region : ∃ r : Region, obj.lookup (str "region") = some (.str r.name)
  value : ∃ n, 0 ≤ n ∧ obj.lookup (str "value") = some (.int n)
  tsMs : ∃ n, obj.lookup (str "ts_ms") = some (.int n)

structure ReconcileFormat (obj : List (Str × Json)) : Prop where
  kind : isReconcile obj = true
  version : obj.lookup (str "v") = some (.int 1)
  origin : ∃ r : Region, obj.lookup (str "origin") = some (.str r.name)
  windowId : ∃ n, obj.lookup (str "window_id") = some (.int n)
  tsMs : ∃ n, obj.lookup (str "ts_ms") = some (.int n)
  slots : ∃ items, obj.lookup (str "slots") = some (.obj items) ∧
    ∀ e ∈ items, 58 ∈ e.1 ∧ ∃ n, 0 ≤ n ∧ e.2 = .int n

/-- The envelope has the object's fields. -/
structure CounterEnvelope.Unchanged (env : CounterEnvelope) (obj : List (Str × Json)) : Prop where
  tier : obj.lookup (str "tier") = some (.str env.tier)
  userId : obj.lookup (str "user_id") = some (.str env.userId)
  windowId : obj.lookup (str "window_id") = some (.int env.windowId)
  region : obj.lookup (str "region") = some (.str env.region.name)
  value : obj.lookup (str "value") = some env.value.val.toJson
  tsMs : obj.lookup (str "ts_ms") = some (.int env.tsMs)

structure ReconcileEnvelope.Unchanged (env : ReconcileEnvelope) (obj : List (Str × Json)) :
    Prop where
  version : obj.lookup (str "v") = some env.version.toJson
  origin : obj.lookup (str "origin") = some (.str env.origin.name)
  windowId : obj.lookup (str "window_id") = some (.int env.windowId)
  tsMs : obj.lookup (str "ts_ms") = some (.int env.tsMs)
  slots : obj.lookup (str "slots") = some (.obj (slotItems env.slots))

/-- `parse` accepts what is of the format and nothing else, and changes no field. -/
structure Strict (py : Python) (raw : List Byte) : Prop where
  counter : ∀ env, parse py raw = .ok (.counter env) →
    ∃ obj, loads py raw = .ok (.obj obj) ∧ CounterFormat obj ∧ env.Unchanged obj
  reconcile : ∀ env, parse py raw = .ok (.reconcile env) →
    ∃ obj, loads py raw = .ok (.obj obj) ∧ ReconcileFormat obj ∧ env.Unchanged obj
  accepts : ∀ obj, loads py raw = .ok (.obj obj) → CounterFormat obj ∨ ReconcileFormat obj →
    ∃ env, parse py raw = .ok env

/-! ## Complete objects -/

/-- All that `_parse_counter` checks and needs. -/
structure CounterComplete (obj : List (Str × Json)) : Prop where
  present : missing counterRequired obj = []
  region : (asRegion (field obj (str "region"))).isSome = true
  value : (asSlotValue (field obj (str "value"))).isSome = true
  windowId : ∃ n, pyInt (field obj (str "window_id")) = .ok n
  tsMs : ∃ n, pyInt (field obj (str "ts_ms")) = .ok n

/-- A field is of another type than the documented one. -/
def CounterMistyped (obj : List (Str × Json)) : Prop :=
  (field obj (str "tier")).isStr = false ∨ (field obj (str "user_id")).isStr = false ∨
    (field obj (str "window_id")).isInt = false ∨ (field obj (str "value")).isInt = false ∨
    (field obj (str "ts_ms")).isInt = false

/-- All that `_parse_reconcile` checks and needs. -/
structure ReconcileComplete (obj : List (Str × Json)) : Prop where
  version : (asVersionOne (obj.lookup (str "v"))).isSome = true
  present : missing reconcileRequired obj = []
  origin : (asRegion (field obj (str "origin"))).isSome = true
  slots : ∃ items, field obj (str "slots") = .obj items ∧ SlotsAccepted items
  windowId : ∃ n, pyInt (field obj (str "window_id")) = .ok n
  tsMs : ∃ n, pyInt (field obj (str "ts_ms")) = .ok n

def ReconcileMistyped (obj : List (Str × Json)) : Prop :=
  (field obj (str "v")).isInt = false ∨ (field obj (str "window_id")).isInt = false ∨
    (field obj (str "ts_ms")).isInt = false ∨
    ∃ items, field obj (str "slots") = .obj items ∧ ∃ e ∈ items, e.2.isInt = false

/-- A complete object of its kind, with a field of another type. -/
def Coercible (obj : List (Str × Json)) : Prop :=
  if isReconcile obj then ReconcileComplete obj ∧ ReconcileMistyped obj
  else CounterComplete obj ∧ CounterMistyped obj

/-! ## Fields -/

section Fields

variable {obj : List (Str × Json)} {key : Str}

/-- A field that is there. -/
theorem lookup_of_field {v : Json} (h : field obj key = v) (hv : v ≠ .null) :
    obj.lookup key = some v := by
  unfold field at h
  cases hl : obj.lookup key with
  | none =>
    rw [hl] at h
    exact absurd h.symm hv
  | some w =>
    rw [hl] at h
    rw [← h]
    rfl

theorem field_of_lookup {v : Json} (h : obj.lookup key = some v) : field obj key = v := by
  rw [field, h]
  rfl

theorem isStr_iff {v : Json} : v.isStr = true ↔ ∃ s, v = .str s := by
  cases v <;> simp [Json.isStr]

theorem isInt_iff {v : Json} : v.isInt = true ↔ ∃ n, v = .int n := by
  cases v <;> simp [Json.isInt]

/-- A field that is a string. -/
theorem isStr_field_iff : (field obj key).isStr = true ↔ ∃ s, obj.lookup key = some (.str s) := by
  rw [isStr_iff]
  exact ⟨fun ⟨s, h⟩ => ⟨s, lookup_of_field h nofun⟩, fun ⟨s, h⟩ => ⟨s, field_of_lookup h⟩⟩

/-- A field that is an integer. -/
theorem isInt_field_iff : (field obj key).isInt = true ↔ ∃ n, obj.lookup key = some (.int n) := by
  rw [isInt_iff]
  exact ⟨fun ⟨n, h⟩ => ⟨n, lookup_of_field h nofun⟩, fun ⟨n, h⟩ => ⟨n, field_of_lookup h⟩⟩

theorem asRegion_eq_some {v : Json} {r : Region} (h : asRegion v = some r) : v = .str r.name := by
  cases v with
  | str s => rw [Region.name_of_ofName h]
  | null | bool | int | float | arr | obj => exact absurd h nofun

/-- A field that names a region. -/
theorem isSome_asRegion_iff : (asRegion (field obj key)).isSome = true ↔
    ∃ r : Region, obj.lookup key = some (.str r.name) := by
  rw [Option.isSome_iff_exists]
  constructor
  · rintro ⟨r, hr⟩
    exact ⟨r, lookup_of_field (asRegion_eq_some hr) nofun⟩
  · rintro ⟨r, hr⟩
    exact ⟨r, by rw [field_of_lookup hr]; exact Region.ofName_name r⟩

/-- A slot value is the JSON value. -/
theorem toJson_of_asSlotValue {v : Json} {value : SlotValue} (h : asSlotValue v = some value) :
    value.val.toJson = v := by
  cases v with
  | int n =>
    rw [asSlotValue] at h
    split_ifs at h
    obtain rfl := Option.some.inj h
    rfl
  | bool b =>
    obtain rfl := Option.some.inj h
    rfl
  | null | float | str | arr | obj => exact absurd h nofun

theorem isSome_asSlotValue_int {n : ℤ} : (asSlotValue (.int n)).isSome = true ↔ 0 ≤ n := by
  rw [asSlotValue]
  split_ifs with hn <;> simp [hn]

theorem missing_eq_nil {required : List Str} :
    missing required obj = [] ↔ ∀ k ∈ required, ∃ v, obj.lookup k = some v := by
  simp only [missing, List.filter_eq_nil_iff, Option.isNone_iff_eq_none, Option.ne_none_iff_exists']

end Fields

/-! ## Counter envelopes -/

section Counter

variable {py : Python} {obj : List (Str × Json)}

theorem parseCounter_eq_ok_iff {env : CounterEnvelope} : parseCounter py obj = .ok env ↔
    missing counterRequired obj = [] ∧ asRegion (field obj (str "region")) = some env.region ∧
      asSlotValue (field obj (str "value")) = some env.value ∧
      pyInt (field obj (str "window_id")) = .ok env.windowId ∧
      pyInt (field obj (str "ts_ms")) = .ok env.tsMs ∧
      pyStr py (field obj (str "tier")) = env.tier ∧
      pyStr py (field obj (str "user_id")) = env.userId := by
  rw [parseCounter_eq]
  by_cases hmissing : missing counterRequired obj = []
  · rw [if_neg (not_not_intro hmissing)]
    cases hregion : asRegion (field obj (str "region")) with
    | none => split_ifs <;> simp [raiseEnvelope]
    | some r =>
      have hhash : (field obj (str "region")).hashable = true := by
        rw [asRegion_eq_some hregion]
        rfl
      rw [if_neg (by rw [hhash]; simp)]
      cases asSlotValue (field obj (str "value")) with
      | none => simp [raiseEnvelope]
      | some value =>
        cases pyInt (field obj (str "window_id")) with
        | error e => simp
        | ok w =>
          cases pyInt (field obj (str "ts_ms")) with
          | error e => simp
          | ok ts =>
            obtain ⟨tier, userId, windowId, region, value', tsMs⟩ := env
            simp [hmissing]
            tauto
  · rw [if_pos hmissing]
    simp [raiseEnvelope, hmissing]

theorem exists_parseCounter_iff (py : Python) :
    (∃ env, parseCounter py obj = .ok env) ↔ CounterComplete obj := by
  constructor
  · rintro ⟨env, h⟩
    obtain ⟨hmissing, hregion, hvalue, hwindow, hts, -, -⟩ := parseCounter_eq_ok_iff.mp h
    exact ⟨hmissing, by rw [hregion]; rfl, by rw [hvalue]; rfl, ⟨_, hwindow⟩, ⟨_, hts⟩⟩
  · intro h
    obtain ⟨region, hregion⟩ := Option.isSome_iff_exists.mp h.region
    obtain ⟨value, hvalue⟩ := Option.isSome_iff_exists.mp h.value
    obtain ⟨windowId, hwindow⟩ := h.windowId
    obtain ⟨tsMs, hts⟩ := h.tsMs
    exact ⟨⟨_, _, windowId, region, value, tsMs⟩, parseCounter_eq_ok_iff.mpr
      ⟨h.present, hregion, hvalue, hwindow, hts, rfl, rfl⟩⟩

/-- Of the format is what is complete and of the documented types. -/
theorem counterFormat_iff (hkind : isReconcile obj = false) :
    CounterFormat obj ↔ CounterComplete obj ∧ ¬ CounterMistyped obj := by
  simp only [CounterMistyped, not_or, Bool.not_eq_false]
  constructor
  · intro h
    obtain ⟨n, hn, hvalue⟩ := h.value
    obtain ⟨w, hwindow⟩ := h.windowId
    obtain ⟨ts, hts⟩ := h.tsMs
    refine ⟨⟨?_, isSome_asRegion_iff.mpr h.region, ?_, ⟨w, ?_⟩, ts, ?_⟩,
      isStr_field_iff.mpr h.tier, isStr_field_iff.mpr h.userId, isInt_field_iff.mpr h.windowId,
      isInt_field_iff.mpr ⟨n, hvalue⟩, isInt_field_iff.mpr h.tsMs⟩
    · obtain ⟨tier, htier⟩ := h.tier
      obtain ⟨userId, huser⟩ := h.userId
      obtain ⟨r, hregion⟩ := h.region
      simp only [missing_eq_nil, counterRequired, List.forall_mem_cons]
      exact ⟨⟨_, htier⟩, ⟨_, huser⟩, ⟨_, hwindow⟩, ⟨_, hregion⟩, ⟨_, hvalue⟩, ⟨_, hts⟩,
        fun k hk => absurd hk List.not_mem_nil⟩
    · rw [field_of_lookup hvalue]
      exact isSome_asSlotValue_int.mpr hn
    · rw [field_of_lookup hwindow]
      rfl
    · rw [field_of_lookup hts]
      rfl
  · rintro ⟨h, htier, huser, hwindow, hvalue, hts⟩
    obtain ⟨n, hn⟩ := isInt_field_iff.mp hvalue
    have hpos := h.value
    rw [field_of_lookup hn] at hpos
    exact ⟨hkind, isStr_field_iff.mp htier, isStr_field_iff.mp huser, isInt_field_iff.mp hwindow,
      isSome_asRegion_iff.mp h.region, ⟨n, isSome_asSlotValue_int.mp hpos, hn⟩,
      isInt_field_iff.mp hts⟩

theorem CounterFormat.unchanged (h : CounterFormat obj) {env : CounterEnvelope}
    (hparse : parseCounter py obj = .ok env) : env.Unchanged obj := by
  obtain ⟨-, hregion, hvalue, hwindow, hts, htier, huser⟩ := parseCounter_eq_ok_iff.mp hparse
  obtain ⟨tier, htier'⟩ := h.tier
  obtain ⟨userId, huser'⟩ := h.userId
  obtain ⟨w, hwindow'⟩ := h.windowId
  obtain ⟨n, hn, hvalue'⟩ := h.value
  obtain ⟨ts, hts'⟩ := h.tsMs
  rw [field_of_lookup htier'] at htier
  rw [field_of_lookup huser'] at huser
  rw [field_of_lookup hwindow'] at hwindow
  rw [field_of_lookup hts'] at hts
  refine ⟨?_, ?_, ?_, lookup_of_field (asRegion_eq_some hregion) nofun, ?_, ?_⟩
  · rw [htier', ← htier]
    rfl
  · rw [huser', ← huser]
    rfl
  · rw [hwindow', Except.ok.inj hwindow]
  · rw [toJson_of_asSlotValue hvalue, hvalue', field_of_lookup hvalue']
  · rw [hts', Except.ok.inj hts]

end Counter

/-! ## Reconcile envelopes -/

section Reconcile

variable {obj : List (Str × Json)}

theorem exists_parseSlots_iff (slots : Dict (Str × Str) SlotValue) (items : List (Str × Json)) :
    (∃ d, parseSlots slots items = .ok d) ↔ SlotsAccepted items := by
  rcases parseSlots_cases slots items with ⟨hacc, hok⟩ | ⟨hno, e, he⟩
  · exact iff_of_true hok hacc
  · refine iff_of_false (fun ⟨d, hd⟩ => ?_) hno
    rw [he] at hd
    exact absurd hd nofun

theorem raiseEnvelope_ne_ok {α : Type} (e : EnvelopeError) (a : α) : raiseEnvelope e ≠ .ok a :=
  nofun

/-- Items with distinct keys are the slots that they make. -/
theorem slotItems_of_parseSlots {items : List (Str × Json)} (slots : Dict (Str × Str) SlotValue)
    {d : Dict (Str × Str) SlotValue} (hkeys : ((slotItems slots ++ items).map Prod.fst).Nodup)
    (h : parseSlots slots items = .ok d) : slotItems d = slotItems slots ++ items := by
  induction items generalizing slots with
  | nil =>
    obtain rfl := Except.ok.inj h
    rw [List.append_nil]
  | cons item items ih =>
    obtain ⟨key, v⟩ := item
    rw [parseSlots] at h
    cases hsplit : splitKey key with
    | none =>
      rw [hsplit] at h
      exact absurd h (raiseEnvelope_ne_ok _ d)
    | some p =>
      rw [hsplit] at h
      cases hvalue : asSlotValue v with
      | none =>
        simp only [hvalue] at h
        exact absurd h (raiseEnvelope_ne_ok _ d)
      | some value =>
        simp only [hvalue] at h
        have hkey := (splitKey_some hsplit).2
        have hnew : p ∉ slots.entries.map Prod.fst := by
          intro hmem
          obtain ⟨e, he, rfl⟩ := List.mem_map.mp hmem
          rw [List.map_append, List.nodup_append] at hkeys
          exact hkeys.2.2 key (List.mem_map.mpr ⟨_, List.mem_map.mpr ⟨e, he, rfl⟩, hkey⟩) key
            (by simp) rfl
        have hset : slotItems (slots.set p value) = slotItems slots ++ [(key, v)] := by
          rw [slotItems, Dict.entries_set_of_notMem hnew, List.map_append, List.map_singleton,
            hkey, toJson_of_asSlotValue hvalue]
          rfl
        rw [ih _ (by rwa [hset, List.append_assoc]) h, hset, List.append_assoc,
          List.singleton_append]

theorem parseReconcile_eq_ok_iff {env : ReconcileEnvelope} : parseReconcile obj = .ok env ↔
    asVersionOne (obj.lookup (str "v")) = some env.version ∧ missing reconcileRequired obj = [] ∧
      asRegion (field obj (str "origin")) = some env.origin ∧
      (∃ items, field obj (str "slots") = .obj items ∧
        parseSlots Dict.empty items = .ok env.slots) ∧
      pyInt (field obj (str "window_id")) = .ok env.windowId ∧
      pyInt (field obj (str "ts_ms")) = .ok env.tsMs := by
  rw [parseReconcile_eq]
  cases hversion : asVersionOne (obj.lookup (str "v")) with
  | none => simp [raiseEnvelope]
  | some version =>
    dsimp only
    by_cases hmissing : missing reconcileRequired obj = []
    · rw [if_neg (not_not_intro hmissing)]
      cases horigin : asRegion (field obj (str "origin")) with
      | none => split_ifs <;> simp [raiseEnvelope]
      | some r =>
        have hhash : (field obj (str "origin")).hashable = true := by
          rw [asRegion_eq_some horigin]
          rfl
        rw [if_neg (by rw [hhash]; simp)]
        cases field obj (str "slots") with
        | obj items =>
          dsimp only
          cases hslots : parseSlots Dict.empty items with
          | error e => simp [hslots]
          | ok slots =>
            cases pyInt (field obj (str "window_id")) with
            | error e => simp
            | ok w =>
              cases pyInt (field obj (str "ts_ms")) with
              | error e => simp
              | ok ts =>
                obtain ⟨origin, windowId, tsMs, slots', version'⟩ := env
                simp [hmissing, hslots]
                tauto
        | null | bool | int | float | str | arr => simp [raiseEnvelope]
    · rw [if_pos hmissing]
      simp [raiseEnvelope, hmissing]

theorem exists_parseReconcile_iff :
    (∃ env, parseReconcile obj = .ok env) ↔ ReconcileComplete obj := by
  constructor
  · rintro ⟨env, h⟩
    obtain ⟨hversion, hmissing, horigin, ⟨items, hitems, hslots⟩, hwindow, hts⟩ :=
      parseReconcile_eq_ok_iff.mp h
    exact ⟨by rw [hversion]; rfl, hmissing, by rw [horigin]; rfl,
      ⟨items, hitems, (exists_parseSlots_iff _ _).mp ⟨_, hslots⟩⟩, ⟨_, hwindow⟩, ⟨_, hts⟩⟩
  · intro h
    obtain ⟨version, hversion⟩ := Option.isSome_iff_exists.mp h.version
    obtain ⟨origin, horigin⟩ := Option.isSome_iff_exists.mp h.origin
    obtain ⟨items, hitems, hacc⟩ := h.slots
    obtain ⟨slots, hslots⟩ := (exists_parseSlots_iff Dict.empty items).mpr hacc
    obtain ⟨windowId, hwindow⟩ := h.windowId
    obtain ⟨tsMs, hts⟩ := h.tsMs
    exact ⟨⟨origin, windowId, tsMs, slots, version⟩, parseReconcile_eq_ok_iff.mpr
      ⟨hversion, h.present, horigin, ⟨items, hitems, hslots⟩, hwindow, hts⟩⟩

theorem reconcileFormat_iff (hkind : isReconcile obj = true) :
    ReconcileFormat obj ↔ ReconcileComplete obj ∧ ¬ ReconcileMistyped obj := by
  simp only [ReconcileMistyped, not_or, Bool.not_eq_false]
  constructor
  · intro h
    obtain ⟨r, horigin⟩ := h.origin
    obtain ⟨w, hwindow⟩ := h.windowId
    obtain ⟨ts, hts⟩ := h.tsMs
    obtain ⟨items, hslots, hitems⟩ := h.slots
    refine ⟨⟨?_, ?_, isSome_asRegion_iff.mpr h.origin, ⟨items, field_of_lookup hslots, ?_⟩,
      ⟨w, ?_⟩, ts, ?_⟩, isInt_field_iff.mpr ⟨1, h.version⟩, isInt_field_iff.mpr h.windowId,
      isInt_field_iff.mpr h.tsMs, ?_⟩
    · rw [h.version]
      rfl
    · simp only [missing_eq_nil, reconcileRequired, List.forall_mem_cons]
      exact ⟨⟨_, horigin⟩, ⟨_, hwindow⟩, ⟨_, hts⟩, ⟨_, hslots⟩,
        fun k hk => absurd hk List.not_mem_nil⟩
    · intro e he
      obtain ⟨hcolon, n, hn, hv⟩ := hitems e he
      rw [hv]
      exact ⟨hcolon, isSome_asSlotValue_int.mpr hn⟩
    · rw [field_of_lookup hwindow]
      rfl
    · rw [field_of_lookup hts]
      rfl
    · rintro ⟨items', hslots', e, he, hno⟩
      obtain rfl := Json.obj.inj (hslots'.symm.trans (field_of_lookup hslots))
      obtain ⟨-, n, -, hv⟩ := hitems e he
      rw [hv] at hno
      exact absurd hno nofun
  · rintro ⟨h, hversion, hwindow, hts, hints⟩
    obtain ⟨n, hn⟩ := isInt_field_iff.mp hversion
    obtain ⟨items, hitems, hacc⟩ := h.slots
    refine ⟨hkind, ?_, isSome_asRegion_iff.mp h.origin, isInt_field_iff.mp hwindow,
      isInt_field_iff.mp hts, items, lookup_of_field hitems nofun, fun e he => ?_⟩
    · have hone := h.version
      rw [hn, asVersionOne] at hone
      split_ifs at hone with hone'
      · rw [hn, hone']
      · exact absurd hone nofun
    · obtain ⟨hcolon, hvalue⟩ := hacc e he
      have hint : e.2.isInt = true := by
        by_contra hno
        exact hints ⟨items, hitems, e, he, by simpa using hno⟩
      obtain ⟨n, hn⟩ := isInt_iff.mp hint
      rw [hn] at hvalue
      exact ⟨hcolon, n, isSome_asSlotValue_int.mp hvalue, hn⟩

theorem ReconcileFormat.unchanged (h : ReconcileFormat obj) (hkeyed : (Json.obj obj).Keyed)
    {env : ReconcileEnvelope} (hparse : parseReconcile obj = .ok env) : env.Unchanged obj := by
  obtain ⟨hversion, -, horigin, ⟨items, hitems, hslots⟩, hwindow, hts⟩ :=
    parseReconcile_eq_ok_iff.mp hparse
  obtain ⟨w, hwindow'⟩ := h.windowId
  obtain ⟨ts, hts'⟩ := h.tsMs
  have hlookup := lookup_of_field hitems nofun
  rw [field_of_lookup hwindow'] at hwindow
  rw [field_of_lookup hts'] at hts
  refine ⟨?_, lookup_of_field (asRegion_eq_some horigin) nofun, ?_, ?_, ?_⟩
  · rw [h.version] at hversion ⊢
    rw [← (Option.some.inj hversion : VersionOne.int = env.version)]
    rfl
  · rw [hwindow', Except.ok.inj hwindow]
  · rw [hts', Except.ok.inj hts]
  · have hinner : (Json.obj items).Keyed := by
      cases hkeyed with
      | obj _ hall =>
        obtain ⟨l, l', rfl, -⟩ := List.lookup_eq_some_iff.mp hlookup
        exact hall (str "slots", .obj items) (by simp)
    cases hinner with
    | obj hkeys _ =>
      have hslots' := slotItems_of_parseSlots Dict.empty hkeys hslots
      rw [hlookup, hslots']
      rfl

end Reconcile

/-! ## The parser -/

section Parse

variable {py : Python} {raw : List Byte} {obj : List (Str × Json)}

theorem parse_of_counter (hloads : loads py raw = .ok (.obj obj))
    (hkind : isReconcile obj = false) : parse py raw = (parseCounter py obj).map .counter := by
  rw [parse, hloads]
  exact if_neg (by rw [hkind]; simp)

theorem parse_of_reconcile (hloads : loads py raw = .ok (.obj obj))
    (hkind : isReconcile obj = true) : parse py raw = (parseReconcile obj).map .reconcile := by
  rw [parse, hloads]
  exact if_pos hkind

/-- Only objects are accepted. -/
theorem loads_of_parse {env : Envelope} (h : parse py raw = .ok env) :
    ∃ obj, loads py raw = .ok (.obj obj) := by
  unfold parse at h
  cases hloads : loads py raw with
  | error e => cases e <;> rw [hloads] at h <;> exact absurd h nofun
  | ok v =>
    cases v with
    | obj obj => exact ⟨obj, rfl⟩
    | null | bool | int | float | str | arr =>
      rw [hloads] at h
      exact absurd h nofun

theorem map_eq_ok {ε α β : Type} {f : α → β} {x : Except ε α} {b : β} (h : x.map f = .ok b) :
    ∃ a, x = .ok a ∧ f a = b := by
  cases x with
  | error e => exact absurd h nofun
  | ok a => exact ⟨a, rfl, Except.ok.inj h⟩

theorem strict_counter_iff (hloads : loads py raw = .ok (.obj obj))
    (hkind : isReconcile obj = false) :
    Strict py raw ↔ ¬ (CounterComplete obj ∧ CounterMistyped obj) := by
  have hparse := parse_of_counter hloads hkind
  have hobj : ∀ {obj'}, loads py raw = .ok (.obj obj') → obj' = obj := fun hloads' =>
    Json.obj.inj (Except.ok.inj (hloads'.symm.trans hloads))
  constructor
  · rintro h ⟨hcomplete, hmistyped⟩
    obtain ⟨env, henv⟩ := (exists_parseCounter_iff py).mpr hcomplete
    obtain ⟨obj', hloads', hformat, -⟩ := h.counter env (by rw [hparse, henv]; rfl)
    obtain rfl := hobj hloads'
    exact ((counterFormat_iff hkind).mp hformat).2 hmistyped
  · refine fun h => ⟨fun env henv => ?_, fun env henv => ?_, fun obj' hloads' hformat => ?_⟩
    · rw [hparse] at henv
      obtain ⟨env', henv', heq⟩ := map_eq_ok henv
      obtain rfl := Envelope.counter.inj heq
      have hcomplete := (exists_parseCounter_iff py).mp ⟨_, henv'⟩
      have hformat : CounterFormat obj :=
        (counterFormat_iff hkind).mpr ⟨hcomplete, fun hmistyped => h ⟨hcomplete, hmistyped⟩⟩
      exact ⟨obj, hloads, hformat, hformat.unchanged henv'⟩
    · rw [hparse] at henv
      obtain ⟨_, _, hne⟩ := map_eq_ok henv
      exact absurd hne nofun
    · obtain rfl := hobj hloads'
      have hformat : CounterFormat obj' :=
        hformat.resolve_right fun h => Bool.false_ne_true (hkind.symm.trans h.kind)
      obtain ⟨env, henv⟩ := (exists_parseCounter_iff py).mpr
        ((counterFormat_iff hkind).mp hformat).1
      exact ⟨.counter env, by rw [hparse, henv]; rfl⟩

theorem strict_reconcile_iff (hloads : loads py raw = .ok (.obj obj))
    (hkind : isReconcile obj = true) :
    Strict py raw ↔ ¬ (ReconcileComplete obj ∧ ReconcileMistyped obj) := by
  have hparse := parse_of_reconcile hloads hkind
  have hobj : ∀ {obj'}, loads py raw = .ok (.obj obj') → obj' = obj := fun hloads' =>
    Json.obj.inj (Except.ok.inj (hloads'.symm.trans hloads))
  constructor
  · rintro h ⟨hcomplete, hmistyped⟩
    obtain ⟨env, henv⟩ := exists_parseReconcile_iff.mpr hcomplete
    obtain ⟨obj', hloads', hformat, -⟩ := h.reconcile env (by rw [hparse, henv]; rfl)
    obtain rfl := hobj hloads'
    exact ((reconcileFormat_iff hkind).mp hformat).2 hmistyped
  · refine fun h => ⟨fun env henv => ?_, fun env henv => ?_, fun obj' hloads' hformat => ?_⟩
    · rw [hparse] at henv
      obtain ⟨_, _, hne⟩ := map_eq_ok henv
      exact absurd hne nofun
    · rw [hparse] at henv
      obtain ⟨env', henv', heq⟩ := map_eq_ok henv
      obtain rfl := Envelope.reconcile.inj heq
      have hcomplete := exists_parseReconcile_iff.mp ⟨_, henv'⟩
      have hformat : ReconcileFormat obj :=
        (reconcileFormat_iff hkind).mpr ⟨hcomplete, fun hmistyped => h ⟨hcomplete, hmistyped⟩⟩
      exact ⟨obj, hloads, hformat, hformat.unchanged (keyed_loads hloads) henv'⟩
    · obtain rfl := hobj hloads'
      have hformat : ReconcileFormat obj' :=
        hformat.resolve_left fun h => Bool.false_ne_true (h.kind.symm.trans hkind)
      obtain ⟨env, henv⟩ := exists_parseReconcile_iff.mpr
        ((reconcileFormat_iff hkind).mp hformat).1
      exact ⟨.reconcile env, by rw [hparse, henv]; rfl⟩

/-- **The parser coerces.** It accepts exactly the documented format, and changes nothing,
unless the bytes hold a complete object with a field of another type. -/
theorem strict_iff (py : Python) (raw : List Byte) :
    Strict py raw ↔ ∀ obj, loads py raw = .ok (.obj obj) → ¬ Coercible obj := by
  by_cases hobject : ∃ obj, loads py raw = .ok (.obj obj)
  · obtain ⟨obj, hloads⟩ := hobject
    have hone : (∀ obj', loads py raw = .ok (.obj obj') → ¬ Coercible obj') ↔ ¬ Coercible obj := by
      refine ⟨fun h => h obj hloads, fun h obj' hloads' => ?_⟩
      obtain rfl := Json.obj.inj (Except.ok.inj (hloads'.symm.trans hloads))
      exact h
    rw [hone, Coercible]
    cases hkind : isReconcile obj with
    | true =>
      rw [if_pos rfl]
      exact strict_reconcile_iff hloads hkind
    | false =>
      rw [if_neg Bool.false_ne_true]
      exact strict_counter_iff hloads hkind
  · refine iff_of_true ⟨fun env henv => ?_, fun env henv => ?_, fun obj hloads _ => ?_⟩
      fun obj hloads => absurd ⟨obj, hloads⟩ hobject
    · exact absurd (loads_of_parse henv) hobject
    · exact absurd (loads_of_parse henv) hobject
    · exact absurd ⟨obj, hloads⟩ hobject

/-- A null, a number, a numeral, a boolean and a float in the places of other types. -/
def looseMessage : List Byte := utf8Encode (
  str "\x7b\"tier\":null,\"user_id\":5,\"window_id\":\"7\",\"region\":\"us\"," ++
  str "\"value\":true,\"ts_ms\":1.9\x7d")

/-- The parser makes a counter of user `5` in tier `None` of it, with the value `True`. -/
theorem not_strict : ∃ env, parse samplePython looseMessage = .ok (.counter env) ∧
    (env.tier = str "None" ∧ env.userId = str "5" ∧ env.windowId = 7 ∧
      env.value.val = .bool true ∧ env.tsMs = 1) ∧ ¬ Strict samplePython looseMessage := by
  have hrun : (match parse samplePython looseMessage with
      | .ok (.counter env) => decide (env.tier = str "None" ∧ env.userId = str "5" ∧
          env.windowId = 7 ∧ env.value.val = .bool true ∧ env.tsMs = 1)
      | _ => false) = true := by decide +kernel
  split at hrun
  · rename_i env hparse
    have hfields := of_decide_eq_true hrun
    refine ⟨env, hparse, hfields, fun h => ?_⟩
    -- the format wants an integer where the envelope has the boolean of the object
    obtain ⟨obj, -, hformat, hunchanged⟩ := h.counter env hparse
    obtain ⟨n, -, hvalue⟩ := hformat.value
    rw [hunchanged.value, hfields.2.2.2.1] at hvalue
    exact absurd hvalue nofun
  · exact absurd hrun Bool.false_ne_true

end Parse

end Gdrl
