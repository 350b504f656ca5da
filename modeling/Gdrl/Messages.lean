import Gdrl.Gateway
import Gdrl.Relay

/-!
# Messages on the wire

What a gateway and a reconciler publish, read back by the relay. A counter message of the
gateway goes from Go's `encoding/json` to Python's `json` and carries the one slot that
was counted (`parse_payload`); a chunk of the reconciler goes through `serializeReconcile`
and carries its slots (`parse_serialize`).
-/

namespace Gdrl

/-! ## Values that are read as they were printed -/

section Plain

variable {py : Python} {st : Style}

/-- A style whose strings Python reads back, where they have no surrogates. -/
def Faithful (st : Style) : Prop := ∀ s, Scalar s → joinPairs (s.flatMap st.units) = s

theorem faithful_goStyle : Faithful goStyle := fun _ hs => joinPairs_goUnits hs

theorem faithful_pyStyle (gap : Str) (hgap : ∀ c ∈ gap, isSpace c = true) :
    Faithful (pyStyle py gap hgap) := fun _ hs => joinPairs_pyUnits hs

theorem reads_str (hst : Faithful st) {s : Str} (hs : Scalar s) (n : ℕ) :
    Reads (pyDialect py) st n (.str s) (.str s) := by
  have h : Reads (pyDialect py) st n (.str s) (.str (joinPairs (s.flatMap st.units))) := .str
  rwa [hst s hs] at h

theorem reads_int {k : ℤ} (hk : Printable k) (n : ℕ) :
    Reads (pyDialect py) st n (.int k) (.int k) := .int (pyWord_intText hk)

theorem reads_obj {n : ℕ} {kvs : List (Str × Json)} (hn : n < py.maxDepth)
    (hkeys : (kvs.map Prod.fst).Nodup) (h : ReadsMembers (pyDialect py) st (n + 1) kvs kvs) :
    Reads (pyDialect py) st n (.obj kvs) (.obj kvs) := by
  have hobj : Reads (pyDialect py) st n (.obj kvs) (.obj (Dict.ofPairs kvs).entries) := .obj hn h
  rwa [Dict.entries_ofPairs hkeys] at hobj

end Plain

/-! ## The gateway's message -/

/-- The numbers of a counted request are in the range of its types. -/
structure Check.InRange (c : Check) : Prop where
  window : fits64 c.windowId = true
  slot : ∀ n ∈ c.slot, 0 ≤ n ∧ n < 2 ^ 63

theorem natAbs_of_fits {n : ℤ} (h : fits64 n = true) : n.natAbs ≤ 2 ^ 63 := by
  simp only [fits64, Bool.and_eq_true, decide_eq_true_eq] at h
  omega

theorem printable_of_fits {n : ℤ} (h : fits64 n = true) : Printable n :=
  printable_of_lt ((natAbs_of_fits h).trans_lt (by decide))

/-- The slot that a counted request writes at the peers. -/
def Check.slotWrite (c : Check) {n : ℤ} (hn : 0 ≤ n) : SlotWrite :=
  ⟨c.tier.name, c.userId.val, c.windowId, c.region, ⟨.int n, hn⟩⟩

theorem nodup_syncMessage {kvs : List (Str × Json)} {c : Check} {n tsMs : ℤ}
    (h : c.syncMessage n tsMs = .obj kvs) : (kvs.map Prod.fst).Nodup := by
  obtain rfl := Json.obj.inj h
  simp only [List.map_cons, List.map_nil]
  decide

theorem reads_syncMessage (py : Python) {c : Check} (hc : fits64 c.windowId = true) {n tsMs : ℤ}
    (hn : fits64 n = true) (hts : fits64 tsMs = true) :
    Reads (pyDialect py) goStyle 0 (c.syncMessage n tsMs) (c.syncMessage n tsMs) := by
  have hstr : ∀ {s : Str}, Scalar s → Reads (pyDialect py) goStyle 1 (.str s) (.str s) :=
    fun hs => reads_str faithful_goStyle hs 1
  have hint : ∀ {k : ℤ}, fits64 k = true → Reads (pyDialect py) goStyle 1 (.int k) (.int k) :=
    fun hk => reads_int (printable_of_fits hk) 1
  refine reads_obj (two_pos.trans_le py.two_le_maxDepth) (nodup_syncMessage rfl) ?_
  refine readsMembers_cons (faithful_goStyle _ (by decide)) (hstr c.tier.scalar_name) ?_
  refine readsMembers_cons (faithful_goStyle _ (by decide)) (hstr c.userId.property.2) ?_
  refine readsMembers_cons (faithful_goStyle _ (by decide)) (hint hc) ?_
  refine readsMembers_cons (faithful_goStyle _ (by decide)) (hstr c.region.scalar_name) ?_
  refine readsMembers_cons (faithful_goStyle _ (by decide)) (hint hn) ?_
  exact readsMembers_cons (faithful_goStyle _ (by decide)) (hint hts) .nil

/-- The relay reads what the gateway has published. -/
theorem parse_payload (py : Python) {c : Check} (hc : fits64 c.windowId = true) {n tsMs : ℤ}
    (hn : 0 ≤ n) (hlt : n < 2 ^ 63) (hts : fits64 tsMs = true) :
    parse py (c.payload n tsMs) = .ok (.counter
      ⟨c.tier.name, c.userId.val, c.windowId, c.region, ⟨.int n, hn⟩, tsMs⟩) := by
  have hfit : fits64 n = true := by
    simp only [fits64, Bool.and_eq_true, decide_eq_true_eq]
    omega
  obtain ⟨obj, hobj⟩ : ∃ obj, c.syncMessage n tsMs = .obj obj := ⟨_, rfl⟩
  have hloads : loads py (c.payload n tsMs) = .ok (c.syncMessage n tsMs) :=
    loads_print (reads_syncMessage py hc hfit hts)
  have hfields : isReconcile obj = false ∧ missing counterRequired obj = [] ∧
      field obj (str "tier") = .str c.tier.name ∧
      field obj (str "user_id") = .str c.userId.val ∧
      field obj (str "window_id") = .int c.windowId ∧
      field obj (str "region") = .str c.region.name ∧
      field obj (str "value") = .int n ∧ field obj (str "ts_ms") = .int tsMs := by
    obtain rfl := Json.obj.inj hobj
    exact ⟨rfl, rfl, rfl, rfl, rfl, rfl, rfl, rfl⟩
  obtain ⟨h1, h2, h3, h4, h5, h6, h7, h8⟩ := hfields
  have hregion : asRegion (.str c.region.name) = some c.region := Region.ofName_name c.region
  have hvalue : asSlotValue (.int n) = some ⟨.int n, hn⟩ := dif_pos hn
  rw [parse, hloads, hobj]
  dsimp only
  rw [h1, parseCounter_eq, h2, h3, h4, h5, h6, h7, h8, hregion, hvalue]
  rfl

/-! ## The reconciler's message -/

/-- A chunk as a reconciler fills it : tiers have no colon, names can be encoded, values
are integers that print. -/
structure PlainSlots (slots : Dict (Str × Str) SlotValue) : Prop where
  colon : ∀ e ∈ slots.entries, 58 ∉ e.1.1
  scalar : ∀ e ∈ slots.entries, Scalar e.1.1 ∧ Scalar e.1.2
  int : ∀ e ∈ slots.entries, ∃ n, e.2.val = .int n ∧ Printable n

/-- Where tiers have no colon, different pairs have different slot keys. -/
theorem nodup_slotItems {slots : Dict (Str × Str) SlotValue}
    (hcolon : ∀ e ∈ slots.entries, 58 ∉ e.1.1) : ((slotItems slots).map Prod.fst).Nodup := by
  have hkeys : (slotItems slots).map Prod.fst = (slots.entries.map Prod.fst).map slotKey := by
    simp [slotItems, Function.comp_def]
  rw [hkeys]
  refine List.Nodup.map_on (fun k hk k' hk' heq => ?_) slots.nodup
  obtain ⟨e, he, rfl⟩ := List.mem_map.mp hk
  obtain ⟨e', he', rfl⟩ := List.mem_map.mp hk'
  obtain ⟨h1, h2⟩ := append_colon_inj (hcolon e he) (hcolon e' he') heq
  exact Prod.ext h1 h2

theorem asSlotValue_toJson (v : SlotValue) : asSlotValue v.val.toJson = some v := by
  obtain ⟨v, hv⟩ := v
  cases v with
  | int n => exact dif_pos hv
  | bool b => rfl

theorem parseSlots_slotItems {slots : Dict (Str × Str) SlotValue}
    (hcolon : ∀ e ∈ slots.entries, 58 ∉ e.1.1) :
    parseSlots Dict.empty (slotItems slots) = .ok slots := by
  have hfold : ∀ (l : List ((Str × Str) × SlotValue)) (d : Dict (Str × Str) SlotValue),
      (∀ e ∈ l, 58 ∉ e.1.1) →
      parseSlots d (l.map fun e => (slotKey e.1, e.2.val.toJson)) =
        .ok (l.foldl (fun d e => d.set e.1 e.2) d) := by
    intro l
    induction l with
    | nil => exact fun d _ => rfl
    | cons e l ih =>
      intro d hl
      rw [List.map_cons, parseSlots, splitKey_slotKey (hl e List.mem_cons_self)]
      dsimp only
      rw [asSlotValue_toJson]
      exact ih _ fun x hx => hl x (List.mem_cons_of_mem e hx)
  rw [slotItems, hfold _ _ hcolon]
  exact congrArg Except.ok (Dict.ofPairs_entries slots)

/-- The dictionary that is dumped has the slot keys as they are. -/
theorem ReconcileEnvelope.toJson_eq {env : ReconcileEnvelope}
    (hcolon : ∀ e ∈ env.slots.entries, 58 ∉ e.1.1) :
    env.toJson = .obj [(str "kind", .str (str "reconcile")), (str "v", env.version.toJson),
      (str "origin", .str env.origin.name), (str "window_id", .int env.windowId),
      (str "ts_ms", .int env.tsMs), (str "slots", .obj (slotItems env.slots))] := by
  rw [toJson, Dict.entries_ofPairs (nodup_slotItems hcolon)]

theorem asVersionOne_toJson (v : VersionOne) : asVersionOne (some v.toJson) = some v := by
  cases v with
  | int | bool => rfl
  | float => decide +kernel

/-- `json.loads` returns the value that `json.dumps` has printed. -/
def Python.Inverts (py : Python) (v : Json) : Prop :=
  ∃ text, dumps (compactStyle py) v = .ok text ∧ loads py (utf8Encode text) = .ok v

/-- `parse` returns the envelope that `serialize_reconcile` has printed. -/
def ReconcileEnvelope.RoundTrips (py : Python) (env : ReconcileEnvelope) : Prop :=
  ∃ raw, serializeReconcile py env = .ok raw ∧ parse py raw = .ok (.reconcile env)

/-- An envelope is read back where its JSON is and where its tiers have no colon. -/
theorem ReconcileEnvelope.roundTrips {py : Python} {env : ReconcileEnvelope}
    (hcolon : ∀ e ∈ env.slots.entries, 58 ∉ e.1.1) (hjson : py.Inverts env.toJson) :
    env.RoundTrips py := by
  obtain ⟨text, hdumps, hloads⟩ := hjson
  refine ⟨utf8Encode text, by rw [serializeReconcile, hdumps]; rfl, ?_⟩
  obtain ⟨obj, hobj⟩ : ∃ obj, env.toJson = .obj obj := ⟨_, rfl⟩
  have hfields : isReconcile obj = true ∧ obj.lookup (str "v") = some env.version.toJson ∧
      missing reconcileRequired obj = [] ∧ field obj (str "origin") = .str env.origin.name ∧
      field obj (str "window_id") = .int env.windowId ∧ field obj (str "ts_ms") = .int env.tsMs ∧
      field obj (str "slots") = .obj (slotItems env.slots) := by
    rw [toJson_eq hcolon] at hobj
    obtain rfl := Json.obj.inj hobj
    exact ⟨rfl, rfl, rfl, rfl, rfl, rfl, rfl⟩
  obtain ⟨h1, h2, h3, h4, h5, h6, h7⟩ := hfields
  have horigin : asRegion (.str env.origin.name) = some env.origin :=
    Region.ofName_name env.origin
  rw [parse, hloads, hobj]
  dsimp only
  rw [h1, parseReconcile_eq, h2, h3, h4, h5, h6, h7, asVersionOne_toJson, horigin]
  dsimp only
  rw [parseSlots_slotItems hcolon]
  rfl

theorem reads_slotItems (py : Python) {slots : Dict (Str × Str) SlotValue} (h : PlainSlots slots)
    (n : ℕ) :
    ReadsMembers (pyDialect py) (compactStyle py) n (slotItems slots) (slotItems slots) := by
  have hcolon : Scalar [58] := by decide
  have hall : ∀ l : List ((Str × Str) × SlotValue), (∀ e ∈ l, e ∈ slots.entries) →
      ReadsMembers (pyDialect py) (compactStyle py) n
        (l.map fun e => (slotKey e.1, e.2.val.toJson))
        (l.map fun e => (slotKey e.1, e.2.val.toJson)) := by
    intro l
    induction l with
    | nil => exact fun _ => .nil
    | cons e l ih =>
      intro hl
      have he := hl e List.mem_cons_self
      obtain ⟨k, hk, hprint⟩ := h.int e he
      have hkey : Scalar (slotKey e.1) := (h.scalar e he).1.append (hcolon.append (h.scalar e he).2)
      refine readsMembers_cons (faithful_pyStyle _ _ _ hkey) ?_
        (ih fun x hx => hl x (List.mem_cons_of_mem e hx))
      rw [hk]
      exact reads_int hprint n
  exact hall _ fun _ => id

/-- An envelope of a reconciler. -/
structure ReconcileEnvelope.Plain (env : ReconcileEnvelope) : Prop where
  version : env.version = .int
  window : Printable env.windowId
  ts : fits64 env.tsMs = true
  slots : PlainSlots env.slots

theorem reads_toJson (py : Python) {env : ReconcileEnvelope} (h : env.Plain) :
    Reads (pyDialect py) (compactStyle py) 0 env.toJson env.toJson := by
  have hst : Faithful (compactStyle py) := faithful_pyStyle _ _
  have hdepth := py.two_le_maxDepth
  have hstr : ∀ {s : Str}, Scalar s → Reads (pyDialect py) (compactStyle py) 1 (.str s) (.str s) :=
    fun hs => reads_str hst hs 1
  have hint : ∀ {k : ℤ}, Printable k → Reads (pyDialect py) (compactStyle py) 1 (.int k) (.int k) :=
    fun hk => reads_int hk 1
  rw [env.toJson_eq h.slots.colon, h.version]
  refine reads_obj (by omega) ?_ ?_
  · simp only [List.map_cons, List.map_nil]
    decide
  · refine readsMembers_cons (hst _ (by decide)) (hstr (by decide)) ?_
    refine readsMembers_cons (hst _ (by decide)) (hint (by decide)) ?_
    refine readsMembers_cons (hst _ (by decide)) (hstr env.origin.scalar_name) ?_
    refine readsMembers_cons (hst _ (by decide)) (hint h.window) ?_
    refine readsMembers_cons (hst _ (by decide)) (hint (printable_of_fits h.ts)) ?_
    refine readsMembers_cons (hst _ (by decide)) ?_ .nil
    exact reads_obj (by omega) (nodup_slotItems h.slots.colon) (reads_slotItems py h.slots 2)

theorem printableMembers_slotItems {slots : Dict (Str × Str) SlotValue} (h : PlainSlots slots) :
    Json.printableMembers (slotItems slots) = true := by
  have hall : ∀ l : List ((Str × Str) × SlotValue), (∀ e ∈ l, e ∈ slots.entries) →
      Json.printableMembers (l.map fun e => (slotKey e.1, e.2.val.toJson)) = true := by
    intro l
    induction l with
    | nil => exact fun _ => rfl
    | cons e l ih =>
      intro hl
      obtain ⟨k, hk, hprint⟩ := h.int e (hl e List.mem_cons_self)
      rw [List.map_cons, Json.printableMembers, hk, ih fun x hx => hl x (List.mem_cons_of_mem e hx),
        Bool.and_true]
      exact decide_eq_true hprint
  exact hall _ fun _ => id

theorem inverts_toJson (py : Python) {env : ReconcileEnvelope} (h : env.Plain) :
    py.Inverts env.toJson := by
  have hprint : env.toJson.printable = true := by
    rw [env.toJson_eq h.slots.colon, h.version]
    simp [Json.printable, Json.printableMembers, VersionOne.toJson, h.window,
      printable_of_fits h.ts, printableMembers_slotItems h.slots, show Printable 1 by decide]
  exact ⟨_, if_pos hprint, loads_print (reads_toJson py h)⟩

/-- The relay reads what the reconciler has published. -/
theorem parse_serialize (py : Python) {env : ReconcileEnvelope} (h : env.Plain) :
    env.RoundTrips py := env.roundTrips h.slots.colon (inverts_toJson py h)

end Gdrl
