import Gdrl.Envelope
import Gdrl.Gossip

/-!
# Regional counters

The hash at `rl:global:{tier}:{user_id}:{window_id}` has one slot per region. A region's
gateway raises the region's own slot by `HINCRBY`; sync raises the slots of other regions
by the script `maxMerge`. `applyRemoteSlot` is `RegionalCounter.apply_remote_slot`, with
everything that makes it raise.

A Redis key is a string without surrogates, one that has a UTF-8 encoding, and the fields
of a hash are the names of regions : nothing else is ever written there. `maxMerge`
compares as Lua does, on doubles. Below `2 ^ 53` it is the maximum (`maxMerge_slots`).
-/

namespace Gdrl

/-! ## Redis -/

/-- How a Redis command ends for its caller : it took effect, it took effect and the
reply was lost, or it had no effect and an error came back. -/
inductive Outcome
  | ok | lost | failed
  deriving DecidableEq, Repr

def Outcome.applied : Outcome → Bool
  | failed => false
  | _ => true

/-- The hash of one key : the slots, and the moment of expiry where one is set. -/
structure Hash where
  slots : Region → Option ℤ
  expireAtMs : Option ℤ

def Hash.empty : Hash := ⟨fun _ => none, none⟩

/-- A slot, an absent one read as 0. -/
def Hash.slot (h : Hash) (r : Region) : ℤ := (h.slots r).getD 0

/-- The `rl:global` keys of one Redis. Redis has no empty hash, so a key exists where a
slot does. -/
abbrev GlobalRedis := Str → Hash

def GlobalRedis.exists (m : GlobalRedis) (key : Str) : Bool :=
  Region.all.any fun r => ((m key).slots r).isSome

/-- The hash at one key replaced. -/
def GlobalRedis.set (m : GlobalRedis) (key : Str) (h : Hash) : GlobalRedis :=
  fun k => if k = key then h else m k

@[simp] theorem GlobalRedis.set_self (m : GlobalRedis) (key : Str) (h : Hash) :
    m.set key h key = h := if_pos rfl

theorem GlobalRedis.set_of_ne (m : GlobalRedis) {key k : Str} (h : Hash) (hk : k ≠ key) :
    m.set key h k = m k := if_neg hk

/-- `_global_key`, and the key that the gateway builds. -/
def globalKey (tier user : Str) (window : ℤ) : Str :=
  str "rl:global:" ++ (tier ++ 58 :: (user ++ 58 :: intText window))

theorem scalar_globalKey {tier user : Str} (ht : Scalar tier) (hu : Scalar user) (w : ℤ) :
    Scalar (globalKey tier user w) := by
  have hcolon : Scalar [58] := by decide
  have hrest := hu.append (hcolon.append (scalar_of_ascii (ascii_intText w)))
  exact Scalar.append (by decide) (ht.append (hcolon.append hrest))

/-- The window of a key is behind its last colon, whatever is before. -/
theorem window_of_globalKey {tier user a : Str} {w w' : ℤ}
    (h : globalKey tier user w = str "rl:global:" ++ (a ++ 58 :: intText w')) : w = w' := by
  have hkey : tier ++ 58 :: (user ++ 58 :: intText w) = a ++ 58 :: intText w' :=
    List.append_cancel_left h
  rw [← List.cons_append, ← List.append_assoc] at hkey
  exact intText_injective (append_colon_inj_right (colon_notMem_intText w)
    (colon_notMem_intText w') hkey).2

theorem window_eq_of_globalKey_eq {tier tier' user user' : Str} {w w' : ℤ}
    (h : globalKey tier user w = globalKey tier' user' w') : w = w' := by
  refine @window_of_globalKey tier user (tier' ++ 58 :: user') w w' (h.trans ?_)
  rw [globalKey, List.append_assoc, List.cons_append]

/-- A key has one tier and one window, and so one user, who may have colons in his name. -/
theorem globalKey_inj {tier tier' user user' : Str} {w w' : ℤ} (ht : 58 ∉ tier) (ht' : 58 ∉ tier')
    (h : globalKey tier user w = globalKey tier' user' w') :
    tier = tier' ∧ user = user' ∧ w = w' := by
  obtain ⟨htier, hrest⟩ := append_colon_inj ht ht' (List.append_cancel_left h)
  -- the window is behind the last colon
  obtain ⟨huser, hw⟩ := append_colon_inj_right (colon_notMem_intText w)
    (colon_notMem_intText w') hrest
  exact ⟨htier, huser, intText_injective hw⟩

/-- `GLOBAL_TTL_SECONDS` -/
def globalTtlMs : ℤ := 300000

/-! ## The max-merge script -/

/-- `_MAX_MERGE_LUA` -/
def maxMerge (nowMs : ℤ) (h : Hash) (r : Region) (v : ℤ) : Bool × Hash :=
  let fires := match h.slots r with
    | none => true
    | some cur => decide (luaNumber cur < luaNumber v)
  if fires then
    (true, ⟨fun r' => if r' = r then some v else h.slots r', some (nowMs + globalTtlMs)⟩)
  else (false, h)

/-- A slot that takes a value by the maximum. -/
def mergeSlot (o : Option ℤ) (v : ℤ) : Option ℤ :=
  match o with
  | none => some v
  | some cur => some (max cur v)

/-- With an absent slot read as 0, a non-negative value is taken by the maximum. -/
theorem getD_mergeSlot (o : Option ℤ) {v : ℤ} (hv : 0 ≤ v) :
    (mergeSlot o v).getD 0 = max (o.getD 0) v := by
  cases o with
  | none => exact (max_eq_right hv).symm
  | some c => rfl

/-- Below `2 ^ 53` the script merges one slot by the maximum and leaves the others. -/
theorem maxMerge_slots (nowMs : ℤ) (h : Hash) (r : Region) {v : ℤ} (hv : 0 ≤ v)
    (hlt : v < 2 ^ 53) (r' : Region) :
    (maxMerge nowMs h r v).2.slots r' =
      if r' = r then mergeSlot (h.slots r) v else h.slots r' := by
  unfold maxMerge mergeSlot
  cases hr : h.slots r with
  | none => simp
  | some cur =>
    simp only [luaNumber_lt_iff hv hlt, decide_eq_true_eq]
    split_ifs with h1 h2 h2
    · simp [h2, max_eq_right h1.le]
    · simp [h2]
    · rw [h2, hr, max_eq_left (not_lt.mp h1)]
    · rfl

/-- The slot is at least the value afterwards. -/
theorem le_slot_maxMerge (nowMs : ℤ) (h : Hash) (r : Region) {v : ℤ} (hv : 0 ≤ v)
    (hlt : v < 2 ^ 53) : v ≤ (maxMerge nowMs h r v).2.slot r := by
  rw [Hash.slot, maxMerge_slots nowMs h r hv hlt r, if_pos rfl]
  cases h.slots r with
  | none => exact le_rfl
  | some cur => exact le_max_right cur v

theorem maxMerge_slots_of_ne (nowMs : ℤ) (h : Hash) {r r' : Region} (v : ℤ) (hr : r' ≠ r) :
    (maxMerge nowMs h r v).2.slots r' = h.slots r' := by
  unfold maxMerge
  dsimp only
  split_ifs
  · exact if_neg hr
  · rfl

/-- Whatever the size of the numbers, the script keeps a slot or raises it to the value. -/
theorem maxMerge_slots_self (nowMs : ℤ) (h : Hash) (r : Region) (v : ℤ) :
    (maxMerge nowMs h r v).2.slots r = h.slots r ∨
      ((maxMerge nowMs h r v).2.slots r = some v ∧ ∀ cur ∈ h.slots r, cur < v) := by
  unfold maxMerge
  dsimp only
  cases hr : h.slots r with
  | none => exact Or.inr ⟨by simp, by simp⟩
  | some cur =>
    by_cases hlt : luaNumber cur < luaNumber v
    · have hcur : cur < v := lt_of_not_ge fun hge => hlt.not_ge (luaNumber_mono hge)
      simp [hlt, hcur]
    · simp [hlt, hr]

/-! ## Applying a remote slot -/

/-- The arguments of `apply_remote_slot` : one slot of one peer. -/
structure SlotWrite where
  tier : Str
  userId : Str
  windowId : ℤ
  peer : Region
  value : SlotValue
  deriving DecidableEq

namespace SlotWrite

def key (w : SlotWrite) : Str := globalKey w.tier w.userId w.windowId

/-- The key has a UTF-8 encoding. -/
def encodable (w : SlotWrite) : Bool := decide (Scalar w.tier ∧ Scalar w.userId)

/-- redis-py refuses a `bool` as an argument. -/
def sendable (w : SlotWrite) : Bool :=
  match w.value.val with
  | .int _ => w.encodable
  | .bool _ => false

theorem encodable_of_sendable {w : SlotWrite} (h : w.sendable = true) : w.encodable = true := by
  unfold sendable at h
  split at h
  · exact h
  · exact absurd h Bool.false_ne_true

end SlotWrite

/-- `RegionalCounter.apply_remote_slot` of region `self`. A `window_id` comes out of `int`,
which yields no more digits than the key's `str` prints. -/
def applyRemoteSlot (self : Region) (w : SlotWrite) (out : Outcome) (nowMs : ℤ) (m : GlobalRedis) :
    Except PyError Bool × GlobalRedis :=
  if w.peer = self then (.error .ownSlotWrite, m)
  else if w.value.toInt < 0 then (.error .value, m)
  else if !w.encodable then (.error .unicodeEncode, m)
  else if !w.sendable then (.error .data, m)
  else
    let (fired, h) := maxMerge nowMs (m w.key) w.peer w.value.toInt
    match out with
    | .ok => (.ok fired, m.set w.key h)
    | .lost => (.error .redis, m.set w.key h)
    | .failed => (.error .redis, m)

theorem SlotValue.nonneg (v : SlotValue) : 0 ≤ v.toInt := v.property

/-- A call that gets as far as Redis. -/
theorem applyRemoteSlot_of_sendable {self : Region} {w : SlotWrite} (hp : w.peer ≠ self)
    (hs : w.sendable = true) (out : Outcome) (nowMs : ℤ) (m : GlobalRedis) :
    applyRemoteSlot self w out nowMs m =
      (if out = .ok then .ok (maxMerge nowMs (m w.key) w.peer w.value.toInt).1 else .error .redis,
        if out.applied then m.set w.key (maxMerge nowMs (m w.key) w.peer w.value.toInt).2
        else m) := by
  have hv : ¬ w.value.toInt < 0 := not_lt.mpr w.value.nonneg
  unfold applyRemoteSlot
  rw [if_neg hp, if_neg hv, SlotWrite.encodable_of_sendable hs, hs]
  cases out <;> rfl

/-- A call that is refused before. -/
theorem applyRemoteSlot_of_refused {self : Region} {w : SlotWrite}
    (h : ¬ (w.peer ≠ self ∧ w.sendable = true)) (out : Outcome) (nowMs : ℤ) (m : GlobalRedis) :
    ∃ e, applyRemoteSlot self w out nowMs m = (.error e, m) := by
  have hv : ¬ w.value.toInt < 0 := not_lt.mpr w.value.nonneg
  unfold applyRemoteSlot
  by_cases hp : w.peer = self
  · exact ⟨.ownSlotWrite, if_pos hp⟩
  · have hs : w.sendable = false := Bool.not_eq_true _ ▸ fun hs => h ⟨hp, hs⟩
    rw [if_neg hp, if_neg hv, hs]
    cases w.encodable with
    | true => exact ⟨.data, rfl⟩
    | false => exact ⟨.unicodeEncode, rfl⟩

/-- What the call leaves in Redis. -/
theorem applyRemoteSlot_redis (self : Region) (w : SlotWrite) (out : Outcome) (nowMs : ℤ)
    (m : GlobalRedis) :
    (applyRemoteSlot self w out nowMs m).2 =
      if w.peer ≠ self ∧ w.sendable = true ∧ out.applied = true then
        m.set w.key (maxMerge nowMs (m w.key) w.peer w.value.toInt).2
      else m := by
  by_cases h : w.peer ≠ self ∧ w.sendable = true
  · rw [applyRemoteSlot_of_sendable h.1 h.2]
    exact if_congr ⟨fun hout => ⟨h.1, h.2, hout⟩, fun hall => hall.2.2⟩ rfl rfl
  · obtain ⟨e, he⟩ := applyRemoteSlot_of_refused h out nowMs m
    rw [he, if_neg fun hall => h ⟨hall.1, hall.2.1⟩]

/-- When the call returns. -/
theorem applyRemoteSlot_ok (self : Region) (w : SlotWrite) (out : Outcome) (nowMs : ℤ)
    (m : GlobalRedis) :
    (∃ b, (applyRemoteSlot self w out nowMs m).1 = .ok b) ↔
      w.peer ≠ self ∧ w.sendable = true ∧ out = .ok := by
  by_cases h : w.peer ≠ self ∧ w.sendable = true
  · rw [applyRemoteSlot_of_sendable h.1 h.2]
    by_cases hout : out = .ok
    · simp [hout, h]
    · simp [hout]
  · obtain ⟨e, he⟩ := applyRemoteSlot_of_refused h out nowMs m
    rw [he]
    constructor
    · rintro ⟨b, hb⟩
      cases hb
    · exact fun hall => absurd ⟨hall.1, hall.2.1⟩ h

end Gdrl
