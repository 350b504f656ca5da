import Gdrl.Gateway
import Gdrl.Dict

/-!
# The G-counter

`GCounter` is the counter as a plain data structure. Each slot is raised by its own region
and merged by the maximum, so that with an absent slot read as 0 a merge is the join of
functions (`GCounter.read_merge`).

The hash at a `rl:global` key is the same counter in Redis : `HINCRBY` raises the region's
own slot, and `apply_remote_slot` merges those of the peers. What the two do differs in the
slots of value 0, which the hash has and the data structure may not, and where the own slot
leaves 64 bits, at which `HINCRBY` fails (`refines_iff`).
-/

namespace Gdrl

namespace Dict

variable {ρ : Type*} [DecidableEq ρ]

/-- A slot, an absent one read as 0. -/
def read (d : Dict ρ ℤ) (r : ρ) : ℤ := (d.get? r).getD 0

theorem read_set (d : Dict ρ ℤ) (r q : ρ) (v : ℤ) :
    (d.set r v).read q = if q = r then v else d.read q := by
  rw [read, get?_set]
  split_ifs
  · rfl
  · rfl

end Dict

/-- `GCounter` -/
structure GCounter (ρ : Type*) where
  region : ρ
  slots : Dict ρ ℤ

/-- Slots none of which is negative. -/
abbrev Slots (ρ : Type*) [DecidableEq ρ] := { d : Dict ρ ℤ // ∀ r, 0 ≤ d.read r }

namespace GCounter

variable {ρ : Type*} [DecidableEq ρ]

def new (region : ρ) : GCounter ρ := ⟨region, .empty⟩

/-- `from_slots` -/
def fromSlots (region : ρ) (slots : Dict ρ ℤ) : GCounter ρ := ⟨region, slots⟩

/-- `increment`, which refuses to decrement. -/
def increment (c : GCounter ρ) (n : ℤ) : Except PyError (GCounter ρ) :=
  if n < 0 then .error .value
  else .ok { c with slots := c.slots.set c.region (c.slots.read c.region + n) }

/-- One round of the loop in `merge`. -/
def mergeEntry (slots : Dict ρ ℤ) (e : ρ × ℤ) : Dict ρ ℤ :=
  if slots.read e.1 < e.2 then slots.set e.1 e.2 else slots

/-- `merge` -/
def merge (c : GCounter ρ) (other : Dict ρ ℤ) : GCounter ρ :=
  { c with slots := other.entries.foldl mergeEntry c.slots }

/-- `value` -/
def value (c : GCounter ρ) : ℤ := (c.slots.entries.map Prod.snd).sum

/-- The slots as they read. -/
def read (c : GCounter ρ) : ρ → ℤ := c.slots.read

/-! ## Merging -/

/-- What an entry makes of the value of slot `r`. -/
def raised (r : ρ) (x : ℤ) (e : ρ × ℤ) : ℤ := if r = e.1 then max x e.2 else x

theorem le_raised (r : ρ) (x : ℤ) (e : ρ × ℤ) : x ≤ raised r x e := by
  unfold raised
  split_ifs
  · exact le_max_left x e.2
  · exact le_rfl

theorem le_foldl_raised (r : ρ) (l : List (ρ × ℤ)) (x : ℤ) : x ≤ l.foldl (raised r) x := by
  induction l generalizing x with
  | nil => exact le_rfl
  | cons e l ih => exact (le_raised r x e).trans (ih _)

theorem foldl_raised_of_notMem {r : ρ} {l : List (ρ × ℤ)} (h : r ∉ l.map Prod.fst) (x : ℤ) :
    l.foldl (raised r) x = x := by
  induction l generalizing x with
  | nil => rfl
  | cons e l ih =>
    rw [List.map_cons, List.mem_cons, not_or] at h
    rw [List.foldl_cons, raised, if_neg h.1, ih h.2]

/-- The entries of a dictionary raise a slot to the one that they have for it. -/
theorem foldl_raised (r : ρ) (d : Dict ρ ℤ) {x : ℤ} (hx : 0 ≤ x) :
    d.entries.foldl (raised r) x = max x (d.read r) := by
  obtain ⟨l, hl⟩ := d
  rw [Dict.read, Dict.get?]
  dsimp only
  induction l with
  | nil => exact (max_eq_left hx).symm
  | cons e l ih =>
    rw [List.map_cons, List.nodup_cons] at hl
    rw [List.foldl_cons, raised, Dict.lookup_cons_eq]
    by_cases hr : r = e.1
    · rw [if_pos hr, if_pos hr, foldl_raised_of_notMem (hr ▸ hl.1), Option.getD_some]
    · rw [if_neg hr, if_neg hr, ih hl.2]

theorem read_mergeEntry (slots : Dict ρ ℤ) (e : ρ × ℤ) (r : ρ) :
    (mergeEntry slots e).read r = raised r (slots.read r) e := by
  unfold mergeEntry raised
  by_cases hr : r = e.1
  · rw [if_pos hr]
    split_ifs with hlt
    · rw [Dict.read_set, if_pos hr, hr, max_eq_right hlt.le]
    · rw [hr, max_eq_left (not_lt.mp hlt)]
  · rw [if_neg hr]
    split_ifs
    · rw [Dict.read_set, if_neg hr]
    · rfl

theorem read_merge_eq_foldl (c : GCounter ρ) (other : Dict ρ ℤ) (r : ρ) :
    (c.merge other).read r = other.entries.foldl (raised r) (c.read r) := by
  have hfold : ∀ (l : List (ρ × ℤ)) (slots : Dict ρ ℤ),
      (l.foldl mergeEntry slots).read r = l.foldl (raised r) (slots.read r) := by
    intro l
    induction l with
    | nil => exact fun _ => rfl
    | cons e l ih =>
      intro slots
      rw [List.foldl_cons, ih, read_mergeEntry, List.foldl_cons]
  exact hfold other.entries c.slots

/-- A merge is the join. -/
theorem read_merge {c : GCounter ρ} (hc : 0 ≤ c.read) (other : Dict ρ ℤ) :
    (c.merge other).read = c.read ⊔ other.read := by
  ext r
  rw [read_merge_eq_foldl, foldl_raised r other (hc r)]
  rfl

section Laws

variable (region : ρ) (a b c : Slots ρ)

theorem read_merge_slots : ((fromSlots region a.val).merge b.val).read = a.val.read ⊔ b.val.read :=
  read_merge a.property b.val

theorem merge_comm : ((fromSlots region a.val).merge b.val).read =
    ((fromSlots region b.val).merge a.val).read := by
  rw [read_merge_slots, read_merge_slots, sup_comm]

theorem merge_assoc : (((fromSlots region a.val).merge b.val).merge c.val).read =
    ((fromSlots region a.val).merge ((fromSlots region b.val).merge c.val).slots).read := by
  have hab : 0 ≤ ((fromSlots region a.val).merge b.val).read := by
    rw [read_merge_slots]
    exact le_sup_of_le_left a.property
  have hbc : ((fromSlots region b.val).merge c.val).slots.read = b.val.read ⊔ c.val.read :=
    read_merge_slots region b c
  rw [read_merge hab, read_merge_slots, read_merge a.property, hbc, sup_assoc]
  rfl

theorem merge_idem : ((fromSlots region a.val).merge a.val).read = a.val.read := by
  rw [read_merge_slots, sup_idem]

end Laws

/-! ## Incrementing -/

theorem increment_ofNat (c : GCounter ρ) (n : ℕ) :
    c.increment n = .ok { c with slots := c.slots.set c.region (c.slots.read c.region + n) } :=
  if_neg (not_lt.mpr (Int.natCast_nonneg n))

/-- The sum over the regions. -/
theorem value_eq (c : GCounter Region) : c.value = c.read .us + c.read .eu + c.read .asia := by
  obtain ⟨region, l, hl⟩ := c
  unfold value read Dict.read Dict.get?
  dsimp only
  induction l with
  | nil => rfl
  | cons e l ih =>
    obtain ⟨r, v⟩ := e
    rw [List.map_cons, List.nodup_cons] at hl
    have hr := Dict.lookup_of_notMem hl.1
    rw [List.map_cons, List.sum_cons, ih hl.2, Dict.lookup_cons_eq, Dict.lookup_cons_eq,
      Dict.lookup_cons_eq]
    cases r with
    | us => simp [hr, add_assoc]
    | eu => simp [hr, add_assoc, add_left_comm]
    | asia => simp [hr, add_comm]

end GCounter

/-! ## The counter in Redis -/

namespace Hash

/-- `HINCRBY key r n` succeeds : the numbers and their sum are 64-bit integers. -/
def fitsBy (h : Hash) (r : Region) (n : ℤ) : Bool :=
  fits64 n && fits64 (h.slot r) && fits64 (h.slot r + n)

/-- `HINCRBY key r n` -/
def incrBy (h : Hash) (r : Region) (n : ℤ) : Option (ℤ × Hash) :=
  let m := h.slot r + n
  if h.fitsBy r n then
    some (m, { h with slots := fun q => if q = r then some m else h.slots q })
  else none

theorem fitsBy_iff {h : Hash} {r : Region} (hr : 0 ≤ h.slot r) (n : ℕ) :
    h.fitsBy r n = true ↔ h.slot r + n < 2 ^ 63 := by
  simp only [fitsBy, fits64, Bool.and_eq_true, decide_eq_true_eq]
  omega

theorem incrBy_of_not_fitsBy {h : Hash} {r : Region} {n : ℤ} (hf : ¬ h.fitsBy r n = true) :
    h.incrBy r n = none := if_neg hf

theorem incrBy_of_fitsBy {h : Hash} {r : Region} {n : ℤ} (hf : h.fitsBy r n = true) :
    ∃ h', h.incrBy r n = some (h.slot r + n, h') ∧
      ∀ q, h'.slot q = if q = r then h.slot r + n else h.slot q := by
  refine ⟨_, if_pos hf, fun q => ?_⟩
  unfold slot
  dsimp only
  split_ifs
  · rfl
  · rfl

end Hash

namespace RegionalCounter

/-- A key of Redis. -/
structure Key where
  tier : Str
  userId : Str
  windowId : ℤ
  encodable : Scalar tier ∧ Scalar userId

/-- What `apply_remote_slot` merges : a value that Lua compares exactly. -/
abbrev PeerValue := { v : ℤ // 0 ≤ v ∧ v < 2 ^ 53 }

/-- Slots of peers. -/
structure PeerSlots (own : Region) where
  slots : Dict Region PeerValue
  foreign : ∀ e ∈ slots.entries, e.1 ≠ own

/-- What happens to the counter of one key. Each slot of a merge is applied at its moment. -/
inductive Op (own : Region)
  | increment (n : ℕ)
  | merge (peers : PeerSlots own) (nowMs : Region → ℤ)

def Key.name (k : Key) : Str := globalKey k.tier k.userId k.windowId

/-- The arguments of `apply_remote_slot`. -/
def Key.write (k : Key) (e : Region × PeerValue) : SlotWrite :=
  ⟨k.tier, k.userId, k.windowId, e.1, ⟨.int e.2.val, e.2.property.1⟩⟩

/-- The slots as `merge` gets them. -/
def PeerSlots.values {own : Region} (peers : PeerSlots own) : Dict Region ℤ :=
  peers.slots.mapValues Subtype.val

/-- `get_global`, the slots that are there. -/
def getGlobal (k : Key) (m : GlobalRedis) : Region → Option ℤ := (m k.name).slots

/-- `get_own_slot` -/
def getOwnSlot (own : Region) (k : Key) (m : GlobalRedis) : ℤ := (m k.name).slot own

/-- `HINCRBY` of the own slot, without effect where it ends with an error. -/
def incrOwn (own : Region) (k : Key) (m : GlobalRedis) (n : ℕ) : GlobalRedis :=
  ((m k.name).incrBy own n).elim m fun e => m.set k.name e.2

/-- One operation on Redis. -/
def step (own : Region) (k : Key) (m : GlobalRedis) : Op own → GlobalRedis
  | .increment n => incrOwn own k m n
  | .merge peers nowMs =>
    peers.slots.entries.foldl
      (fun m e => (applyRemoteSlot own (k.write e) .ok (nowMs e.1) m).2) m

/-- The same operation on a `GCounter`. -/
def counterStep {own : Region} (c : GCounter Region) : Op own → GCounter Region
  | .increment n =>
    match c.increment n with
    | .ok c => c
    | .error _ => c
  | .merge peers _ => c.merge peers.values

/-- Redis behind a sequence of operations on a key that is absent before and never expires. -/
def run (own : Region) (k : Key) (ops : List (Op own)) : GlobalRedis :=
  ops.foldl (step own k) fun _ => .empty

/-- A new `GCounter` behind the same operations. -/
def counter (own : Region) (ops : List (Op own)) : GCounter Region :=
  ops.foldl counterStep (.new own)

/-- What the operations add to the own slot. -/
def Op.amount {own : Region} : Op own → ℕ
  | .increment n => n
  | .merge _ _ => 0

def increments {own : Region} (ops : List (Op own)) : ℕ := (ops.map Op.amount).sum

/-- The hash and the `GCounter` read the same : every slot, the total and the own slot. -/
structure Agree (own : Region) (k : Key) (m : GlobalRedis) (c : GCounter Region) : Prop where
  slot : ∀ r, (getGlobal k m r).getD 0 = c.read r
  total : (m k.name).total = c.value
  own : getOwnSlot own k m = c.read own

section Step

variable {own : Region} (k : Key) (m : GlobalRedis)

theorem slot_maxMerge (nowMs : ℤ) (h : Hash) (r : Region) (v : PeerValue) (q : Region) :
    (maxMerge nowMs h r v.val).2.slot q = GCounter.raised q (h.slot q) (r, v.val) := by
  rw [Hash.slot, maxMerge_slots nowMs h r v.property.1 v.property.2, GCounter.raised]
  split_ifs with hq
  · rw [getD_mergeSlot _ v.property.1, hq, Hash.slot]
  · rfl

theorem sendable_write (e : Region × PeerValue) : (k.write e).sendable = true :=
  decide_eq_true k.encodable

/-- `apply_remote_slot` and a round of the loop in `merge` do the same to what a slot reads. -/
theorem slot_applyRemoteSlot {e : Region × PeerValue} (he : e.1 ≠ own) (nowMs : ℤ) (r : Region) :
    ((applyRemoteSlot own (k.write e) .ok nowMs m).2 k.name).slot r =
      GCounter.raised r ((m k.name).slot r) (e.1, e.2.val) := by
  rw [applyRemoteSlot_redis, if_pos ⟨he, sendable_write k e, rfl⟩]
  show ((m.set k.name (maxMerge nowMs (m k.name) e.1 e.2.val).2) k.name).slot r = _
  rw [GlobalRedis.set_self, slot_maxMerge]

theorem slot_step_merge (peers : PeerSlots own) (nowMs : Region → ℤ) (r : Region) :
    (step own k m (.merge peers nowMs) k.name).slot r =
      peers.values.entries.foldl (GCounter.raised r) ((m k.name).slot r) := by
  have hfold : ∀ (l : List (Region × PeerValue)) (m : GlobalRedis), (∀ e ∈ l, e.1 ≠ own) →
      ((l.foldl (fun m e => (applyRemoteSlot own (k.write e) .ok (nowMs e.1) m).2) m)
        k.name).slot r =
      (l.map fun e => (e.1, e.2.val)).foldl (GCounter.raised r) ((m k.name).slot r) := by
    intro l
    induction l with
    | nil => exact fun _ _ => rfl
    | cons e l ih =>
      intro m hl
      rw [List.forall_mem_cons] at hl
      rw [List.foldl_cons, ih _ hl.2, slot_applyRemoteSlot k m hl.1, List.map_cons,
        List.foldl_cons]
  exact hfold peers.slots.entries m peers.foreign

/-- `HINCRBY` raises the own slot while it fits. -/
theorem slot_step_increment (n : ℕ) (r : Region) :
    (step own k m (.increment n) k.name).slot r =
      if r = own ∧ (m k.name).fitsBy own n = true then (m k.name).slot own + n
      else (m k.name).slot r := by
  rw [step, incrOwn]
  by_cases hfit : (m k.name).fitsBy own n = true
  · obtain ⟨h, hincr, hslot⟩ := Hash.incrBy_of_fitsBy hfit
    rw [hincr, Option.elim_some, GlobalRedis.set_self, hslot]
    by_cases hr : r = own
    · rw [if_pos hr, if_pos ⟨hr, hfit⟩]
    · rw [if_neg hr, if_neg fun h => hr h.1]
  · rw [Hash.incrBy_of_not_fitsBy hfit, Option.elim_none, if_neg fun h => hfit h.2]

/-- No operation lowers a slot. -/
theorem slot_le_step (op : Op own) (r : Region) :
    (m k.name).slot r ≤ (step own k m op k.name).slot r := by
  cases op with
  | increment n =>
    rw [slot_step_increment]
    split_ifs with h
    · rw [h.1]
      omega
    · exact le_rfl
  | merge peers nowMs =>
    rw [slot_step_merge]
    exact GCounter.le_foldl_raised r _ _

/-- A merge has nothing for the own slot. -/
theorem own_notMem (peers : PeerSlots own) : own ∉ peers.values.entries.map Prod.fst := by
  intro hmem
  obtain ⟨e, he, heq⟩ := List.mem_map.mp hmem
  obtain ⟨x, hx, rfl⟩ := List.mem_map.mp he
  exact peers.foreign x hx heq

end Step

section Run

variable {own : Region} (k : Key) (ops : List (Op own))

theorem run_snoc (op : Op own) :
    run own k (ops ++ [op]) = step own k (run own k ops) op := by
  rw [run, run, List.foldl_append, List.foldl_cons, List.foldl_nil]

theorem counter_snoc (op : Op own) :
    counter own (ops ++ [op]) = counterStep (counter own ops) op := by
  rw [counter, counter, List.foldl_append, List.foldl_cons, List.foldl_nil]

theorem increments_snoc (op : Op own) : increments (ops ++ [op]) = increments ops + op.amount := by
  rw [increments, List.map_append, List.sum_append]
  rfl

/-- A counter stays its region's. -/
theorem counter_region : (counter own ops).region = own := by
  induction ops using List.reverseRecOn with
  | nil => rfl
  | append_singleton ops op ih =>
    rw [counter_snoc]
    cases op with
    | increment n =>
      rw [counterStep, GCounter.increment_ofNat]
      exact ih
    | merge peers nowMs => exact ih

theorem read_counter_increment (n : ℕ) (r : Region) :
    (counter own (ops ++ [.increment n])).read r =
      if r = own then (counter own ops).read own + n else (counter own ops).read r := by
  rw [counter_snoc, counterStep, GCounter.increment_ofNat, GCounter.read]
  dsimp only
  rw [Dict.read_set, counter_region]
  rfl

theorem read_counter_merge (peers : PeerSlots own) (nowMs : Region → ℤ) (r : Region) :
    (counter own (ops ++ [.merge peers nowMs])).read r =
      peers.values.entries.foldl (GCounter.raised r) ((counter own ops).read r) := by
  rw [counter_snoc]
  exact GCounter.read_merge_eq_foldl _ _ r

/-- The own slot of a `GCounter` is what it was incremented by. -/
theorem read_counter_own : (counter own ops).read own = increments ops := by
  induction ops using List.reverseRecOn with
  | nil => rfl
  | append_singleton ops op ih =>
    rw [increments_snoc]
    cases op with
    | increment n =>
      rw [read_counter_increment, if_pos rfl, ih, Nat.cast_add]
      rfl
    | merge peers nowMs =>
      rw [read_counter_merge, GCounter.foldl_raised_of_notMem (own_notMem peers), ih]
      rfl

/-- Peers' slots agree in every run. -/
theorem slot_run_of_ne {r : Region} (hr : r ≠ own) :
    (run own k ops k.name).slot r = (counter own ops).read r := by
  induction ops using List.reverseRecOn with
  | nil => rfl
  | append_singleton ops op ih =>
    rw [run_snoc]
    cases op with
    | increment n =>
      rw [slot_step_increment, if_neg fun h => hr h.1, read_counter_increment, if_neg hr, ih]
    | merge peers nowMs => rw [slot_step_merge, read_counter_merge, ih]

theorem own_step_merge (m : GlobalRedis) (peers : PeerSlots own) (nowMs : Region → ℤ) :
    (step own k m (.merge peers nowMs) k.name).slot own = (m k.name).slot own := by
  rw [slot_step_merge, GCounter.foldl_raised_of_notMem (own_notMem peers)]

theorem slot_run_nonneg (r : Region) : 0 ≤ (run own k ops k.name).slot r := by
  induction ops using List.reverseRecOn with
  | nil => exact le_rfl
  | append_singleton ops op ih =>
    rw [run_snoc]
    exact ih.trans (slot_le_step k _ op r)

/-- The own slot in Redis is a 64-bit integer in every run. -/
theorem own_run_lt : (run own k ops k.name).slot own < 2 ^ 63 := by
  induction ops using List.reverseRecOn with
  | nil => exact show (0 : ℤ) < 2 ^ 63 by norm_num
  | append_singleton ops op ih =>
    rw [run_snoc]
    cases op with
    | increment n =>
      rw [slot_step_increment]
      split_ifs with h
      · exact (Hash.fitsBy_iff (slot_run_nonneg k ops own) n).mp h.2
      · exact ih
    | merge peers nowMs =>
      rw [own_step_merge]
      exact ih

/-- As long as the increments fit, `HINCRBY` has not failed. -/
theorem own_run (h : increments ops < 2 ^ 63) :
    (run own k ops k.name).slot own = increments ops := by
  induction ops using List.reverseRecOn with
  | nil => rfl
  | append_singleton ops op ih =>
    rw [increments_snoc] at h ⊢
    have hown := ih (Nat.lt_of_le_of_lt (Nat.le_add_right _ _) h)
    rw [run_snoc, Nat.cast_add]
    cases op with
    | increment n =>
      have hlt : (run own k ops k.name).slot own + n < 2 ^ 63 := by
        rw [hown]
        exact_mod_cast h
      have hfit := (Hash.fitsBy_iff (slot_run_nonneg k ops own) n).mpr hlt
      rw [slot_step_increment, if_pos ⟨rfl, hfit⟩, hown]
      rfl
    | merge peers nowMs =>
      rw [own_step_merge, hown]
      exact (add_zero _).symm

theorem agree_iff :
    Agree own k (run own k ops) (counter own ops) ↔ increments ops < 2 ^ 63 := by
  constructor
  · intro h
    have hown : (run own k ops k.name).slot own = (counter own ops).read own := h.own
    have hlt := own_run_lt k ops
    rw [hown, read_counter_own] at hlt
    exact_mod_cast hlt
  · intro h
    have hslot : ∀ r, (run own k ops k.name).slot r = (counter own ops).read r := by
      intro r
      by_cases hr : r = own
      · rw [hr, own_run k ops h, read_counter_own]
      · exact slot_run_of_ne k ops hr
    refine ⟨hslot, ?_, hslot own⟩
    rw [Hash.total, hslot, hslot, hslot, GCounter.value_eq]

theorem total_mono (op : Op own) :
    (run own k ops k.name).total ≤ (run own k (ops ++ [op]) k.name).total := by
  have hslot := slot_le_step k (run own k ops) op
  rw [run_snoc, Hash.total, Hash.total]
  exact add_le_add (add_le_add (hslot .us) (hslot .eu)) (hslot .asia)

theorem value_mono (op : Op own) :
    (counter own ops).value ≤ (counter own (ops ++ [op])).value := by
  have hread : ∀ r, (counter own ops).read r ≤ (counter own (ops ++ [op])).read r := by
    intro r
    cases op with
    | increment n =>
      rw [read_counter_increment]
      split_ifs with hr
      · rw [hr]
        omega
      · exact le_rfl
    | merge peers nowMs =>
      rw [read_counter_merge]
      exact GCounter.le_foldl_raised r _ _
  rw [GCounter.value_eq, GCounter.value_eq]
  exact add_le_add (add_le_add (hread .us) (hread .eu)) (hread .asia)

/-- In Redis a merge is the join as well. -/
theorem slot_run_merge (peers : PeerSlots own) (nowMs : Region → ℤ) :
    (run own k (ops ++ [.merge peers nowMs]) k.name).slot =
      (run own k ops k.name).slot ⊔ peers.values.read := by
  ext r
  rw [run_snoc, slot_step_merge, GCounter.foldl_raised r _ (slot_run_nonneg k ops r)]
  rfl

end Run

/-- **Refinement.** Behind every sequence of increments and merges the hash and the
`GCounter` read the same exactly as long as the increments add up to less than `2 ^ 63`. No
operation lowers the total of either. A merge into the hash is the join of the slots, and
so is that of a `GCounter`, which is commutative, associative and idempotent. -/
theorem refines_iff (own : Region) (k : Key) (ops : List (Op own)) :
    (Agree own k (run own k ops) (counter own ops) ↔ increments ops < 2 ^ 63) ∧
    (∀ op, (run own k ops k.name).total ≤ (run own k (ops ++ [op]) k.name).total ∧
      (counter own ops).value ≤ (counter own (ops ++ [op])).value) ∧
    (∀ peers nowMs, (run own k (ops ++ [.merge peers nowMs]) k.name).slot =
      (run own k ops k.name).slot ⊔ peers.values.read) ∧
    ∀ a b c : Slots Region,
      ((GCounter.fromSlots own a.val).merge b.val).read = a.val.read ⊔ b.val.read ∧
      ((GCounter.fromSlots own a.val).merge b.val).read =
        ((GCounter.fromSlots own b.val).merge a.val).read ∧
      (((GCounter.fromSlots own a.val).merge b.val).merge c.val).read =
        ((GCounter.fromSlots own a.val).merge
          ((GCounter.fromSlots own b.val).merge c.val).slots).read ∧
      ((GCounter.fromSlots own a.val).merge a.val).read = a.val.read :=
  ⟨agree_iff k ops, fun op => ⟨total_mono k ops op, value_mono ops op⟩,
    fun peers nowMs => slot_run_merge k ops peers nowMs, fun a b c =>
    ⟨GCounter.read_merge_slots own a b, GCounter.merge_comm own a b,
      GCounter.merge_assoc own a b c, GCounter.merge_idem own a⟩⟩

def sampleKey : Key := ⟨str "free", str "u_1", 7, by decide⟩

/-- A slot that is full, and one more. -/
def fullOps : List (Op .us) := [.increment (2 ^ 63 - 1), .increment 1]

/-- `HINCRBY` fails at one more. -/
theorem not_refines :
    getOwnSlot .us sampleKey (run .us sampleKey fullOps) = 2 ^ 63 - 1 ∧
    (counter .us fullOps).read .us = 2 ^ 63 ∧
    ¬ Agree .us sampleKey (run .us sampleKey fullOps) (counter .us fullOps) := by
  have hown : getOwnSlot .us sampleKey (run .us sampleKey fullOps) = 2 ^ 63 - 1 := by
    decide +kernel
  have hread : (counter .us fullOps).read .us = 2 ^ 63 := by decide +kernel
  refine ⟨hown, hread, fun h => ?_⟩
  have := h.own
  rw [hown, hread] at this
  omega

end RegionalCounter

end Gdrl
