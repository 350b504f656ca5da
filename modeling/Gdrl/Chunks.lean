import Gdrl.Scan
import Mathlib.Algebra.Order.Floor.Ring
import Mathlib.Data.Rat.Floor
import Mathlib.Tactic.Ring

/-!
# The chunks of a pass

`reconcileOnce` is `Reconciler.reconcile_once` over the pairs that the scan yields, from the
first key to the statistics. `Sweep` is what it holds between two pairs : the chunk, and what
it has published so far. Of every part of the scan the chunk and the published envelopes hold
the own slots of the pairs seen so far (`Covers`), and a chunk goes out as soon as it is full.
So the envelopes together hold the own slots of all pairs and nothing else
(`publishes_own_slots`).
-/

namespace Gdrl

/-- `ReconcileStats` -/
structure ReconcileStats where
  keysProcessed : ℕ
  chunksPublished : ℕ
  deriving DecidableEq

/-- `reconcile_once` between two pairs. -/
structure Sweep where
  chunk : Dict (Str × Str) SlotValue
  published : List ReconcileEnvelope
  keys : ℕ
  chunks : ℕ

/-- The region's own slot, where it is there and not negative. -/
def Hash.own (r : Region) (h : Hash) : Option SlotValue :=
  (h.slots r).bind fun n => if hn : 0 ≤ n then some ⟨.int n, hn⟩ else none

namespace Sweep

def start : Sweep := ⟨Dict.empty, [], 0, 0⟩

/-- The arguments of a pass : the interpreter, the region, `chunk_size`, and for each chunk
the time at which it goes out and how its `PUBLISH` ends. -/
structure Config where
  py : Python
  region : Region
  chunkSize : ℤ
  tsMs : ℕ → ℤ
  out : ℕ → Outcome

variable (cfg : Config) (m : GlobalRedis) (w : ℤ)

/-- The envelope of the chunk. -/
def envelope (s : Sweep) : ReconcileEnvelope := ⟨cfg.region, w, cfg.tsMs s.chunks, s.chunk, .int⟩

/-- `_publish_chunk`, and the empty chunk behind it. -/
def publish (s : Sweep) : Except PyError Sweep :=
  match serializeReconcile cfg.py (s.envelope cfg w), cfg.out s.chunks with
  | .error e, _ => .error e
  | .ok _, .ok =>
    .ok ⟨Dict.empty, s.published ++ [s.envelope cfg w], s.keys, s.chunks + 1⟩
  | .ok _, _ => .error .redis

/-- One pair of the scan. -/
def take (s : Sweep) (k : Str × Str) : Except PyError Sweep := do
  match ← Pass.ownValue cfg.region (m (globalKey k.1 k.2 w)) with
  | none => return s
  | some v =>
    let s := { s with chunk := s.chunk.set k v, keys := s.keys + 1 }
    if cfg.chunkSize ≤ s.chunk.size then s.publish cfg w else return s

end Sweep

/-- `Reconciler.reconcile_once` on the pairs that the scan yields : what it publishes, and
what it returns. -/
def reconcileOnce (cfg : Sweep.Config) (m : GlobalRedis) (w : ℤ) (pairs : List (Str × Str)) :
    Except PyError (List ReconcileEnvelope × ReconcileStats) := do
  let s ← pairs.foldlM (Sweep.take cfg m w) Sweep.start
  let s ← if s.chunk.size = 0 then .ok s else s.publish cfg w
  return (s.published, ⟨s.keys, s.chunks⟩)

/-- A pair in a sweep is a key in a pass : the same chunk, which goes out if it is full. -/
theorem Sweep.take_of_scan {cfg : Config} {m : GlobalRedis} {w : ℤ} {s : Sweep} {key : Str}
    {k : Str × Str} (hkey : scanned key = some k) (hroom : (s.chunk.size : ℤ) < cfg.chunkSize)
    {p : Pass} (hscan : Pass.scan cfg.region m ⟨w, s.chunk, false⟩ key = .ok p) :
    ∃ n, s.take cfg m w k =
      let s' := { s with chunk := p.chunk, keys := n }
      if p.full cfg.chunkSize then s'.publish cfg w else .ok s' := by
  rw [Pass.scan, hkey] at hscan
  dsimp only at hscan
  rw [take]
  cases hvalue : Pass.ownValue cfg.region (m (globalKey k.1 k.2 w)) with
  | error e =>
    rw [hvalue] at hscan
    cases hscan
  | ok v =>
    rw [hvalue] at hscan
    cases v with
    | none =>
      obtain rfl := Except.ok.inj hscan
      refine ⟨s.keys, (if_neg ?_).symm⟩
      simp [Pass.full, not_le.mpr hroom]
    | some v =>
      obtain rfl := Except.ok.inj hscan
      refine ⟨s.keys + 1, ?_⟩
      have hne : (s.chunk.set k v).size ≠ 0 :=
        Dict.size_ne_zero_of_get? (k := k) (v := v) (by simp)
      have hfull : Pass.full cfg.chunkSize ⟨w, s.chunk.set k v, false⟩ =
          decide (cfg.chunkSize ≤ (s.chunk.set k v).size) := by simp [Pass.full, hne]
      dsimp only
      rw [hfull]
      show (if cfg.chunkSize ≤ ((s.chunk.set k v).size : ℤ) then _ else _) = _
      split_ifs with h h' h'
      · rfl
      · exact absurd (decide_eq_true h) h'
      · exact absurd (of_decide_eq_true h') h
      · rfl

/-! ## Envelopes that print -/

theorem printableMembers_iff {kvs : List (Str × Json)} :
    Json.printableMembers kvs = true ↔ ∀ e ∈ kvs, e.2.printable = true := by
  induction kvs with
  | nil => simp [Json.printableMembers]
  | cons e kvs ih => simp [Json.printableMembers, ih]

/-- Slot values are integers that print. -/
def PrintableSlots (slots : Dict (Str × Str) SlotValue) : Prop :=
  ∀ e ∈ slots.entries, ∃ n, e.2.val = .int n ∧ Printable n

/-- An envelope whose numbers print is serialized. -/
theorem exists_serialize (py : Python) {r : Region} {w tsMs : ℤ}
    {slots : Dict (Str × Str) SlotValue} (hw : Printable w) (hts : Printable tsMs)
    (hslots : PrintableSlots slots) :
    ∃ raw, serializeReconcile py ⟨r, w, tsMs, slots, .int⟩ = .ok raw := by
  have hmembers : Json.printableMembers (Dict.ofPairs (slotItems slots)).entries = true := by
    refine printableMembers_iff.mpr fun e he => ?_
    obtain ⟨x, hx, rfl⟩ := List.mem_map.mp (Dict.mem_of_mem_ofPairs he)
    obtain ⟨n, hn, hprint⟩ := hslots x hx
    dsimp only
    rw [hn]
    exact decide_eq_true hprint
  have hprint : (ReconcileEnvelope.toJson ⟨r, w, tsMs, slots, .int⟩).printable = true := by
    simp [ReconcileEnvelope.toJson, Json.printable, Json.printableMembers, VersionOne.toJson, hw,
      hts, hmembers, show Printable 1 by decide]
  exact ⟨_, by rw [serializeReconcile, dumps, if_pos hprint]; rfl⟩

/-! ## The loop -/

/-- What the local Redis holds are integers that `int` reads and that are not negative. -/
def GlobalRedis.Natural (m : GlobalRedis) : Prop :=
  ∀ key q n, (m key).slots q = some n → 0 ≤ n ∧ Printable n

theorem GlobalRedis.Natural.ownValue {m : GlobalRedis} (h : m.Natural) (r : Region) (key : Str) :
    Pass.ownValue r (m key) = .ok ((m key).own r) := by
  refine if_pos (List.all_eq_true.mpr fun q _ => ?_)
  cases hs : (m key).slots q with
  | none => rfl
  | some n => exact decide_eq_true (h key q n hs).2

theorem own_eq_some {h : Hash} {r : Region} {v : SlotValue} :
    h.own r = some v ↔ ∃ n, ∃ hn : 0 ≤ n, h.slots r = some n ∧ v = ⟨.int n, hn⟩ := by
  rw [Hash.own, Option.bind_eq_some_iff]
  constructor
  · rintro ⟨n, hs, hv⟩
    split_ifs at hv with hn
    exact ⟨n, hn, hs, (Option.some.inj hv).symm⟩
  · rintro ⟨n, hn, hs, rfl⟩
    exact ⟨n, hs, dif_pos hn⟩

namespace Sweep

/-- The numbers of the pass print, and every `PUBLISH` succeeds. -/
structure Config.Publishes (cfg : Config) (w : ℤ) : Prop where
  window : Printable w
  ts : ∀ i, Printable (cfg.tsMs i)
  out : ∀ i, cfg.out i = .ok

/-- The slots that are published or in the chunk. -/
def entries (s : Sweep) : List ((Str × Str) × SlotValue) :=
  (s.published.flatMap fun env => env.slots.entries) ++ s.chunk.entries

/-- Between two pairs : the own slots of the pairs seen so far, in full envelopes and a chunk
that is not full. -/
structure Covers (cfg : Config) (m : GlobalRedis) (w : ℤ) (seen : List (Str × Str)) (s : Sweep) :
    Prop where
  holds : ∀ k v, (k, v) ∈ s.entries ↔ k ∈ seen ∧ (m (globalKey k.1 k.2 w)).own cfg.region = some v
  sent : ∀ env ∈ s.published, env.origin = cfg.region ∧ env.windowId = w ∧
    (env.slots.size : ℤ) = cfg.chunkSize
  chunks : s.chunks = s.published.length
  distinct : seen.Nodup → (s.entries.map Prod.fst).Nodup ∧ s.keys = s.entries.length

variable {cfg : Config} {m : GlobalRedis} {w : ℤ} {seen : List (Str × Str)} {s : Sweep}

/-- A pair without an own slot. -/
theorem Covers.skip (h : Covers cfg m w seen s) {k : Str × Str}
    (hk : (m (globalKey k.1 k.2 w)).own cfg.region = none) : Covers cfg m w (seen ++ [k]) s := by
  refine ⟨fun x v => ?_, h.sent, h.chunks, fun hd => h.distinct (List.nodup_append.mp hd).1⟩
  rw [h.holds, List.mem_append, List.mem_singleton, or_and_right]
  refine (or_iff_left ?_).symm
  rintro ⟨rfl, hx⟩
  rw [hk] at hx
  exact absurd hx nofun

/-- A pair whose own slot goes into the chunk. -/
theorem Covers.add (h : Covers cfg m w seen s) {k : Str × Str} {v : SlotValue}
    (hk : (m (globalKey k.1 k.2 w)).own cfg.region = some v) :
    Covers cfg m w (seen ++ [k]) { s with chunk := s.chunk.set k v, keys := s.keys + 1 } := by
  refine ⟨fun x u => ?_, h.sent, h.chunks, fun hd => ?_⟩
  · have hold := h.holds x u
    simp only [entries, List.mem_append, Dict.mem_entries, Dict.get?_set, List.mem_singleton] at *
    by_cases hx : x = k
    · subst hx
      rw [if_pos rfl]
      constructor
      · rintro (hu | hu)
        · exact ⟨Or.inr rfl, (hold.mp (Or.inl hu)).2⟩
        · exact ⟨Or.inr rfl, hk.trans hu⟩
      · exact fun hu => Or.inr (hk.symm.trans hu.2)
    · rw [if_neg hx, hold]
      simp [hx]
  · obtain ⟨hd, -, hnew⟩ := List.nodup_append.mp hd
    obtain ⟨hkeys, hlen⟩ := h.distinct hd
    have hk' : k ∉ s.entries.map Prod.fst := by
      intro hmem
      obtain ⟨⟨x, u⟩, hx, rfl⟩ := List.mem_map.mp hmem
      exact hnew x ((h.holds x u).mp hx).1 x (List.mem_singleton_self x) rfl
    have hset : entries { s with chunk := s.chunk.set k v, keys := s.keys + 1 } =
        s.entries ++ [(k, v)] := by
      have hchunk : k ∉ s.chunk.entries.map Prod.fst := fun hmem =>
        hk' (by rw [entries, List.map_append]; exact List.mem_append_right _ hmem)
      rw [entries, entries, Dict.entries_set_of_notMem hchunk, List.append_assoc]
    rw [hset, List.map_append, List.length_append, hlen]
    refine ⟨List.nodup_append.mpr ⟨hkeys, List.nodup_singleton k, ?_⟩, rfl⟩
    rintro x hx y hy rfl
    exact hk' ((List.mem_singleton.mp hy : x = k) ▸ hx)

/-- The chunk goes out. -/
theorem publish_eq (hm : m.Natural) (hcfg : cfg.Publishes w) (h : Covers cfg m w seen s) :
    s.publish cfg w =
      .ok ⟨Dict.empty, s.published ++ [s.envelope cfg w], s.keys, s.chunks + 1⟩ := by
  have hslots : PrintableSlots s.chunk := by
    rintro ⟨k, v⟩ he
    obtain ⟨n, hn, hs, rfl⟩ := own_eq_some.mp ((h.holds k v).mp (List.mem_append_right _ he)).2
    exact ⟨n, rfl, (hm _ _ _ hs).2⟩
  obtain ⟨raw, hraw⟩ := exists_serialize cfg.py hcfg.window (hcfg.ts s.chunks) hslots
  rw [publish, envelope, hraw, hcfg.out]

/-- A full chunk that has gone out. -/
theorem Covers.publish (h : Covers cfg m w seen s) (hfull : (s.chunk.size : ℤ) = cfg.chunkSize) :
    Covers cfg m w seen
      ⟨Dict.empty, s.published ++ [s.envelope cfg w], s.keys, s.chunks + 1⟩ := by
  have hentries : entries ⟨Dict.empty, s.published ++ [s.envelope cfg w], s.keys, s.chunks + 1⟩ =
      s.entries := by
    simp [entries, envelope, Dict.empty]
  refine ⟨fun k v => by rw [hentries]; exact h.holds k v, fun env henv => ?_, ?_, ?_⟩
  · rcases List.mem_append.mp henv with henv | henv
    · exact h.sent env henv
    · obtain rfl := List.mem_singleton.mp henv
      exact ⟨rfl, rfl, hfull⟩
  · simp [h.chunks]
  · rw [hentries]
    exact h.distinct

/-- One pair keeps it so. -/
theorem Covers.take (hm : m.Natural) (hcfg : cfg.Publishes w) (h : Covers cfg m w seen s)
    (hroom : (s.chunk.size : ℤ) < cfg.chunkSize) (k : Str × Str) :
    ∃ s', s.take cfg m w k = .ok s' ∧ Covers cfg m w (seen ++ [k]) s' ∧
      (s'.chunk.size : ℤ) < cfg.chunkSize := by
  rw [Sweep.take, hm.ownValue]
  cases hk : (m (globalKey k.1 k.2 w)).own cfg.region with
  | none => exact ⟨s, rfl, h.skip hk, hroom⟩
  | some v =>
    have hsize := s.chunk.size_set_le k v
    have hadd := h.add hk
    show ∃ s', (if cfg.chunkSize ≤ ((s.chunk.set k v).size : ℤ) then _ else _) = Except.ok s' ∧ _
    split_ifs with hfull
    · refine ⟨_, publish_eq hm hcfg hadd, hadd.publish ?_, ?_⟩
      · show ((s.chunk.set k v).size : ℤ) = cfg.chunkSize
        omega
      · show (0 : ℤ) < cfg.chunkSize
        omega
    · exact ⟨_, rfl, hadd, not_le.mp hfull⟩

/-- The loop. -/
theorem Covers.foldlM (hm : m.Natural) (hcfg : cfg.Publishes w) (h : Covers cfg m w seen s)
    (hroom : (s.chunk.size : ℤ) < cfg.chunkSize) (pairs : List (Str × Str)) :
    ∃ s', pairs.foldlM (Sweep.take cfg m w) s = .ok s' ∧ Covers cfg m w (seen ++ pairs) s' ∧
      (s'.chunk.size : ℤ) < cfg.chunkSize := by
  induction pairs generalizing seen s with
  | nil => exact ⟨s, rfl, by rwa [List.append_nil], hroom⟩
  | cons k pairs ih =>
    obtain ⟨s', hs', hcovers, hroom'⟩ := h.take hm hcfg hroom k
    obtain ⟨t, ht, hcovers', hroom''⟩ := ih hcovers hroom'
    refine ⟨t, ?_, by rwa [List.append_assoc] at hcovers', hroom''⟩
    rw [List.foldlM_cons, hs']
    exact ht

theorem covers_start : Covers cfg m w [] start :=
  ⟨fun k v => by simp [entries, start, Dict.empty], fun _ h => absurd h List.not_mem_nil, rfl,
    fun _ => ⟨List.nodup_nil, rfl⟩⟩

/-- The slots in full envelopes and a chunk. -/
theorem Covers.length_entries (h : Covers cfg m w seen s) :
    (s.entries.length : ℤ) = cfg.chunkSize * s.chunks + s.chunk.size := by
  have hsum : ∀ envs : List ReconcileEnvelope,
      (∀ env ∈ envs, (env.slots.size : ℤ) = cfg.chunkSize) →
      ((envs.flatMap fun env => env.slots.entries).length : ℤ) = cfg.chunkSize * envs.length := by
    intro envs
    induction envs with
    | nil => simp
    | cons env envs ih =>
      intro henvs
      rw [List.flatMap_cons, List.length_append, List.length_cons]
      push_cast
      rw [ih fun x hx => henvs x (List.mem_cons_of_mem env hx),
        ← henvs env List.mem_cons_self, Dict.size]
      ring
  rw [entries, List.length_append, h.chunks, ← hsum _ fun env henv => (h.sent env henv).2.2,
    Dict.size]
  push_cast
  ring

/-- Full chunks and one that is not : so many chunks are needed. -/
theorem ceil_chunks {c : ℤ} (n size : ℕ) (hroom : (size : ℤ) < c) :
    ⌈((c * n + size : ℤ) : ℚ) / c⌉ = n + if size = 0 then 0 else 1 := by
  have hc : (0 : ℚ) < c := by exact_mod_cast (Int.natCast_nonneg size).trans_lt hroom
  have hle : (size : ℚ) < c := by exact_mod_cast hroom
  rw [Int.ceil_eq_iff, lt_div_iff₀ hc, div_le_iff₀ hc]
  split_ifs with hsize
  · subst hsize
    push_cast
    constructor <;> linarith
  · have hpos : (0 : ℚ) < size := by exact_mod_cast Nat.pos_of_ne_zero hsize
    push_cast
    constructor <;> linarith

/-- The envelopes of a whole pass : those of the loop, and the last chunk. -/
theorem reconcileOnce_eq (hm : m.Natural) (hcfg : cfg.Publishes w) (hsize : 1 ≤ cfg.chunkSize)
    (pairs : List (Str × Str)) :
    ∃ s : Sweep, Covers cfg m w pairs s ∧ (s.chunk.size : ℤ) < cfg.chunkSize ∧
      reconcileOnce cfg m w pairs = .ok (if s.chunk.size = 0 then (s.published, ⟨s.keys, s.chunks⟩)
        else (s.published ++ [s.envelope cfg w], ⟨s.keys, s.chunks + 1⟩)) := by
  have hroom : (start.chunk.size : ℤ) < cfg.chunkSize := by
    show (0 : ℤ) < cfg.chunkSize
    omega
  obtain ⟨s, hs, hcovers, hroom⟩ := covers_start.foldlM hm hcfg hroom pairs
  refine ⟨s, hcovers, hroom, ?_⟩
  rw [reconcileOnce, hs]
  show (do
    let s ← if s.chunk.size = 0 then Except.ok s else s.publish cfg w
    return (s.published, (⟨s.keys, s.chunks⟩ : ReconcileStats))) = _
  rw [publish_eq hm hcfg hcovers]
  split_ifs <;> rfl

end Sweep

open Sweep in
/-- **A pass publishes the own slots.** Whatever the scan yields, in any order and any number
of times, the envelopes of the pass hold the own slot of every pair that has one, and nothing
else. None is empty or larger than a chunk. Where the scan yields no pair twice, neither do the
envelopes, and the statistics are their numbers. -/
theorem publishes_own_slots {cfg : Config} {m : GlobalRedis} {w : ℤ} (hm : m.Natural)
    (hcfg : cfg.Publishes w) (hsize : 1 ≤ cfg.chunkSize) (pairs : List (Str × Str)) :
    ∃ envs stats, reconcileOnce cfg m w pairs = .ok (envs, stats) ∧
      (∀ k v, (∃ env ∈ envs, env.slots.get? k = some v) ↔ k ∈ pairs ∧
        ∃ n, (m (globalKey k.1 k.2 w)).slots cfg.region = some n ∧ v.val = .int n) ∧
      (∀ env ∈ envs, env.slots.size ≠ 0 ∧ (env.slots.size : ℤ) ≤ cfg.chunkSize ∧
        env.origin = cfg.region ∧ env.windowId = w) ∧
      (pairs.Nodup → ((envs.flatMap fun env => env.slots.entries).map Prod.fst).Nodup ∧
        stats.keysProcessed = (envs.flatMap fun env => env.slots.entries).length ∧
        (stats.chunksPublished : ℤ) = ⌈(stats.keysProcessed : ℚ) / cfg.chunkSize⌉) := by
  obtain ⟨s, hcovers, hroom, hrun⟩ := reconcileOnce_eq hm hcfg hsize pairs
  obtain ⟨envs, stats, hresult, hflat, hmem, hstats⟩ : ∃ envs stats,
      reconcileOnce cfg m w pairs = .ok (envs, stats) ∧
      (envs.flatMap fun env => env.slots.entries) = s.entries ∧
      (∀ env ∈ envs, env ∈ s.published ∨ s.chunk.size ≠ 0 ∧ env = s.envelope cfg w) ∧
      stats = ⟨s.keys, s.chunks + if s.chunk.size = 0 then 0 else 1⟩ := by
    split_ifs at hrun with hempty
    · refine ⟨_, _, hrun, ?_, fun env henv => Or.inl henv, by rw [if_pos hempty]; rfl⟩
      rw [entries, List.length_eq_zero_iff.mp hempty, List.append_nil]
    · refine ⟨_, _, hrun, by simp [entries, envelope], fun env henv => ?_, by rw [if_neg hempty]⟩
      rcases List.mem_append.mp henv with henv | henv
      · exact Or.inl henv
      · exact Or.inr ⟨hempty, List.mem_singleton.mp henv⟩
  refine ⟨envs, stats, hresult, fun k v => ?_, fun env henv => ?_, fun hd => ?_⟩
  · have hholds := hcovers.holds k v
    rw [← hflat, List.mem_flatMap] at hholds
    simp only [Dict.mem_entries] at hholds
    rw [hholds, own_eq_some]
    refine and_congr_right fun _ => ⟨?_, ?_⟩
    · rintro ⟨n, hn, hs, rfl⟩
      exact ⟨n, hs, rfl⟩
    · rintro ⟨n, hs, hv⟩
      exact ⟨n, (hm _ _ _ hs).1, hs, Subtype.ext hv⟩
  · rcases hmem env henv with henv | ⟨hne, rfl⟩
    · obtain ⟨horigin, hwindow, hfull⟩ := hcovers.sent env henv
      exact ⟨by omega, hfull.le, horigin, hwindow⟩
    · exact ⟨hne, hroom.le, rfl, rfl⟩
  · obtain ⟨hkeys, hlen⟩ := hcovers.distinct hd
    rw [hflat, hstats]
    refine ⟨hkeys, hlen, ?_⟩
    have hceil := ceil_chunks s.chunks s.chunk.size hroom
    rw [← hcovers.length_entries, ← hlen] at hceil
    dsimp only
    rw [show ((s.keys : ℚ)) = ((s.keys : ℤ) : ℚ) by norm_cast, hceil]
    push_cast
    rfl

/-- One user has a slot of a peer only, all others have slots of two regions. -/
def sampleSlots : GlobalRedis := fun key =>
  if key = globalKey (str "free") (str "b") 7 then ⟨fun r => if r = .eu then some 9 else none, none⟩
  else ⟨fun r => if r = .asia then none else some 5, none⟩

/-- A scan that returns one key twice. -/
def samplePairs : List (Str × Str) :=
  [(str "free", str "a"), (str "free", str "b"), (str "premium", str "a"), (str "free", str "a"),
    (str "premium", str "c")]

theorem natural_sampleSlots : sampleSlots.Natural := by
  intro key q n h
  unfold sampleSlots at h
  split_ifs at h
  · dsimp only at h
    split_ifs at h
    obtain rfl := Option.some.inj h
    exact ⟨by decide, by decide⟩
  · dsimp only at h
    split_ifs at h
    obtain rfl := Option.some.inj h
    exact ⟨by decide, by decide⟩

/-- Chunks of two. -/
def sampleConfig : Sweep.Config := ⟨samplePython, .us, 2, fun _ => 420000, fun _ => .ok⟩

theorem publishes_own_slots_sample :
    ∃ envs stats, reconcileOnce sampleConfig sampleSlots 7 samplePairs = .ok (envs, stats) ∧
      stats = ⟨4, 2⟩ ∧ (∀ env ∈ envs, (env.slots.size : ℤ) ≤ 2) ∧
      ∃ env ∈ envs, env.slots.get? (str "premium", str "c") = some ⟨.int 5, by decide⟩ := by
  have hpublishes : sampleConfig.Publishes 7 :=
    ⟨by decide, fun _ => (by decide : Printable 420000), fun _ => rfl⟩
  obtain ⟨envs, stats, hrun, hholds, hsizes, -⟩ :=
    publishes_own_slots natural_sampleSlots hpublishes (by decide) samplePairs
  have hstats : (reconcileOnce sampleConfig sampleSlots 7 samplePairs).toOption.map Prod.snd =
      some ⟨4, 2⟩ := by decide +kernel
  rw [hrun] at hstats
  refine ⟨envs, stats, hrun, Option.some.inj hstats, fun env henv => (hsizes env henv).2.1, ?_⟩
  exact (hholds _ _).mpr ⟨by decide, 5, by decide, rfl⟩

end Gdrl
