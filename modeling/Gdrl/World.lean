import Gdrl.Reconciler

/-!
# The three regions

`World` puts the parts together : the gateways of `Cluster`, and for each region a relay
with its partition table and its buffer, and a reconciler. `sent` are all messages ever
published. A message can be delivered to any relay, at any time and any number of times,
or never, so that channels may lose, repeat and reorder.

Every event is one step of one party, up to its next Redis command.
-/

namespace Gdrl

structure World where
  cluster : Cluster
  relays : Region → Relay.Task
  tables : Region → PartitionTable
  buffers : Region → FailoverBuffer SlotWrite
  passes : Region → Option Pass
  sent : List (List Byte)

namespace World

inductive Event
  /-- A step of the gateways, or the expiry of a key. -/
  | gateway (e : Cluster.Event)
  /-- The relay of `q` takes a message in. -/
  | deliver (q : Region) (raw : List Byte)
  /-- It applies the next slot of the message. -/
  | apply (q : Region) (out : Outcome) (redisMs : ℤ)
  | addRule (q : Region) (f g : Str)
  | removeRule (q : Region) (f g : Str)
  | clearRules (q : Region)
  /-- `reconcile_once` starts on a window. -/
  | startPass (r : Region) (window : ℤ)
  /-- It reads a key that `SCAN` has returned. -/
  | scan (r : Region) (key : Str)
  /-- `SCAN` has no more keys. -/
  | endScan (r : Region)
  /-- It publishes a chunk. -/
  | flush (r : Region) (tsMs : ℤ) (out : Outcome)
  /-- A Redis error ends the pass. -/
  | abort (r : Region)

/-- A family with one member replaced. -/
def replace {α : Type} (f : Region → α) (r : Region) (a : α) : Region → α :=
  fun q => if q = r then a else f q

@[simp] theorem replace_self {α : Type} (f : Region → α) (r : Region) (a : α) :
    replace f r a r = a := if_pos rfl

theorem replace_of_ne {α : Type} (f : Region → α) {r q : Region} (a : α) (h : q ≠ r) :
    replace f r a q = f q := if_neg h

/-- What the relay of a region works on. -/
def relayState (w : World) (q : Region) : Relay.State :=
  ⟨w.cluster.globals q, w.tables q, w.buffers q⟩

/-- What a step of the gateways publishes. -/
def published (s : Cluster) : Cluster.Event → List (List Byte)
  | .publish i tsMs out =>
    match s.checkAt i .kept with
    | some c => if out.applied then c.slot.toList.map fun n => c.payload n tsMs else []
    | none => []
  | _ => []

/-- The slots that sync merges come from relays. -/
def stepGateway (w : World) (e : Cluster.Event) : Option World :=
  match e with
  | .merge .. => none
  | e => (w.cluster.step e).map fun s =>
    { w with cluster := s, sent := w.sent ++ published w.cluster e }

def stepApply (w : World) (q : Region) (out : Outcome) (redisMs : ℤ) : Option World :=
  (Relay.advance q (w.relays q) out redisMs (w.relayState q)).map fun (t, s) =>
    { w with
      cluster := w.cluster.setGlobal q s.redis
      relays := replace w.relays q t
      buffers := replace w.buffers q s.buffer }

/-- The chunk goes out, or its pass ends with an exception. -/
def stepFlush (py : Python) (w : World) (r : Region) (p : Pass) (tsMs : ℤ) (out : Outcome) :
    World :=
  match serializeReconcile py (p.envelope r tsMs), out with
  | .ok raw, .ok =>
    { w with passes := replace w.passes r p.flushed, sent := w.sent ++ [raw] }
  | .ok raw, .lost => { w with passes := replace w.passes r none, sent := w.sent ++ [raw] }
  | _, _ => { w with passes := replace w.passes r none }

/-- One step, `none` where it cannot be taken. -/
def step (py : Python) (chunkSize : ℤ) (w : World) : Event → Option World
  | .gateway e => w.stepGateway e
  | .deliver q raw =>
    match w.relays q with
    | .idle =>
      if raw ∈ w.sent then
        some { w with relays := replace w.relays q (Relay.accept py q (w.tables q) raw) }
      else none
    | _ => none
  | .apply q out redisMs => w.stepApply q out redisMs
  | .addRule q f g => some { w with tables := replace w.tables q ((w.tables q).add f g) }
  | .removeRule q f g => some { w with tables := replace w.tables q ((w.tables q).remove f g) }
  | .clearRules q => some { w with tables := replace w.tables q .empty }
  | .startPass r window =>
    match w.passes r with
    | none =>
      if Printable window then
        some { w with passes := replace w.passes r (some ⟨window, Dict.empty, false⟩) }
      else none
    | some _ => none
  | .scan r key =>
    match w.passes r with
    | some p =>
      if p.ending || p.full chunkSize || !glob (scanPattern p.window) key || ¬ Scalar key then none
      else match p.scan r (w.cluster.globals r) key with
        | .ok p' => some { w with passes := replace w.passes r (some p') }
        | .error _ => some { w with passes := replace w.passes r none }
    | none => none
  | .endScan r =>
    match w.passes r with
    | some p =>
      if p.ending || p.full chunkSize then none
      else some { w with passes := replace w.passes r p.scannedAll }
    | none => none
  | .flush r tsMs out =>
    match w.passes r with
    | some p =>
      if (p.ending || p.full chunkSize) && fits64 tsMs then some (w.stepFlush py r p tsMs out)
      else none
    | none => none
  | .abort r =>
    match w.passes r with
    | some _ => some { w with passes := replace w.passes r none }
    | none => none

/-- Three regions at their start. -/
def init : World where
  cluster := .init
  relays _ := .idle
  tables _ := .empty
  buffers _ := .new
  passes _ := none
  sent := []

/-! ## What a step does -/

/-- The merge of one pending slot, as an event of the cluster. -/
def mergeCluster (w : World) (q : Region) (x : SlotWrite) (out : Outcome) (redisMs : ℤ) : Cluster :=
  w.cluster.setGlobal q (applyRemoteSlot q x out redisMs (w.cluster.globals q)).2

/-- Every step, with the world behind it. -/
inductive Effect (py : Python) (chunkSize : ℤ) (w w' : World) : Event → Prop
  | gateway {e} (s : Cluster) (hs : w.cluster.step e = some s) (hne : ∀ q x ms, e ≠ .merge q x ms)
    (h : w' = { w with cluster := s, sent := w.sent ++ published w.cluster e }) :
    Effect py chunkSize w w' (.gateway e)
  | deliver {q raw} (hidle : w.relays q = .idle) (hmem : raw ∈ w.sent)
    (h : w' = { w with relays := replace w.relays q (Relay.accept py q (w.tables q) raw) }) :
    Effect py chunkSize w w' (.deliver q raw)
  /-- The slot is applied or goes into the buffer, and the relay goes on with the rest. -/
  | apply {q out redisMs} (kind : Kind) (x : SlotWrite) (xs : List SlotWrite) (tsMs : ℤ)
    (t : Relay.Task) (b : FailoverBuffer SlotWrite)
    (htask : w.relays q = .applying kind (x :: xs) tsMs)
    (ht : t = .idle ∧ kind = .counter ∨
      t = .ofError (Relay.observe tsMs) ∧ (kind = .counter ∨ xs = []) ∨
      kind = .reconcile ∧ xs ≠ [] ∧ t = .applying .reconcile xs tsMs)
    (hb : b = w.buffers q ∨ b = ((w.buffers q).push Relay.bufferKind x).2)
    (h : w' = { w with
      cluster := w.mergeCluster q x out redisMs
      relays := replace w.relays q t
      buffers := replace w.buffers q b }) :
    Effect py chunkSize w w' (.apply q out redisMs)
  | addRule {q f g}
    (h : w' = { w with tables := replace w.tables q ((w.tables q).add f g) }) :
    Effect py chunkSize w w' (.addRule q f g)
  | removeRule {q f g}
    (h : w' = { w with tables := replace w.tables q ((w.tables q).remove f g) }) :
    Effect py chunkSize w w' (.removeRule q f g)
  | clearRules {q} (h : w' = { w with tables := replace w.tables q .empty }) :
    Effect py chunkSize w w' (.clearRules q)
  | startPass {r window} (hnone : w.passes r = none) (hwindow : Printable window)
    (h : w' = { w with passes := replace w.passes r (some ⟨window, Dict.empty, false⟩) }) :
    Effect py chunkSize w w' (.startPass r window)
  /-- The key is taken in, or the pass ends with an exception. -/
  | scan {r key} (p : Pass) (o : Option Pass) (hp : w.passes r = some p)
    (hending : p.ending = false) (hfull : p.full chunkSize = false)
    (hglob : glob (scanPattern p.window) key = true) (hkey : Scalar key)
    (ho : ∀ p', o = some p' ↔ p.scan r (w.cluster.globals r) key = .ok p')
    (h : w' = { w with passes := replace w.passes r o }) :
    Effect py chunkSize w w' (.scan r key)
  | endScan {r} (p : Pass) (hp : w.passes r = some p) (hending : p.ending = false)
    (hfull : p.full chunkSize = false)
    (h : w' = { w with passes := replace w.passes r p.scannedAll }) :
    Effect py chunkSize w w' (.endScan r)
  /-- The chunk is published and the pass goes on, or the pass ends with an exception, with
  the chunk published or not. -/
  | flush {r tsMs out} (p : Pass) (o : Option Pass) (raws : List (List Byte))
    (hp : w.passes r = some p) (hready : p.ending = true ∨ p.full chunkSize = true)
    (hts : fits64 tsMs = true)
    (hraws : raws = [] ∨ ∃ raw, serializeReconcile py (p.envelope r tsMs) = .ok raw ∧ raws = [raw])
    (hok : ∀ raw, serializeReconcile py (p.envelope r tsMs) = .ok raw → out = .ok →
      raws = [raw] ∧ o = p.flushed)
    (ho : o = none ∨ o = p.flushed)
    (h : w' = { w with passes := replace w.passes r o, sent := w.sent ++ raws }) :
    Effect py chunkSize w w' (.flush r tsMs out)
  | abort {r} (p : Pass) (hp : w.passes r = some p)
    (h : w' = { w with passes := replace w.passes r none }) :
    Effect py chunkSize w w' (.abort r)

section Effects

variable {py : Python} {chunkSize : ℤ} {w w' : World}

theorem effect_gateway {e : Cluster.Event} (h : w.stepGateway e = some w') :
    Effect py chunkSize w w' (.gateway e) := by
  unfold stepGateway at h
  split at h
  · exact absurd h (by simp)
  · rename_i hne
    obtain ⟨s, hs, rfl⟩ := Option.map_eq_some_iff.mp h
    exact .gateway s hs hne rfl

theorem effect_apply {q : Region} {out : Outcome} {redisMs : ℤ}
    (h : w.stepApply q out redisMs = some w') :
    Effect py chunkSize w w' (.apply q out redisMs) := by
  unfold stepApply at h
  obtain ⟨⟨t, s⟩, hadv, rfl⟩ := Option.map_eq_some_iff.mp h
  unfold Relay.advance at hadv
  split at hadv
  · rename_i kind x xs tsMs htask
    have hredis := Relay.applyOne_redis q x out redisMs (w.relayState q)
    have hbuffer : (Relay.applyOne q x out redisMs (w.relayState q)).2.buffer = w.buffers q ∨
        (Relay.applyOne q x out redisMs (w.relayState q)).2.buffer =
          ((w.buffers q).push Relay.bufferKind x).2 := by
      unfold Relay.applyOne
      split
      · exact Or.inl rfl
      · exact Or.inl rfl
      · exact Or.inr rfl
    dsimp only at hadv
    obtain ⟨ht, hs⟩ := Prod.mk.inj (Option.some.inj hadv)
    rw [← hs]
    refine .apply kind x xs tsMs t _ htask ?_ hbuffer ?_
    · rw [← ht]
      cases kind with
      | counter =>
        dsimp only
        split_ifs
        · exact Or.inr (Or.inl ⟨rfl, Or.inl rfl⟩)
        · exact Or.inl ⟨rfl, rfl⟩
      | reconcile =>
        cases xs with
        | nil => exact Or.inr (Or.inl ⟨rfl, Or.inr rfl⟩)
        | cons x' xs => exact Or.inr (Or.inr ⟨rfl, List.cons_ne_nil _ _, rfl⟩)
    · rw [mergeCluster, show w.cluster.globals q = (w.relayState q).redis from rfl, ← hredis]
  · exact absurd hadv (by simp)

theorem effect_flush {r : Region} {p : Pass} {tsMs : ℤ} {out : Outcome} (hp : w.passes r = some p)
    (hready : p.ending = true ∨ p.full chunkSize = true) (hts : fits64 tsMs = true) :
    Effect py chunkSize w (w.stepFlush py r p tsMs out) (.flush r tsMs out) := by
  unfold stepFlush
  split
  · rename_i raw hraw
    refine .flush p p.flushed [raw] hp hready hts (Or.inr ⟨raw, hraw, rfl⟩) ?_ (Or.inr rfl) rfl
    intro raw' hraw' _
    rw [Except.ok.inj (hraw.symm.trans hraw')]
    exact ⟨rfl, rfl⟩
  · rename_i raw hraw
    exact .flush p none [raw] hp hready hts (Or.inr ⟨raw, hraw, rfl⟩)
      (fun _ _ h => absurd h (by decide)) (Or.inl rfl) rfl
  · rename_i hok hlost
    refine .flush p none [] hp hready hts (Or.inl rfl) ?_ (Or.inl rfl) (by simp)
    rintro raw hraw rfl
    exact absurd rfl (hok raw hraw)

/-- Every step is one of these effects. -/
theorem effect {e : Event} (h : w.step py chunkSize e = some w') : Effect py chunkSize w w' e := by
  unfold step at h
  cases e with
  | gateway e => exact effect_gateway h
  | deliver q raw =>
    dsimp only at h
    split at h
    · rename_i hidle
      split_ifs at h with hmem
      exact .deliver hidle hmem (Option.some.inj h).symm
    · exact absurd h (by simp)
  | apply q out redisMs => exact effect_apply h
  | addRule q f g => exact .addRule (Option.some.inj h).symm
  | removeRule q f g => exact .removeRule (Option.some.inj h).symm
  | clearRules q => exact .clearRules (Option.some.inj h).symm
  | startPass r window =>
    dsimp only at h
    split at h
    · rename_i hnone
      split_ifs at h with hwindow
      exact .startPass hnone hwindow (Option.some.inj h).symm
    · exact absurd h (by simp)
  | scan r key =>
    dsimp only at h
    split at h
    · rename_i p hp
      split_ifs at h with hguard
      simp only [Bool.or_eq_true, Bool.not_eq_true', decide_eq_true_eq, not_or, not_not,
        Bool.not_eq_true, Bool.not_eq_false] at hguard
      obtain ⟨⟨⟨hending, hfull⟩, hglob⟩, hkey⟩ := hguard
      split at h
      · rename_i p' hscan
        refine .scan p (some p') hp hending hfull hglob hkey (fun p'' => ?_)
          (Option.some.inj h).symm
        rw [hscan]
        simp
      · rename_i err hscan
        refine .scan p none hp hending hfull hglob hkey (fun p'' => ?_) (Option.some.inj h).symm
        rw [hscan]
        simp
    · exact absurd h (by simp)
  | endScan r =>
    dsimp only at h
    split at h
    · rename_i p hp
      split_ifs at h with hguard
      simp only [Bool.or_eq_true, not_or, Bool.not_eq_true] at hguard
      exact .endScan p hp hguard.1 hguard.2 (Option.some.inj h).symm
    · exact absurd h (by simp)
  | flush r tsMs out =>
    dsimp only at h
    split at h
    · rename_i p hp
      split_ifs at h with hguard
      simp only [Bool.and_eq_true, Bool.or_eq_true] at hguard
      obtain rfl := Option.some.inj h
      exact effect_flush hp hguard.1 hguard.2
    · exact absurd h (by simp)
  | abort r =>
    dsimp only at h
    split at h
    · rename_i p hp
      exact .abort p hp (Option.some.inj h).symm
    · exact absurd h (by simp)

/-! ### One part at a time -/

theorem replace_cases {α : Type} (f : Region → α) (r q : Region) (a : α) :
    q = r ∧ replace f r a q = a ∨ q ≠ r ∧ replace f r a q = f q := by
  by_cases hq : q = r
  · exact Or.inl ⟨hq, by rw [hq, replace_self]⟩
  · exact Or.inr ⟨hq, replace_of_ne f a hq⟩

/-- What may happen to a relay. -/
theorem Effect.relays_cases {e : Event} (h : Effect py chunkSize w w' e) (q : Region) :
    w'.relays q = w.relays q ∨
      (∃ raw ∈ w.sent, w'.relays q = Relay.accept py q (w.tables q) raw) ∨
      ∃ kind x xs tsMs, w.relays q = .applying kind (x :: xs) tsMs ∧
        (w'.relays q = .idle ∨ w'.relays q = .ofError (Relay.observe tsMs) ∨
          w'.relays q = .applying .reconcile xs tsMs) := by
  cases h with
  | deliver hidle hmem h =>
    rename_i q' raw
    rw [h]
    rcases replace_cases w.relays q' q (Relay.accept py q' (w.tables q') raw) with
      ⟨rfl, heq⟩ | ⟨-, heq⟩
    · exact Or.inr (Or.inl ⟨raw, hmem, heq⟩)
    · exact Or.inl heq
  | apply kind x xs tsMs t b htask ht hb h =>
    rename_i q' out ms
    rw [h]
    rcases replace_cases w.relays q' q t with ⟨rfl, heq⟩ | ⟨-, heq⟩
    · refine Or.inr (Or.inr ⟨kind, x, xs, tsMs, htask, ?_⟩)
      rcases ht with ⟨rfl, -⟩ | ⟨rfl, -⟩ | ⟨-, -, rfl⟩
      · exact Or.inl heq
      · exact Or.inr (Or.inl heq)
      · exact Or.inr (Or.inr heq)
    · exact Or.inl heq
  | _ => exact Or.inl (by rename_i h; rw [h])

/-- What may happen to a reconciler. -/
theorem Effect.passes_cases {e : Event} (h : Effect py chunkSize w w' e) (r : Region) :
    w'.passes r = w.passes r ∨ w'.passes r = none ∨
      (∃ window, Printable window ∧ e = .startPass r window ∧
        w'.passes r = some ⟨window, Dict.empty, false⟩) ∨
      ∃ p p', w.passes r = some p ∧ w'.passes r = some p' ∧
        ((∃ key, Scalar key ∧ p.scan r (w.cluster.globals r) key = .ok p') ∨
          p' = { p with ending := true } ∨ p' = { p with chunk := Dict.empty }) := by
  cases h with
  | startPass hnone hwindow h =>
    rename_i r' window
    rw [h]
    rcases replace_cases w.passes r' r (some ⟨window, Dict.empty, false⟩) with
      ⟨rfl, heq⟩ | ⟨-, heq⟩
    · exact Or.inr (Or.inr (Or.inl ⟨window, hwindow, rfl, heq⟩))
    · exact Or.inl heq
  | scan p o hp hending hfull hglob hkey ho h =>
    rename_i r' key
    rw [h]
    rcases replace_cases w.passes r' r o with ⟨rfl, heq⟩ | ⟨-, heq⟩
    · cases o with
      | none => exact Or.inr (Or.inl heq)
      | some p' =>
        have hscan := (ho p').mp rfl
        exact Or.inr (Or.inr (Or.inr ⟨p, p', hp, heq, Or.inl ⟨key, hkey, hscan⟩⟩))
    · exact Or.inl heq
  | endScan p hp hending hfull h =>
    rename_i r'
    rw [h]
    rcases replace_cases w.passes r' r p.scannedAll with ⟨rfl, heq⟩ | ⟨-, heq⟩
    · cases ho : p.scannedAll with
      | none => exact Or.inr (Or.inl (ho ▸ heq))
      | some p' =>
        have hp' := Pass.eq_of_scannedAll ho
        exact Or.inr (Or.inr (Or.inr ⟨p, p', hp, ho ▸ heq, Or.inr (Or.inl hp')⟩))
    · exact Or.inl heq
  | flush p o raws hp hready hts hraws hok ho h =>
    rename_i r' tsMs out
    rw [h]
    rcases replace_cases w.passes r' r o with ⟨rfl, heq⟩ | ⟨-, heq⟩
    · rcases ho with rfl | rfl
      · exact Or.inr (Or.inl heq)
      · cases ho : p.flushed with
        | none => exact Or.inr (Or.inl (ho ▸ heq))
        | some p' =>
          have hp' := Pass.eq_of_flushed ho
          exact Or.inr (Or.inr (Or.inr ⟨p, p', hp, ho ▸ heq, Or.inr (Or.inr hp')⟩))
    · exact Or.inl heq
  | abort p hp h =>
    rename_i r'
    rw [h]
    rcases replace_cases w.passes r' r none with ⟨rfl, heq⟩ | ⟨-, heq⟩
    · exact Or.inr (Or.inl heq)
    · exact Or.inl heq
  | _ => exact Or.inl (by rename_i h; rw [h])

/-- Where a message comes from. -/
theorem Effect.sent_cases {e : Event} (h : Effect py chunkSize w w' e) {raw : List Byte}
    (hraw : raw ∈ w'.sent) :
    raw ∈ w.sent ∨
      (∃ ce, (∃ s, w.cluster.step ce = some s) ∧ raw ∈ published w.cluster ce) ∨
      ∃ r p tsMs, w.passes r = some p ∧ fits64 tsMs = true ∧
        serializeReconcile py (p.envelope r tsMs) = .ok raw := by
  cases h with
  | gateway s hs hne h =>
    rw [h] at hraw
    rcases List.mem_append.mp hraw with hraw | hraw
    · exact Or.inl hraw
    · exact Or.inr (Or.inl ⟨_, ⟨s, hs⟩, hraw⟩)
  | flush p o raws hp hready hts hraws hok ho h =>
    rw [h] at hraw
    rcases List.mem_append.mp hraw with hraw | hraw
    · exact Or.inl hraw
    · rcases hraws with rfl | ⟨raw', hser, rfl⟩
      · exact absurd hraw List.not_mem_nil
      · rw [List.mem_singleton.mp hraw]
        exact Or.inr (Or.inr ⟨_, p, _, hp, hts, hser⟩)
  | _ => exact Or.inl (by rename_i h; rwa [h] at hraw)

/-- Where a slot in a buffer comes from. -/
theorem Effect.buffers_cases {e : Event} (h : Effect py chunkSize w w' e) {q : Region} {kind : Str}
    {x : SlotWrite} (hx : x ∈ (w'.buffers q).queues kind) :
    x ∈ (w.buffers q).queues kind ∨ ∃ kind xs tsMs, w.relays q = .applying kind (x :: xs) tsMs := by
  cases h with
  | apply kind y ys tsMs t b htask ht hb h =>
    rename_i q' out ms
    rw [h] at hx
    dsimp only at hx
    rcases replace_cases w.buffers q' q b with ⟨rfl, heq⟩ | ⟨-, heq⟩
    · rw [heq] at hx
      rcases hb with rfl | rfl
      · exact Or.inl hx
      · rcases FailoverBuffer.mem_push hx with hx | ⟨-, rfl⟩
        · exact Or.inl hx
        · exact Or.inr ⟨kind, ys, tsMs, htask⟩
    · rw [heq] at hx
      exact Or.inl hx
  | _ => exact Or.inl (by rename_i h; rwa [h] at hx)

end Effects

end World

end Gdrl
