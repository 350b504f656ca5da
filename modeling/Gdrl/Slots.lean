import Gdrl.World
import Gdrl.Gossip
import Gdrl.Join

/-!
# The slots of the three regions

What holds in every reachable world. Everything that is sent reads back, no relay dies,
and every slot that travels is one that its region's gateway has counted
(`World.Inv`, `Carries`). Seen as `Registers`, with the counted requests as the owner's
mark, no region and no message is ever ahead of the owner (`inv_of_reached`), and as
long as no key expires the owner's slot is that mark (`own_eq_counted`).
-/

namespace Gdrl

namespace World

variable (py : Python) (chunkSize : ℤ)

/-! ## Messages read back -/

/-- Bytes that parse to an envelope whose slots can be applied and whose timestamp a float
holds. -/
def Legible (raw : List Byte) : Prop :=
  ∃ env, parse py raw = .ok env ∧ fits64 env.tsMs = true ∧ ∀ x ∈ env.writes, x.sendable = true

/-- A relay that lives, with slots of its peers that can be applied. -/
def Working (q : Region) : Relay.Task → Prop
  | .idle => True
  | .applying _ xs tsMs => fits64 tsMs = true ∧ ∀ x ∈ xs, x.peer ≠ q ∧ x.sendable = true
  | .dead => False

/-- What holds in every reachable world. -/
structure Inv (w : World) : Prop where
  nonneg : ∀ q k, (w.cluster.globals q k).Nonneg
  sane : ∀ c ∈ w.cluster.checks, c.Sane
  inRange : ∀ c ∈ w.cluster.checks, c.InRange
  relays : ∀ q, Working q (w.relays q)
  passes : ∀ r, ∀ p ∈ w.passes r, p.Plain
  sent : ∀ raw ∈ w.sent, Legible py raw

variable {py chunkSize}

theorem writesOf_eq {raw : List Byte} {env : Envelope} (h : parse py raw = .ok env) :
    Relay.writesOf py raw = env.writes := by rw [Relay.writesOf, h]

theorem ofError_observe {tsMs : ℤ} (h : fits64 tsMs = true) :
    Relay.Task.ofError (Relay.observe tsMs) = .idle := by
  have hfin := Float64.isFinite_ofInt ((natAbs_of_fits h).trans_lt (by decide : 2 ^ 63 < 2 ^ 64))
  rw [(Relay.observe_eq_none tsMs).mpr hfin]
  rfl

/-- What a relay makes of a message that reads back. -/
theorem accept_cases {raw : List Byte} (h : Legible py raw) (q : Region) (table : PartitionTable) :
    Relay.accept py q table raw = .idle ∨
      ∃ env, parse py raw = .ok env ∧ env.asserted ≠ q ∧
        Relay.accept py q table raw = .applying env.kind env.writes env.tsMs := by
  obtain ⟨env, henv, hts, -⟩ := h
  unfold Relay.accept Relay.receive
  rw [henv]
  dsimp only
  by_cases h1 : table.blocks env.asserted.name q.name = true
  · rw [if_pos h1]
    exact Or.inl rfl
  · by_cases h2 : env.asserted = q
    · rw [if_neg h1, if_pos h2]
      exact Or.inl rfl
    · rw [if_neg h1, if_neg h2]
      cases hw : env.writes with
      | nil => exact Or.inl (ofError_observe hts)
      | cons x xs => exact Or.inr ⟨env, rfl, h2, by rw [hw]⟩

theorem working_accept {raw : List Byte} (h : Legible py raw) (q : Region)
    (table : PartitionTable) : Working q (Relay.accept py q table raw) := by
  rcases accept_cases h q table with h' | ⟨env, henv, hne, h'⟩
  · rw [h']
    trivial
  · obtain ⟨env', henv', hts, hsend⟩ := h
    obtain rfl := Except.ok.inj (henv.symm.trans henv')
    rw [h']
    refine ⟨hts, fun x hx => ⟨?_, hsend x hx⟩⟩
    rwa [Envelope.peer_of_mem_writes hx]

theorem slotWrite_sendable (c : Check) {n : ℤ} (hn : 0 ≤ n) : (c.slotWrite hn).sendable = true :=
  decide_eq_true ⟨c.tier.scalar_name, c.userId.property.2⟩

/-- The gateway's message carries the slot that it has counted. -/
theorem legible_payload {c : Check} (hc : c.InRange) {n tsMs : ℤ} (hslot : c.slot = some n)
    (hts : fits64 tsMs = true) :
    Legible py (c.payload n tsMs) ∧ ∃ hn : 0 ≤ n,
      Relay.writesOf py (c.payload n tsMs) = [c.slotWrite hn] := by
  obtain ⟨hn, hlt⟩ := hc.slot n hslot
  have hparse := parse_payload py hc.window hn hlt hts
  refine ⟨⟨_, hparse, hts, fun x hx => ?_⟩, hn, writesOf_eq hparse⟩
  rw [List.mem_singleton.mp hx]
  exact slotWrite_sendable c hn

/-- The slots that a chunk carries. -/
def chunkWrites (r : Region) (p : Pass) : List SlotWrite :=
  (Envelope.reconcile (p.envelope r 0)).writes

theorem mem_chunkWrites {r : Region} {p : Pass} {x : SlotWrite} :
    x ∈ chunkWrites r p ↔ ∃ k v, p.chunk.get? k = some v ∧ x = ⟨k.1, k.2, p.window, r, v⟩ := by
  constructor
  · intro hx
    obtain ⟨⟨k, v⟩, he, rfl⟩ := List.mem_map.mp hx
    exact ⟨k, v, Dict.mem_entries.mp he, rfl⟩
  · rintro ⟨k, v, hv, rfl⟩
    exact List.mem_map.mpr ⟨(k, v), Dict.mem_entries.mpr hv, rfl⟩

/-- The reconciler's message carries its chunk. -/
theorem legible_serialize {r : Region} {p : Pass} (hp : p.Plain) {tsMs : ℤ} {raw : List Byte}
    (hts : fits64 tsMs = true) (hraw : serializeReconcile py (p.envelope r tsMs) = .ok raw) :
    Legible py raw ∧ Relay.writesOf py raw = chunkWrites r p := by
  obtain ⟨raw', hraw', hparse⟩ := parse_serialize py (hp.envelope r hts)
  obtain rfl := Except.ok.inj (hraw.symm.trans hraw')
  refine ⟨⟨_, hparse, hts, fun x hx => ?_⟩, (writesOf_eq hparse :)⟩
  obtain ⟨e, he, rfl⟩ := List.mem_map.mp hx
  obtain ⟨n, hn, -⟩ := hp.slots.int e he
  unfold SlotWrite.sendable
  rw [hn]
  exact decide_eq_true (hp.slots.scalar e he)

/-! ## The cluster inside the world -/

theorem setGlobal_self (s : Cluster) (q : Region) : s.setGlobal q (s.globals q) = s := by
  have h : (fun r => if r = q then s.globals q else s.globals r) = s.globals := by
    funext r
    split_ifs with hr
    · rw [hr]
    · rfl
  unfold Cluster.setGlobal
  rw [h]

/-- Sync does to the cluster what the cluster expects of it : it merges peers' slots. -/
theorem Effect.cluster_step {w w' : World} {e : Event} (h : Effect py chunkSize w w' e) :
    w'.cluster = w.cluster ∨
      (∃ ce, e = .gateway ce ∧ (∀ q x ms, ce ≠ .merge q x ms) ∧
        w.cluster.step ce = some w'.cluster) ∨
      ∃ q out ms kind x xs tsMs, e = .apply q out ms ∧
        w.relays q = .applying kind (x :: xs) tsMs ∧
        w.cluster.step (.merge q x ms) = some w'.cluster := by
  cases h with
  | gateway s hs hne h => exact Or.inr (Or.inl ⟨_, rfl, hne, by rw [hs, h]⟩)
  | apply kind x xs tsMs t b htask ht hb h =>
    rename_i q out ms
    have hcluster : w'.cluster = w.mergeCluster q x out ms := by rw [h]
    by_cases happlies : x.peer ≠ q ∧ x.sendable = true ∧ out.applied = true
    · refine Or.inr (Or.inr ⟨q, out, ms, kind, x, xs, tsMs, rfl, htask, ?_⟩)
      rw [Cluster.step, if_neg happlies.1, hcluster, mergeCluster, applyRemoteSlot_redis,
        applyRemoteSlot_redis, if_pos happlies, if_pos ⟨happlies.1, happlies.2.1, rfl⟩]
    · rw [hcluster, mergeCluster, applyRemoteSlot_redis, if_neg happlies, setGlobal_self]
      exact Or.inl rfl
  | deliver hidle hmem h => exact Or.inl (by rw [h])
  | addRule h => exact Or.inl (by rw [h])
  | removeRule h => exact Or.inl (by rw [h])
  | clearRules h => exact Or.inl (by rw [h])
  | startPass hnone hwindow h => exact Or.inl (by rw [h])
  | scan p o hp hending hfull hglob hkey ho h => exact Or.inl (by rw [h])
  | endScan p hp hending hfull h => exact Or.inl (by rw [h])
  | flush p o raws hp hready hts hraws hok ho h => exact Or.inl (by rw [h])
  | abort p hp h => exact Or.inl (by rw [h])

/-- The cluster part of every step, in the cluster's own terms. -/
theorem Effect.cluster_effect {w w' : World} {e : Event} (h : Effect py chunkSize w w' e) :
    w'.cluster = w.cluster ∨ ∃ ce, Cluster.Effect w.cluster w'.cluster ce ∧
      (e = .gateway ce ∧ (∀ q x ms, ce ≠ .merge q x ms) ∨
        ∃ q ms kind x xs tsMs, ce = .merge q x ms ∧
          w.relays q = .applying kind (x :: xs) tsMs) := by
  rcases h.cluster_step with heq | ⟨ce, he, hne, hs⟩ | ⟨q, out, ms, kind, x, xs, tsMs, -, htask, hs⟩
  · exact Or.inl heq
  · exact Or.inr ⟨ce, Cluster.effect hs, Or.inl ⟨he, hne⟩⟩
  · exact Or.inr ⟨_, Cluster.effect hs, Or.inr ⟨q, ms, kind, x, xs, tsMs, rfl, htask⟩⟩

/-- The gateways do nothing in the world that they could not do as a cluster on its own. -/
theorem exists_cluster_run {w w' : World} {es : List Event}
    (h : Run (Steps (World.step py chunkSize)) w es w') :
    ∃ es', Run (Steps Cluster.step) w.cluster es' w'.cluster := by
  refine h.simulate World.cluster (I := fun _ => True) (fun _ _ _ _ _ => trivial) ?_ trivial
  intro w e w' _ hstep
  rcases (effect hstep).cluster_step with
    heq | ⟨ce, -, -, hs⟩ | ⟨q, out, ms, kind, x, xs, tsMs, -, -, hs⟩
  · exact Or.inl heq
  · exact Or.inr ⟨ce, hs⟩
  · exact Or.inr ⟨.merge q x ms, hs⟩

/-! ## The invariant -/

theorem Inv.published {w : World} (hI : w.Inv py) (e : Cluster.Event) {s : Cluster}
    (hs : w.cluster.step e = some s) {raw : List Byte} (hraw : raw ∈ published w.cluster e) :
    Legible py raw ∧ ∃ c ∈ w.cluster.checks, ∃ n, ∃ hn : 0 ≤ n, c.slot = some n ∧
      Relay.writesOf py raw = [c.slotWrite hn] := by
  unfold World.published at hraw
  split at hraw
  · rename_i i tsMs out
    split at hraw
    · rename_i c hc
      have hmem := List.mem_of_getElem? (Cluster.checkAt_eq_some.mp hc).1
      have hts : fits64 tsMs = true := by
        rw [Cluster.step] at hs
        split_ifs at hs with hts
        exact hts
      split_ifs at hraw
      · obtain ⟨n, hn, rfl⟩ := List.mem_map.mp hraw
        have hslot : c.slot = some n := Option.mem_toList.mp hn
        obtain ⟨hleg, hn, hwrites⟩ := @legible_payload py c (hI.inRange c hmem) n tsMs hslot hts
        exact ⟨hleg, c, hmem, n, hn, hslot, hwrites⟩
      · exact absurd hraw List.not_mem_nil
    · exact absurd hraw List.not_mem_nil
  · exact absurd hraw List.not_mem_nil

/-- Every step keeps the invariant. -/
theorem Inv.step {w w' : World} {e : Event} (hI : w.Inv py) (h : Effect py chunkSize w w' e) :
    w'.Inv py := by
  have hcluster : (∀ q k, (w'.cluster.globals q k).Nonneg) ∧
      (∀ c ∈ w'.cluster.checks, c.Sane) ∧ ∀ c ∈ w'.cluster.checks, c.InRange := by
    rcases h.cluster_effect with heq | ⟨ce, hce, -⟩
    · rw [heq]
      exact ⟨hI.nonneg, hI.sane, hI.inRange⟩
    · exact ⟨fun q k r => (hce.slotEffect q k r).nonneg (hI.nonneg q k r), hce.sane hI.sane,
        hce.inRange hI.nonneg hI.inRange⟩
  obtain ⟨hnonneg, hsane, hrange⟩ := hcluster
  refine ⟨hnonneg, hsane, hrange, fun q => ?_, fun r p' hp' => ?_, fun raw hraw => ?_⟩
  · rcases h.relays_cases q with heq | ⟨raw, hraw, heq⟩ | ⟨kind, x, xs, tsMs, htask, ht⟩
    · exact heq ▸ hI.relays q
    · exact heq ▸ working_accept (hI.sent raw hraw) q _
    · have hwork := hI.relays q
      rw [htask] at hwork
      rcases ht with heq | heq | heq
      · rw [heq]
        trivial
      · rw [heq, ofError_observe hwork.1]
        trivial
      · rw [heq]
        exact ⟨hwork.1, fun y hy => hwork.2 y (List.mem_cons_of_mem x hy)⟩
  · rcases h.passes_cases r with heq | heq | ⟨window, hwindow, -, heq⟩ | ⟨p, p'', hp, heq, hstep⟩
    · exact hI.passes r p' (heq ▸ hp')
    · exact absurd (heq.symm.trans hp') (by simp)
    · obtain rfl := Option.some.inj (heq.symm.trans hp')
      exact ⟨hwindow, Pass.plainSlots_empty⟩
    · obtain rfl := Option.some.inj (heq.symm.trans hp')
      have hplain := hI.passes r p hp
      rcases hstep with ⟨key, hkey, hscan⟩ | rfl | rfl
      · exact hplain.scan hkey hscan
      · exact ⟨hplain.window, hplain.slots⟩
      · exact ⟨hplain.window, Pass.plainSlots_empty⟩
  · rcases h.sent_cases hraw with hraw | ⟨ce, ⟨s, hs⟩, hraw⟩ | ⟨r, p, tsMs, hp, hts, hser⟩
    · exact hI.sent raw hraw
    · exact (hI.published ce hs hraw).1
    · exact (legible_serialize (hI.passes r p hp) hts hser).1

/-! ## Slots that travel -/

variable (py) in
/-- A slot that some message holds, on its way between the Redis of its owner and those of
the peers : counted by a handler, in a chunk, sent, pending in a relay or in a buffer. -/
inductive Carries (w : World) (x : SlotWrite) : Prop
  | counted (c : Check) (n : ℤ) (hn : 0 ≤ n) (hc : c ∈ w.cluster.checks) (hslot : c.slot = some n)
    (hx : x = c.slotWrite hn)
  | chunk (r : Region) (p : Pass) (hp : w.passes r = some p) (hx : x ∈ chunkWrites r p)
  | sent (raw : List Byte) (hraw : raw ∈ w.sent) (hx : x ∈ Relay.writesOf py raw)
  | pending (q : Region) (kind : Kind) (xs : List SlotWrite) (tsMs : ℤ)
    (htask : w.relays q = .applying kind xs tsMs) (hx : x ∈ xs)
  | buffered (q : Region) (kind : Str) (hx : x ∈ (w.buffers q).queues kind)

/-- The owner's own slot for a write. -/
def ownSlot (w : World) (x : SlotWrite) : ℤ := (w.cluster.globals x.peer x.key).slot x.peer

/-- The slot of a request counted after a step was counted before, or is what its region's
own slot has just become. -/
theorem counted_cases {s s' : Cluster} {e : Cluster.Event} (h : Cluster.Effect s s' e)
    (hs : ∀ c ∈ s.checks, c.Sane) {d : Check} (hd : d ∈ s'.checks) {n : ℤ} (hn : 0 ≤ n)
    (hslot : d.slot = some n) :
    (∃ c ∈ s.checks, c.slot = some n ∧ d.slotWrite hn = c.slotWrite hn) ∨
      (s'.globals d.region d.key).slot d.region = n := by
  rcases h.mem_cases hd with hd | ⟨hnone, -⟩ | ⟨i, c, hi, hu⟩
  · exact Or.inl ⟨d, hd, hslot, rfl⟩
  · exact absurd (hnone.symm.trans hslot) (by simp)
  · have hc := List.mem_of_getElem? hi
    cases hu with
    | decide => exact Or.inl ⟨c, hc, hslot, rfl⟩
    | skip hunix hstage hfail =>
      have hnone := (hs c hc).fresh (by rw [hstage]; rfl)
      exact absurd (hnone.symm.trans hslot) (by simp)
    | incr m hash stage hunix hstage hincr hnext hg =>
      rename_i unix out
      obtain rfl : m = n := Option.some.inj hslot
      have hown := hg.slot_incr hincr c.region (c.keyAt unix) c.region
      rw [if_pos ⟨rfl, rfl, rfl⟩, ← (Hash.incr_eq_some hincr).1] at hown
      exact Or.inr hown
    | expire => exact Or.inl ⟨c, hc, hslot, rfl⟩
    | publish => exact Or.inl ⟨c, hc, hslot, rfl⟩
    | read => exact Or.inl ⟨c, hc, hslot, rfl⟩

/-- A slot that travels after a step did so before, or is the owner's own slot of a
moment. -/
theorem Effect.carries {w w' : World} {e : Event} (h : Effect py chunkSize w w' e)
    (hI : w.Inv py) {x : SlotWrite} (hx : Carries py w' x) :
    Carries py w x ∨ x.value.toInt = w.ownSlot x ∨ x.value.toInt = w'.ownSlot x := by
  cases hx with
  | counted c n hn hc hslot hx =>
    rcases h.cluster_effect with heq | ⟨ce, hce, -⟩
    · exact Or.inl (.counted c n hn (heq ▸ hc) hslot hx)
    · rcases counted_cases hce hI.sane hc hn hslot with ⟨d, hd, hdslot, heq⟩ | hown
      · exact Or.inl (.counted d n hn hd hdslot (hx.trans heq))
      · subst hx
        exact Or.inr (Or.inr hown.symm)
  | chunk r p' hp' hx =>
    obtain ⟨k, v, hv, hxeq⟩ := mem_chunkWrites.mp hx
    rcases h.passes_cases r with heq | heq | ⟨window, hwindow, -, heq⟩ | ⟨p, p'', hp, heq, hstep⟩
    · exact Or.inl (.chunk r p' (heq ▸ hp') hx)
    · exact absurd (heq.symm.trans hp') (by simp)
    · obtain rfl := Option.some.inj (heq.symm.trans hp')
      exact absurd hv (by simp)
    · obtain rfl := Option.some.inj (heq.symm.trans hp')
      rcases hstep with ⟨key, hkey, hscan⟩ | rfl | rfl
      · rcases Pass.scan_cases hscan with rfl | ⟨k', n, hn, -, hs, -, rfl⟩
        · exact Or.inl (.chunk r _ hp hx)
        · dsimp only at hv
          rw [Dict.get?_set] at hv
          split_ifs at hv with hk
          · -- the slot that the scan has just read
            obtain rfl := Option.some.inj hv
            subst hk hxeq
            refine Or.inr (Or.inl ?_)
            show n = ((w.cluster.globals r (globalKey k.1 k.2 p.window)).slots r).getD 0
            rw [hs]
            rfl
          · exact Or.inl (.chunk r p hp (mem_chunkWrites.mpr ⟨k, v, hv, hxeq⟩))
      · exact Or.inl (.chunk r p hp hx)
      · exact absurd hv (by simp)
  | sent raw hraw hx =>
    rcases h.sent_cases hraw with hraw | ⟨ce, ⟨s, hs⟩, hraw⟩ | ⟨r, p, tsMs, hp, hts, hser⟩
    · exact Or.inl (.sent raw hraw hx)
    · obtain ⟨-, c, hc, n, hn, hslot, hwrites⟩ := hI.published ce hs hraw
      rw [hwrites] at hx
      exact Or.inl (.counted c n hn hc hslot (List.mem_singleton.mp hx))
    · rw [(legible_serialize (hI.passes r p hp) hts hser).2] at hx
      exact Or.inl (.chunk r p hp hx)
  | pending q kind xs tsMs htask hx =>
    rcases h.relays_cases q with heq | ⟨raw, hraw, heq⟩ | ⟨kind', y, ys, tsMs', htask', ht⟩
    · exact Or.inl (.pending q kind xs tsMs (heq ▸ htask) hx)
    · rcases accept_cases (hI.sent raw hraw) q (w.tables q) with hacc | ⟨env, henv, -, hacc⟩
      · exact absurd (hacc.symm.trans (heq.symm.trans htask)) (by simp)
      · obtain ⟨-, rfl, -⟩ := Relay.Task.applying.inj (hacc.symm.trans (heq.symm.trans htask))
        exact Or.inl (.sent raw hraw (by rwa [writesOf_eq henv]))
    · have hts := hI.relays q
      rw [htask'] at hts
      rcases ht with heq | heq | heq
      · exact absurd (heq.symm.trans htask) (by simp)
      · rw [ofError_observe hts.1] at heq
        exact absurd (heq.symm.trans htask) (by simp)
      · obtain ⟨-, rfl, -⟩ := Relay.Task.applying.inj (heq.symm.trans htask)
        exact Or.inl (.pending q kind' _ tsMs' htask' (List.mem_cons_of_mem y hx))
  | buffered q kind hx =>
    rcases h.buffers_cases hx with hx | ⟨kind', xs, tsMs, htask⟩
    · exact Or.inl (.buffered q kind hx)
    · exact Or.inl (.pending q kind' _ tsMs htask List.mem_cons_self)

/-! ## Nothing is ahead of its owner -/

variable (py chunkSize) in
/-- The world as registers : the owner's mark is what it has counted. -/
def registers (w : World) : Registers Region Str ℤ where
  top k r := w.cluster.counted r k
  val q k r := (w.cluster.globals q k).slot r
  carried k r v := ∃ x, Carries py w x ∧ x.key = k ∧ x.peer = r ∧ x.value.toInt = v

/-- Every step of the world is a step of the registers. -/
theorem Effect.registers_step {w w' : World} {e : Event} (h : Effect py chunkSize w w' e)
    (hI : w.Inv py) (hB : (w.registers py).Bounded) :
    Registers.Step (w.registers py) (w'.registers py) := by
  have hown : ∀ r k, (w'.cluster.globals r k).slot r ≤ w'.cluster.counted r k := by
    intro r k
    rcases h.cluster_effect with heq | ⟨ce, hce, -⟩
    · rw [heq]
      exact hB.val_le r k r
    · exact hce.slot_le_counted hI.sane (hB.val_le r k r)
  refine ⟨fun k r => ?_, fun q k r => ?_, ?_⟩
  · rcases h.cluster_effect with heq | ⟨ce, hce, -⟩
    · exact le_of_eq (by rw [registers, registers, heq])
    · exact Int.ofNat_le.mpr (hce.counted_le hI.sane r k)
  · rcases h.cluster_effect with heq | ⟨ce, hce, hfrom⟩
    · exact Or.inl (le_of_eq (by rw [registers, registers, heq]))
    · have hslot := hce.slotEffect q k r
      have hval : (w'.registers py).val q k r = ((w'.cluster.globals q k).slots r).getD 0 := rfl
      rw [hval]
      generalize ho : (w'.cluster.globals q k).slots r = o at hslot
      cases hslot with
      | same => exact Or.inl le_rfl
      | incr c hq hi hstage hr hk hlt =>
        subst hq
        have h := hown q k
        rw [Hash.slot, ho] at h
        exact Or.inr (Or.inr h)
      | merge hq hr hk hlt =>
        rename_i x ms
        rcases hfrom with ⟨-, hne⟩ | ⟨q', ms', kind, x', xs, tsMs, heq, htask⟩
        · exact absurd rfl (hne _ _ _)
        · obtain ⟨rfl, rfl, -⟩ := Cluster.Event.merge.inj heq
          exact Or.inr (Or.inl ⟨x, .pending q kind _ tsMs htask List.mem_cons_self, hk, hr, rfl⟩)
      | evict => exact Or.inl (hI.nonneg q k r)
  · rintro k r v ⟨x, hx, rfl, rfl, rfl⟩
    rcases h.carries hI hx with hx | heq | heq
    · exact Or.inl ⟨x, hx, rfl, rfl, rfl⟩
    · exact Or.inr (Or.inl heq.le)
    · exact Or.inr (Or.inr (heq.le.trans (hown x.peer x.key)))

variable (py chunkSize) in
/-- Three regions from their start, whatever happens to them. -/
abbrev Reached (w : World) : Prop := Reachable (· = init) (Steps (World.step py chunkSize)) w

theorem init_inv : init.Inv py := by
  refine ⟨fun _ _ _ => le_rfl, ?_, ?_, fun _ => trivial, ?_, ?_⟩ <;> simp [init, Cluster.init]

theorem init_bounded : (init.registers py).Bounded := by
  refine ⟨fun _ _ _ => le_rfl, ?_⟩
  rintro k r v ⟨x, hx, -⟩
  cases hx with
  | counted c n hn hc => exact absurd hc List.not_mem_nil
  | chunk r p hp => exact absurd hp (by simp [init])
  | sent raw hraw => exact absurd hraw List.not_mem_nil
  | pending q kind xs tsMs htask => exact absurd htask (by simp [init])
  | buffered q kind hx => exact absurd hx List.not_mem_nil

/-- In every reachable world the invariant holds and no region and no message is ahead of
the owner. -/
theorem inv_of_reached {w : World} (h : Reached py chunkSize w) :
    w.Inv py ∧ (w.registers py).Bounded := by
  refine h.invariant (I := fun w => w.Inv py ∧ (w.registers py).Bounded) ?_ ?_
  · rintro w rfl
    exact ⟨init_inv, init_bounded⟩
  · rintro w e w' ⟨hI, hB⟩ hstep
    have hE := effect hstep
    exact ⟨hI.step hE, hB.step (hE.registers_step hI hB)⟩

/-! ## Worlds that lose no key -/

/-- The loss of a key. -/
def Event.evicts : Event → Bool
  | .gateway (.evict ..) => true
  | _ => false

variable (py chunkSize) in
/-- A step in which no key expires. -/
def KeepStep (w : World) (e : Event) (w' : World) : Prop :=
  w.step py chunkSize e = some w' ∧ e.evicts = false

variable (py chunkSize) in
/-- Three regions from their start, where no key expires. -/
abbrev Kept (w : World) : Prop := Reachable (· = init) (KeepStep py chunkSize) w

theorem Kept.reached {w : World} (h : Kept py chunkSize w) : Reached py chunkSize w := by
  obtain ⟨w₀, es, h₀, hrun⟩ := h
  exact ⟨w₀, es, h₀, hrun.mono fun _ _ _ hs => hs.1⟩

theorem KeepStep.cluster_effect {w w' : World} {e : Event} (h : KeepStep py chunkSize w e w') :
    w'.cluster = w.cluster ∨ ∃ ce, Cluster.Effect w.cluster w'.cluster ce ∧
      (∀ q k ms, ce ≠ .evict q k ms) ∧ (e = .gateway ce ∨ ∃ q x ms, ce = .merge q x ms) := by
  rcases (effect h.1).cluster_effect with heq | ⟨ce, hce, hfrom⟩
  · exact Or.inl heq
  · refine Or.inr ⟨ce, hce, ?_, ?_⟩
    · rintro q k ms rfl
      rcases hfrom with ⟨rfl, -⟩ | ⟨q', ms', kind, x, xs, tsMs, heq, -⟩
      · exact absurd h.2 (by simp [Event.evicts])
      · exact absurd heq (by simp)
    · rcases hfrom with ⟨he, -⟩ | ⟨q, ms, kind, x, xs, tsMs, heq, -⟩
      · exact Or.inl he
      · exact Or.inr ⟨q, x, ms, heq⟩

/-- The owner's slot is what it has counted. -/
theorem own_eq_counted {w : World} (h : Kept py chunkSize w) (r : Region) (k : Str) :
    (w.cluster.globals r k).slot r = w.cluster.counted r k := by
  have hinv : w.Inv py ∧ (w.cluster.globals r k).slot r = w.cluster.counted r k := by
    refine h.invariant (I := fun w => w.Inv py ∧
      (w.cluster.globals r k).slot r = w.cluster.counted r k) ?_ ?_
    · rintro w rfl
      exact ⟨init_inv, rfl⟩
    · rintro w e w' ⟨hI, heq⟩ hstep
      refine ⟨hI.step (effect hstep.1), ?_⟩
      rcases hstep.cluster_effect with hc | ⟨ce, hce, hne, -⟩
      · rw [hc]
        exact heq
      · have := hce.balance hI.sane r k (hne r k)
        omega
  exact hinv.2

/-- No region's view of a slot is ahead of the owner's own slot. -/
theorem slot_le_own {w : World} (h : Kept py chunkSize w) (q : Region) (k : Str) (r : Region) :
    (w.cluster.globals q k).slot r ≤ (w.cluster.globals r k).slot r := by
  rw [own_eq_counted h r k]
  exact (inv_of_reached h.reached).2.val_le q k r

/-- No slot is taken back. -/
theorem KeepStep.slot_le {w w' : World} {e : Event} (h : KeepStep py chunkSize w e w')
    (q : Region) (k : Str) (r : Region) :
    (w.cluster.globals q k).slot r ≤ (w'.cluster.globals q k).slot r := by
  rcases h.cluster_effect with heq | ⟨ce, hce, hne, -⟩
  · rw [heq]
  · exact (hce.slotEffect q k r).le (hne q k)

/-- The owner's slot changes only where the owner's gateway counts a request there. -/
theorem KeepStep.own_cases {w w' : World} {e : Event} (h : KeepStep py chunkSize w e w')
    (r : Region) (k : Str) :
    (w'.cluster.globals r k).slots r = (w.cluster.globals r k).slots r ∨
      ∃ i unix out c, e = .gateway (.incr i unix out) ∧ w.cluster.checks[i]? = some c ∧
        c.region = r ∧ c.keyAt unix = k := by
  rcases h.cluster_effect with heq | ⟨ce, hce, hne, hfrom⟩
  · exact Or.inl (by rw [heq])
  · have hslot := hce.slotEffect r k r
    generalize (w'.cluster.globals r k).slots r = o at hslot
    cases hslot with
    | same => exact Or.inl rfl
    | incr c hq hi hstage hr hk hlt =>
      rcases hfrom with rfl | ⟨q, x, ms, heq⟩
      · exact Or.inr ⟨_, _, _, c, rfl, hi, hr, hk⟩
      · exact absurd heq (by simp)
    | merge hq => exact absurd rfl hq
    | evict => exact absurd rfl (hne _ _ _)

/-- **Single writer.** In every world that three regions reach while no key expires, no
region's view of a slot and no value that travels is ahead of the owner's own slot. A step
changes an owner's slot only where it is the owner's gateway that counts a request there,
and it takes no slot back. -/
theorem slots_bounded {w : World} (h : Kept py chunkSize w) :
    (∀ q k r, (w.cluster.globals q k).slot r ≤ (w.cluster.globals r k).slot r) ∧
    (∀ x, Carries py w x → x.value.toInt ≤ w.ownSlot x) ∧
    ∀ e w', KeepStep py chunkSize w e w' →
      (∀ r k, (w'.cluster.globals r k).slots r ≠ (w.cluster.globals r k).slots r →
        ∃ i unix out c, e = .gateway (.incr i unix out) ∧ w.cluster.checks[i]? = some c ∧
          c.region = r ∧ c.keyAt unix = k) ∧
      ∀ q k r, (w.cluster.globals q k).slot r ≤ (w'.cluster.globals q k).slot r := by
  refine ⟨slot_le_own h, fun x hx => ?_, fun e w' hstep => ⟨fun r k hne => ?_, hstep.slot_le⟩⟩
  · rw [ownSlot, own_eq_counted h]
    exact (inv_of_reached h.reached).2.carried_le x.key x.peer _ ⟨x, hx, rfl, rfl, rfl⟩
  · exact (hstep.own_cases r k).resolve_left hne

/-- A request in `us` whose message is delivered to `eu` twice. -/
theorem slots_bounded_sample :
    let raw := utf8Encode (
      str "\x7b\"tier\":\"free\",\"user_id\":\"u_1\",\"window_id\":1,\"region\":\"us\"," ++
      str "\"value\":1,\"ts_ms\":60000\x7d")
    let es := (Cluster.handling 0 .us .free Cluster.sampleUser 60).map .gateway ++
      [.deliver .eu raw, .apply .eu .ok 60001, .deliver .eu raw]
    let k := globalKey (str "free") (str "u_1") 1
    ∃ w, Kept samplePython 1000 w ∧ Run (KeepStep samplePython 1000) init es w ∧
      (w.cluster.globals .eu k).slot .us = 1 ∧
      (w.cluster.globals .eu k).slot .us ≤ (w.cluster.globals .us k).slot .us := by
  intro raw es k
  have hslot : (exec (guarded (World.step samplePython 1000) fun _ e => e.evicts = false) init
      es).map (fun w => (w.cluster.globals .eu k).slot .us) = some 1 := by decide +kernel
  obtain ⟨w, hw, hone⟩ := Option.map_eq_some_iff.mp hslot
  have hrun : Run (KeepStep samplePython 1000) init es w := run_of_exec_guarded hw
  have hkept : Kept samplePython 1000 w := ⟨init, es, rfl, hrun⟩
  exact ⟨w, hkept, hrun, hone, (slots_bounded hkept).1 .eu k .us⟩

end World

end Gdrl
