import Gdrl.Slots

/-!
# Convergence

Once the partitions are healed and a window is over, one pass of each reconciler whose
chunks the peers take in makes the three regions agree on the window (`converges`).

The slot of one region and key is followed on its way to one peer. It stays as it is with
its owner (`Settled`). From the scan of its key on it is in the chunk of the pass
(`Holding`), and only a published chunk takes it out (`Holding.step`). From the delivery
on it is pending in the relay of the peer (`Pending`), and only its merge takes it out
(`Pending.step`).
-/

namespace Gdrl

namespace World

/-! ## The conditions -/

/-- What may happen once the window is over : no request is counted in it, no rule comes
back, and Redis answers the relays and the reconcilers. -/
def Event.calm (window : ℤ) : Event → Bool
  | .gateway (.incr _ unix _) => unix.tdiv 60 ≠ window
  | .addRule .. => false
  | .apply _ out _ => out = .ok
  | .flush _ _ out => out = .ok
  | .abort _ => false
  | _ => true

variable (py : Python) (chunkSize : ℤ) (window : ℤ)

/-- A step in which no key expires and the window is left alone. -/
def CalmStep (w : World) (e : Event) (w' : World) : Prop :=
  KeepStep py chunkSize w e w' ∧ e.calm window = true

/-- From `w` on, over the events `es`, the relay of `q` takes a message in and gets through
with it. -/
def Handled (q : Region) (raw : List Byte) (w : World) (es : List Event) : Prop :=
  ∃ a b c w', es = a ++ .deliver q raw :: (b ++ c) ∧
    Run (CalmStep py chunkSize window) w (a ++ .deliver q raw :: b) w' ∧ w'.relays q = .idle

/-- One `reconcile_once` of region `r` on the window, from its start to its end, among the
events `es` that happen from `w` on. -/
structure Reconciliation (r : Region) (w : World) (es : List Event) where
  before : List Event
  during : List Event
  after : List Event
  start : World
  finish : World
  events : es = before ++ .startPass r window :: (during ++ after)
  run_before : Run (CalmStep py chunkSize window) w before start
  run_during : Run (CalmStep py chunkSize window) start (.startPass r window :: during) finish
  once : ∀ n, .startPass r n ∉ during
  ended : finish.passes r = none
  /-- `SCAN` returns every key of the window that is there all the time. -/
  scanned : ∀ key, (start.cluster.globals r).exists key = true →
    glob (scanPattern window) key = true → .scan r key ∈ during
  /-- Both peers handle every chunk that is published. -/
  handled : ∀ a tsMs b w' p raw, during = a ++ .flush r tsMs .ok :: b →
    Run (CalmStep py chunkSize window) start (.startPass r window :: a) w' → w'.passes r = some p →
    serializeReconcile py (p.envelope r tsMs) = .ok raw →
    ∀ q, q ≠ r → Handled py chunkSize window q raw w' (.flush r tsMs .ok :: (b ++ after))

variable {py chunkSize window}

theorem CalmStep.det (w : World) (e : Event) (t t' : World) (h : CalmStep py chunkSize window w e t)
    (h' : CalmStep py chunkSize window w e t') : t = t' :=
  Option.some.inj (h.1.1.symm.trans h'.1.1)

/-- An owner's slot is a 64-bit integer. -/
theorem own_lt {w : World} (h : Kept py chunkSize w) (r : Region) (k : Str) :
    (w.cluster.globals r k).slot r < 2 ^ 63 := by
  refine h.invariant (I := fun w => (w.cluster.globals r k).slot r < 2 ^ 63) ?_ ?_
  · rintro w rfl
    exact Int.pow_pos (by decide)
  · rintro w e w' hlt hstep
    rcases hstep.cluster_effect with heq | ⟨ce, hce, hne, -⟩
    · rw [heq]
      exact hlt
    · have hslot := hce.slotEffect r k r
      rw [Hash.slot]
      generalize (w'.cluster.globals r k).slots r = o at hslot
      cases hslot with
      | same => exact hlt
      | incr c hq hi hstage hr hk hlt => exact hlt
      | merge hq => exact absurd rfl hq
      | evict => exact absurd rfl (hne _ _ _)

/-- So every hash can be read. -/
theorem legible_globals {w : World} (h : Kept py chunkSize w) (q : Region) (k : Str) :
    Pass.legible (w.cluster.globals q k) = true := by
  refine List.all_eq_true.mpr fun r _ => ?_
  cases hs : (w.cluster.globals q k).slots r with
  | none => rfl
  | some n =>
    have hslot : (w.cluster.globals q k).slot r = n := by rw [Hash.slot, hs]; rfl
    have hnonneg := (inv_of_reached h.reached).1.nonneg q k r
    have hle := (slot_le_own h q k r).trans_lt (own_lt h r k)
    rw [hslot] at hnonneg hle
    refine decide_eq_true (printable_of_fits ?_)
    simp only [fits64, Bool.and_eq_true, decide_eq_true_eq]
    omega

/-! ## The owner's slot -/

/-- The window is over for region `r` at a key, with `v` in its slot, and the partitions are
healed. -/
structure Settled (py : Python) (chunkSize : ℤ) (r : Region) (key : Str) (v : ℤ) (w : World) :
    Prop where
  kept : Kept py chunkSize w
  tables : ∀ q, w.tables q = .empty
  own : (w.cluster.globals r key).slots r = some v

variable {r : Region} {tier user : Str} {v : ℤ}

theorem CalmStep.tables {w w' : World} {e : Event} (h : CalmStep py chunkSize window w e w')
    (ht : ∀ q, w.tables q = .empty) (q : Region) : w'.tables q = .empty := by
  obtain ⟨hstep, hcalm⟩ := h
  cases effect hstep.1 with
  | addRule h => exact absurd hcalm Bool.false_ne_true
  | removeRule h =>
    rename_i p f g
    rw [h]
    rcases replace_cases w.tables p q ((w.tables p).remove f g) with ⟨rfl, heq⟩ | ⟨-, heq⟩
    · refine heq.trans ?_
      rw [ht]
      rfl
    · exact heq.trans (ht q)
  | clearRules h =>
    rename_i p
    rw [h]
    rcases replace_cases w.tables p q .empty with ⟨rfl, heq⟩ | ⟨-, heq⟩
    · exact heq
    · exact heq.trans (ht q)
  | _ => rename_i h; rw [h]; exact ht q

/-- Without requests in the window, the owner's slot stays. -/
theorem CalmStep.own_eq {w w' : World} {e : Event} (h : CalmStep py chunkSize window w e w')
    (r : Region) (ht : 58 ∉ tier) (user : Str) :
    (w'.cluster.globals r (globalKey tier user window)).slots r =
      (w.cluster.globals r (globalKey tier user window)).slots r := by
  refine (h.1.own_cases r _).resolve_right ?_
  rintro ⟨i, unix, out, c, rfl, -, -, hkey⟩
  exact of_decide_eq_true h.2 (globalKey_inj c.tier.colon_notMem_name ht hkey).2.2

theorem Settled.step (ht : 58 ∉ tier) {w w' : World} {e : Event}
    (hw : Settled py chunkSize r (globalKey tier user window) v w)
    (h : CalmStep py chunkSize window w e w') :
    Settled py chunkSize r (globalKey tier user window) v w' :=
  ⟨hw.kept.step h.1, h.tables hw.tables, (h.own_eq r ht user).trans hw.own⟩

theorem Settled.run (ht : 58 ∉ tier) {w w' : World} {es : List Event}
    (hw : Settled py chunkSize r (globalKey tier user window) v w)
    (h : Run (CalmStep py chunkSize window) w es w') :
    Settled py chunkSize r (globalKey tier user window) v w' :=
  h.invariant (fun _ _ _ hs hstep => hs.step ht hstep) hw

theorem slot_le_of_run {w w' : World} {es : List Event}
    (h : Run (CalmStep py chunkSize window) w es w') (q : Region) (k : Str) (r : Region) :
    (w.cluster.globals q k).slot r ≤ (w'.cluster.globals q k).slot r :=
  h.relate (R := fun w w' => (w.cluster.globals q k).slot r ≤ (w'.cluster.globals q k).slot r)
    (fun _ => le_rfl) (fun _ _ _ => le_trans) fun _ _ _ hstep => hstep.1.slot_le q k r

/-! ## In the chunk -/

/-- The pass of `r` has taken the slot in. -/
def Holding (r : Region) (window : ℤ) (k : Str × Str) (v : ℤ) (w : World) : Prop :=
  ∃ p x, w.passes r = some p ∧ p.window = window ∧ p.chunk.get? k = some x ∧ x.toInt = v

/-- The slot stays in the chunk until it is published. -/
theorem Holding.step {w w' : World} {e : Event}
    (hw : Settled py chunkSize r (globalKey tier user window) v w)
    (hold : Holding r window (tier, user) v w) (h : CalmStep py chunkSize window w e w') :
    Holding r window (tier, user) v w' ∨ ∃ tsMs, e = .flush r tsMs .ok := by
  obtain ⟨p, x, hp, hwindow, hx, hv⟩ := hold
  obtain ⟨hstep, hcalm⟩ := h
  have hkeep : w'.passes r = w.passes r → Holding r window (tier, user) v w' :=
    fun heq => ⟨p, x, heq.trans hp, hwindow, hx, hv⟩
  cases effect hstep.1 with
  | startPass hnone hprint h =>
    rename_i r' n
    refine Or.inl (hkeep ?_)
    rw [h]
    exact replace_of_ne _ _ fun heq => by simp [← heq, hp] at hnone
  | scan p' o hp' hending hfull hglob hkey ho h =>
    rename_i r' key
    rcases replace_cases w.passes r' r o with ⟨rfl, heq⟩ | ⟨-, heq⟩
    · obtain rfl := Option.some.inj (hp'.symm.trans hp)
      obtain ⟨p'', hscan⟩ := Pass.scan_ok (legible_globals hw.kept r) p' key
      have hp'' : w'.passes r = some p'' := by rw [h, ← (ho p'').mpr hscan]; exact heq
      refine Or.inl ?_
      rcases Pass.scan_cases hscan with rfl | ⟨k, n, hn, -, hs, -, rfl⟩
      · exact ⟨_, x, hp'', hwindow, hx, hv⟩
      · by_cases hk : k = (tier, user)
        · -- the key once more
          subst hk
          refine ⟨_, ⟨.int n, hn⟩, hp'', hwindow, by simp, ?_⟩
          rw [hwindow, hw.own] at hs
          exact (Option.some.inj hs).symm
        · exact ⟨_, x, hp'', hwindow, by rw [Dict.get?_set, if_neg (Ne.symm hk), hx], hv⟩
    · exact Or.inl (hkeep (by rw [h]; exact heq))
  | endScan p' hp' hending hfull h =>
    rename_i r'
    rcases replace_cases w.passes r' r p'.scannedAll with ⟨rfl, heq⟩ | ⟨-, heq⟩
    · obtain rfl := Option.some.inj (hp'.symm.trans hp)
      have hsize := Dict.size_ne_zero_of_get? hx
      refine Or.inl ⟨{ p' with ending := true }, x, ?_, hwindow, hx, hv⟩
      rw [h]
      exact heq.trans (if_neg hsize)
    · exact Or.inl (hkeep (by rw [h]; exact heq))
  | flush p' o raws hp' hready hts hraws hok ho h =>
    rename_i r' tsMs out
    rcases replace_cases w.passes r' r o with ⟨rfl, heq⟩ | ⟨-, heq⟩
    · obtain rfl := of_decide_eq_true hcalm
      exact Or.inr ⟨tsMs, rfl⟩
    · exact Or.inl (hkeep (by rw [h]; exact heq))
  | abort p' hp' h => exact absurd hcalm Bool.false_ne_true
  | _ => rename_i h; exact Or.inl (hkeep (by rw [h]))

/-- The slot is still in the chunk when it is published. -/
theorem Holding.exists_flush (ht : 58 ∉ tier) {w w' : World} {es : List Event}
    (hrun : Run (CalmStep py chunkSize window) w es w')
    (hw : Settled py chunkSize r (globalKey tier user window) v w)
    (hold : Holding r window (tier, user) v w) (hended : w'.passes r = none) :
    ∃ a tsMs b u, es = a ++ .flush r tsMs .ok :: b ∧ Run (CalmStep py chunkSize window) w a u ∧
      Holding r window (tier, user) v u ∧ fits64 tsMs = true := by
  have hnot : ¬ Holding r window (tier, user) v w' := by
    rintro ⟨p, x, hp, -⟩
    exact absurd (hended.symm.trans hp) (by simp)
  obtain ⟨a, e, b, u, u', rfl, ha, hu, hstep, hu', hb⟩ := hrun.exists_exit hold hnot
  obtain ⟨tsMs, rfl⟩ := (hu.step (hw.run ht ha) hstep).resolve_left hu'
  cases effect hstep.1.1 with
  | flush p o raws hp hready hts => exact ⟨a, tsMs, b, u, rfl, ha, hu, hts⟩

/-- A pass of the window stays one, as long as no other pass starts. -/
theorem window_of_run {w w' : World} {es : List Event}
    (hrun : Run (CalmStep py chunkSize window) w es w') (hes : ∀ n, .startPass r n ∉ es)
    (hw : ∀ p, w.passes r = some p → p.window = window) :
    ∀ p, w'.passes r = some p → p.window = window := by
  induction hrun with
  | nil => exact hw
  | cons hstep _ ih =>
    refine ih (fun n hn => hes n (List.mem_cons_of_mem _ hn)) fun p' hp' => ?_
    rcases (effect hstep.1.1).passes_cases r with
      heq | heq | ⟨n, -, rfl, -⟩ | ⟨p, p'', hp, heq, hstep⟩
    · exact hw p' (heq ▸ hp')
    · exact absurd (heq.symm.trans hp') (by simp)
    · exact absurd List.mem_cons_self (hes n)
    · obtain rfl := Option.some.inj (heq.symm.trans hp')
      rcases hstep with ⟨key, -, hscan⟩ | rfl | rfl
      · exact (Pass.scan_window hscan).1.trans (hw p hp)
      · exact hw p hp
      · exact hw p hp

/-- The scan of the key takes the slot in. -/
theorem holding_of_scan (ht : 58 ∉ tier) (hu : 58 ∉ user) {w w' : World}
    (hw : Settled py chunkSize r (globalKey tier user window) v w)
    (hwindow : ∀ p, w.passes r = some p → p.window = window)
    (h : CalmStep py chunkSize window w (.scan r (globalKey tier user window)) w') :
    Holding r window (tier, user) v w' := by
  cases effect h.1.1 with
  | scan p o hp hending hfull hglob hkey ho hw' =>
    obtain rfl := hwindow p hp
    have hn : 0 ≤ v := by
      have := (inv_of_reached hw.kept.reached).1.nonneg r (globalKey tier user p.window) r
      rwa [Hash.slot, hw.own] at this
    have hscan := Pass.scan_globalKey ht hu (legible_globals hw.kept r _) hn hw.own
    refine ⟨{ p with chunk := p.chunk.set (tier, user) ⟨.int v, hn⟩ }, ⟨.int v, hn⟩, ?_, rfl,
      (Dict.get?_set _ _ _ _).trans (if_pos rfl), rfl⟩
    rw [hw', ← (ho _).mpr hscan]
    exact replace_self _ _ _

/-! ## In the relay -/

/-- The relay of `q` still has the slot to apply. -/
def Pending (q : Region) (x : SlotWrite) (w : World) : Prop :=
  ∃ xs tsMs, w.relays q = .applying .reconcile xs tsMs ∧ x ∈ xs

/-- The slot is pending until it is merged. -/
theorem Pending.step {q : Region} {x : SlotWrite} {w w' : World} {e : Event}
    (hw : Kept py chunkSize w) (hpend : Pending q x w) (hlt : x.value.toInt < 2 ^ 53)
    (h : CalmStep py chunkSize window w e w') :
    Pending q x w' ∨ x.value.toInt ≤ (w'.cluster.globals q x.key).slot x.peer := by
  obtain ⟨xs, tsMs, htask, hx⟩ := hpend
  obtain ⟨hstep, hcalm⟩ := h
  have hkeep : w'.relays q = w.relays q → Pending q x w' :=
    fun heq => ⟨xs, tsMs, heq.trans htask, hx⟩
  cases effect hstep.1 with
  | deliver hidle hmem h =>
    refine Or.inl (hkeep ?_)
    rw [h]
    exact replace_of_ne _ _ fun heq => by simp [← heq, htask] at hidle
  | apply kind y ys ts t b htask' hnext hb h =>
    rename_i q' out ms
    rcases replace_cases w.relays q' q t with ⟨rfl, heq⟩ | ⟨-, heq⟩
    · obtain ⟨rfl, rfl, rfl⟩ := Relay.Task.applying.inj (htask'.symm.trans htask)
      rcases List.mem_cons.mp hx with rfl | hx
      · -- its turn
        right
        obtain rfl := of_decide_eq_true hcalm
        have hwork := (inv_of_reached hw.reached).1.relays q
        rw [htask] at hwork
        obtain ⟨hne, hsend⟩ := hwork.2 x hx
        have hredis : w'.cluster.globals q =
            (applyRemoteSlot q x .ok ms (w.cluster.globals q)).2 := by
          rw [h]
          exact if_pos rfl
        rw [hredis, applyRemoteSlot_redis, if_pos ⟨hne, hsend, rfl⟩, GlobalRedis.set_self]
        exact le_slot_maxMerge _ _ _ x.value.nonneg hlt
      · left
        rcases hnext with ⟨-, hkind⟩ | ⟨-, hkind | rfl⟩ | ⟨-, -, rfl⟩
        · exact absurd hkind (by decide)
        · exact absurd hkind (by decide)
        · exact absurd hx List.not_mem_nil
        · exact ⟨ys, ts, by rw [h]; exact heq, hx⟩
    · exact Or.inl (hkeep (by rw [h]; exact heq))
  | _ => rename_i h; exact Or.inl (hkeep (by rw [h]))

/-- A chunk that is delivered is pending. -/
theorem pending_of_deliver {q : Region} {p : Pass} {tsMs : ℤ} {raw : List Byte} {x : SlotWrite}
    (hp : p.Plain) (hts : fits64 tsMs = true)
    (hraw : serializeReconcile py (p.envelope r tsMs) = .ok raw) (hx : x ∈ chunkWrites r p)
    (hq : q ≠ r) {w w' : World} (hw : ∀ q, w.tables q = .empty)
    (h : CalmStep py chunkSize window w (.deliver q raw) w') : Pending q x w' := by
  obtain ⟨raw', hraw', hparse⟩ := parse_serialize py (hp.envelope r hts)
  obtain rfl := Except.ok.inj (hraw'.symm.trans hraw)
  have hreceive : Relay.receive py q .empty raw' = .apply .reconcile (chunkWrites r p) tsMs := by
    rw [Relay.receive, hparse]
    dsimp only
    rw [if_neg (by exact Bool.false_ne_true), if_neg (by exact Ne.symm hq)]
    rfl
  cases effect h.1.1 with
  | deliver hidle hmem h =>
    refine ⟨chunkWrites r p, tsMs, ?_, hx⟩
    rw [h]
    dsimp only
    rw [replace_self, Relay.accept, hw, hreceive]
    cases hw : chunkWrites r p with
    | nil => exact absurd (hw ▸ hx) List.not_mem_nil
    | cons y ys => rfl

/-- A chunk that is handled is merged. -/
theorem Handled.slot_le (ht : 58 ∉ tier) {q : Region} {p : Pass} {tsMs : ℤ} {raw : List Byte}
    {x : SlotWrite} (hp : p.Plain) (hts : fits64 tsMs = true)
    (hraw : serializeReconcile py (p.envelope r tsMs) = .ok raw) (hx : x ∈ chunkWrites r p)
    (hq : q ≠ r) (hlt : x.value.toInt < 2 ^ 53) {w w' : World} {es : List Event}
    (hw : Settled py chunkSize r (globalKey tier user window) v w)
    (h : Handled py chunkSize window q raw w es)
    (hrun : Run (CalmStep py chunkSize window) w es w') :
    x.value.toInt ≤ (w'.cluster.globals q x.key).slot x.peer := by
  obtain ⟨a, b, c, t, rfl, hhandled, hidle⟩ := h
  obtain ⟨u, ha, hb⟩ := hhandled.split
  cases hb with
  | cons hdeliver hb =>
    rename_i u'
    have hu := hw.run ht ha
    have hpend := pending_of_deliver hp hts hraw hx hq hu.tables hdeliver
    have hnot : ¬ Pending q x t := by
      rintro ⟨xs, ts, htask, -⟩
      exact absurd (hidle.symm.trans htask) (by simp)
    obtain ⟨b1, e, b2, u1, u2, -, hb1, hu1, hstep, hu2, hb2⟩ := hb.exists_exit hpend hnot
    have hkept := ((hu.step ht hdeliver).run ht hb1).kept
    have hle := (hu1.step hkept hlt hstep).resolve_left hu2
    -- what is merged stays
    have hrest : Run (CalmStep py chunkSize window) t c w' :=
      hhandled.rest CalmStep.det (by simpa using hrun)
    exact hle.trans (slot_le_of_run (hb2.append hrest) q x.key x.peer)

/-- Behind a pass of its region, a slot has arrived at every peer. -/
theorem Reconciliation.slot_le (ht : 58 ∉ tier) (hu : 58 ∉ user) {w w' : World}
    {es : List Event} (R : Reconciliation py chunkSize window r w es)
    (hw : Settled py chunkSize r (globalKey tier user window) v w) (hlt : v < 2 ^ 53)
    (hrun : Run (CalmStep py chunkSize window) w es w') {q : Region} (hq : q ≠ r) :
    v ≤ (w'.cluster.globals q (globalKey tier user window)).slot r := by
  have hstart := hw.run ht R.run_before
  -- the key is there, so that the scan returns it
  have hexists : (R.start.cluster.globals r).exists (globalKey tier user window) = true :=
    List.any_eq_true.mpr ⟨r, r.mem_all, by rw [hstart.own]; rfl⟩
  have hscan := R.scanned _ hexists (glob_globalKey tier user window)
  obtain ⟨b1, b2, hduring⟩ := List.mem_iff_append.mp hscan
  have honce := R.once
  have hrun' : Run (CalmStep py chunkSize window) R.start
      (.startPass r window :: b1 ++ .scan r (globalKey tier user window) :: b2) R.finish := by
    have := R.run_during
    rwa [hduring] at this
  obtain ⟨u1, h1, h2⟩ := hrun'.split
  have hwindow : ∀ p, u1.passes r = some p → p.window = window := by
    cases h1 with
    | cons hpass h1 =>
      rename_i u0
      refine window_of_run h1 (fun n hn => honce n (hduring ▸ List.mem_append_left _ hn)) ?_
      cases effect hpass.1.1 with
      | startPass hnone hprint h =>
        intro p hp
        rw [h] at hp
        rw [← Option.some.inj ((replace_self _ _ _).symm.trans hp)]
  cases h2 with
  | cons hstep h2 =>
    rename_i u2
    have hu1 := hstart.run ht h1
    have hhold := holding_of_scan ht hu hu1 hwindow hstep
    have hu2 := hu1.step ht hstep
    -- it is in the chunk up to a flush
    obtain ⟨a, tsMs, b, u3, rfl, ha, ⟨p, x, hp, rfl, hx, rfl⟩, hts⟩ :=
      hhold.exists_flush ht h2 hu2 R.ended
    have hu3 := hu2.run ht ha
    have hplain := (inv_of_reached hu3.kept.reached).1.passes r p hp
    obtain ⟨raw, hraw, -⟩ := parse_serialize py (hplain.envelope r hts)
    have hto3 : Run (CalmStep py chunkSize p.window) R.start
        (.startPass r p.window :: (b1 ++ .scan r (globalKey tier user p.window) :: a)) u3 :=
      h1.append (.cons hstep ha)
    have hhandled := R.handled _ tsMs b u3 p raw (by rw [hduring]; simp) hto3 hp hraw q hq
    -- what is behind the flush of the whole run
    have hrest : Run (CalmStep py chunkSize p.window) u3
        (.flush r tsMs .ok :: (b ++ R.after)) w' := by
      refine hto3.rest CalmStep.det (R.run_before.rest CalmStep.det ?_)
      have := hrun
      rw [R.events, hduring] at this
      simpa using this
    have hwrite : ⟨tier, user, p.window, r, x⟩ ∈ chunkWrites r p :=
      mem_chunkWrites.mpr ⟨(tier, user), x, hx, rfl⟩
    exact hhandled.slot_le ht hplain hts hraw hwrite hq hlt hu3 hrest

/-- **Convergence.** From any state that three regions reach while no key expires : if the
partition rules are cleared, a window is over and every region runs one pass on it, with
Redis up, and both peers handle every chunk, then the regions agree on every user of the
window without a colon in his name, whatever else is delivered, and every slot is that of
its owner. -/
theorem converges {w w' : World} {es : List Event} (hw : Kept py chunkSize w)
    (htables : ∀ q, w.tables q = .empty) (hrun : Run (CalmStep py chunkSize window) w es w')
    (passes : ∀ r, Reconciliation py chunkSize window r w es) (tier : Tier) {user : Str}
    (hu : 58 ∉ user)
    (hsmall : ∀ r, (w'.cluster.globals r (globalKey tier.name user window)).slot r < 2 ^ 53) :
    (∀ q q', (w'.cluster.globals q (globalKey tier.name user window)).slot =
      (w'.cluster.globals q' (globalKey tier.name user window)).slot) ∧
    ∀ q r, (w'.cluster.globals q (globalKey tier.name user window)).slot r =
      (w'.cluster.globals r (globalKey tier.name user window)).slot r := by
  have ht := tier.colon_notMem_name
  have hw' : Kept py chunkSize w' := hw.run (hrun.mono fun _ _ _ h => h.1)
  have hown : ∀ q r, (w'.cluster.globals q (globalKey tier.name user window)).slot r =
      (w'.cluster.globals r (globalKey tier.name user window)).slot r := by
    intro q r
    by_cases hq : q = r
    · rw [hq]
    refine le_antisymm (slot_le_own hw' q _ r) ?_
    have hkeep := hrun.invariant (I := fun u =>
      (u.cluster.globals r (globalKey tier.name user window)).slots r =
        (w.cluster.globals r (globalKey tier.name user window)).slots r)
      (fun _ _ _ hs hstep => (hstep.own_eq r ht user).trans hs) rfl
    have hlt := hsmall r
    rw [Hash.slot, hkeep] at hlt ⊢
    cases hv : (w.cluster.globals r (globalKey tier.name user window)).slots r with
    | none => exact (inv_of_reached hw'.reached).1.nonneg q _ r
    | some v =>
      rw [hv] at hlt
      exact (passes r).slot_le ht hu ⟨hw, htables, hv⟩ hlt hrun hq
  exact ⟨fun q q' => funext fun r => (hown q r).trans (hown q' r).symm, hown⟩

/-! ## A sample -/

/-- A request in `us` whose message nobody takes in. -/
def sampleLost : List Event := (Cluster.handling 0 .us .free Cluster.sampleUser 60).map .gateway

def sampleKey : Str := globalKey (str "free") (str "u_1") 1

/-- The chunk that `us` publishes. -/
def sampleChunk : List Byte := utf8Encode (
  str "\x7b\"kind\":\"reconcile\",\"v\":1,\"origin\":\"us\",\"window_id\":1,\"ts_ms\":120000," ++
  str "\"slots\":\x7b\"free:u_1\":1\x7d\x7d")

/-- A pass of a region without a key. -/
def sampleEmptyPass (r : Region) : List Event := [.startPass r 1, .endScan r]

/-- The pass of `us`. -/
def samplePass : List Event :=
  [.startPass .us 1, .scan .us sampleKey, .endScan .us, .flush .us 120000 .ok]

/-- Its chunk at a peer. -/
def sampleDelivery (q : Region) : List Event := [.deliver q sampleChunk, .apply q .ok 120001]

def sampleHeal : List Event :=
  sampleEmptyPass .eu ++ (sampleEmptyPass .asia ++ (samplePass ++
    (sampleDelivery .eu ++ sampleDelivery .asia)))

theorem CalmStep.steps {w w' : World} {es : List Event}
    (h : Run (CalmStep py chunkSize window) w es w') :
    Run (Steps (World.step py chunkSize)) w es w' :=
  h.mono fun _ _ _ hs => hs.1.1

theorem exists_sampleHeal : ∃ w w', Run (KeepStep samplePython 1000) init sampleLost w ∧
    Run (CalmStep samplePython 1000 1) w sampleHeal w' := by
  have hsome : ((exec (guarded (World.step samplePython 1000) fun _ e => e.evicts = false) init
      sampleLost).bind fun w => exec (guarded (World.step samplePython 1000) fun _ e =>
        e.evicts = false ∧ e.calm 1 = true) w sampleHeal).isSome = true := by decide +kernel
  obtain ⟨w', hw'⟩ := Option.isSome_iff_exists.mp hsome
  obtain ⟨w, hw, hw'⟩ := Option.bind_eq_some_iff.mp hw'
  exact ⟨w, w', run_of_exec_guarded hw,
    (run_of_exec_guarded hw').mono fun _ _ _ h => ⟨⟨h.1, h.2.1⟩, h.2.2⟩⟩

/-- What the sample run leads to can be computed. -/
theorem sample_map {w u : World} {es : List Event} {β : Type} {b : β}
    (hw : Run (KeepStep samplePython 1000) init sampleLost w)
    (hu : Run (CalmStep samplePython 1000 1) w es u) (f : World → β)
    (hf : (exec (World.step samplePython 1000) init (sampleLost ++ es)).map f = some b) : f u = b :=
  map_of_run ((hw.mono fun _ _ _ h => h.1).append (CalmStep.steps hu)) hf

theorem sample_notExists {w u : World} {es : List Event} {r : Region}
    (hw : Run (KeepStep samplePython 1000) init sampleLost w)
    (hu : Run (CalmStep samplePython 1000 1) w es u)
    (hf : ∀ k, (exec (World.step samplePython 1000) init (sampleLost ++ es)).map
      (fun u => u.cluster.globals r k) = some .empty) (k : Str) :
    (u.cluster.globals r).exists k = false := by
  have h : u.cluster.globals r k = .empty :=
    sample_map hw hu (fun u => u.cluster.globals r k) (hf k)
  simp [GlobalRedis.exists, h, Hash.empty]

/-- A pass that finds no key. -/
def emptyReconciliation {w start finish : World} {r : Region} {before : List Event}
    (after : List Event) (hbefore : Run (CalmStep samplePython 1000 1) w before start)
    (hduring : Run (CalmStep samplePython 1000 1) start (sampleEmptyPass r) finish)
    (hended : finish.passes r = none) (hempty : ∀ k, (start.cluster.globals r).exists k = false) :
    Reconciliation samplePython 1000 1 r w (before ++ (sampleEmptyPass r ++ after)) where
  before := before
  during := [.endScan r]
  after := after
  start := start
  finish := finish
  events := rfl
  run_before := hbefore
  run_during := hduring
  once := by simp
  ended := hended
  scanned key hkey := by simp [hempty key] at hkey
  handled a tsMs b t p raw h := by
    cases a with
    | nil => simp at h
    | cons e a => simp at h

/-- The events before the pass of `us`. -/
def sampleBefore : List Event := sampleEmptyPass .eu ++ sampleEmptyPass .asia

/-- Both peers handle the chunk, one after the other. -/
theorem sample_handled {w start t w' : World} {q : Region}
    (hw : Run (KeepStep samplePython 1000) init sampleLost w)
    (hbefore : Run (CalmStep samplePython 1000 1) w sampleBefore start)
    (hpass : Run (CalmStep samplePython 1000 1) start
      [.startPass .us 1, .scan .us sampleKey, .endScan .us] t)
    (hrest : Run (CalmStep samplePython 1000 1) t
      (.flush .us 120000 .ok :: (sampleDelivery .eu ++ sampleDelivery .asia)) w') (hq : q ≠ .us) :
    Handled samplePython 1000 1 q sampleChunk t
      (.flush .us 120000 .ok :: (sampleDelivery .eu ++ sampleDelivery .asia)) := by
  cases q with
  | us => exact absurd rfl hq
  | eu =>
    have hsplit : Run (CalmStep samplePython 1000 1) t
      (([.flush .us 120000 .ok] ++ sampleDelivery .eu) ++ sampleDelivery .asia) w' := hrest
    obtain ⟨u, hu, -⟩ := hsplit.split
    exact ⟨[.flush .us 120000 .ok], [.apply .eu .ok 120001], sampleDelivery .asia, u, rfl, hu,
      sample_map hw ((hbefore.append hpass).append hu) (fun u => u.relays .eu)
        (by decide +kernel)⟩
  | asia =>
    exact ⟨.flush .us 120000 .ok :: sampleDelivery .eu, [.apply .asia .ok 120001], [], w', rfl,
      hrest, sample_map hw ((hbefore.append hpass).append hrest) (fun u => u.relays .asia)
        (by decide +kernel)⟩

/-- The pass of `us`. -/
def sampleReconciliation {w start finish w' : World}
    (hw : Run (KeepStep samplePython 1000) init sampleLost w)
    (hbefore : Run (CalmStep samplePython 1000 1) w sampleBefore start)
    (hduring : Run (CalmStep samplePython 1000 1) start samplePass finish)
    (hafter : Run (CalmStep samplePython 1000 1) finish
      (sampleDelivery .eu ++ sampleDelivery .asia) w') :
    Reconciliation samplePython 1000 1 .us w sampleHeal where
  before := sampleBefore
  during := [.scan .us sampleKey, .endScan .us, .flush .us 120000 .ok]
  after := sampleDelivery .eu ++ sampleDelivery .asia
  start := start
  finish := finish
  events := rfl
  run_before := hbefore
  run_during := hduring
  once := by simp
  ended := by
    have h := sample_map hw (hbefore.append hduring) (fun u => (u.passes .us).isNone)
      (b := true) (by decide +kernel)
    exact Option.isNone_iff_eq_none.mp h
  scanned key hkey hglob := by
    -- `HINCRBY` and `EXPIRE` each wrote the hash of the key
    have hslots := sample_map hw hbefore (fun u => u.cluster.globals .us key)
      (b := if key = sampleKey then _ else if key = sampleKey then _ else .empty) rfl
    by_cases hk : key = sampleKey
    · simp [hk]
    · simp [GlobalRedis.exists, hslots, hk, Hash.empty] at hkey
  handled a tsMs b t p raw h hrun hp hraw q hq := by
    obtain ⟨rfl, rfl, rfl⟩ : a = [.scan .us sampleKey, .endScan .us] ∧ tsMs = 120000 ∧ b = [] := by
      rcases a with _ | ⟨e, _ | ⟨e', _ | ⟨e'', a⟩⟩⟩ <;> simp_all
    have hchunk : (t.passes .us).map (fun p =>
        (serializeReconcile samplePython (p.envelope .us 120000)).toOption) =
          some (some sampleChunk) :=
      sample_map hw (hbefore.append hrun) (fun t => (t.passes .us).map fun p =>
        (serializeReconcile samplePython (p.envelope .us 120000)).toOption) (by decide +kernel)
    rw [hp, Option.map_some, hraw] at hchunk
    obtain rfl : raw = sampleChunk := Option.some.inj (Option.some.inj hchunk)
    have hrest : Run (CalmStep samplePython 1000 1) t ([.flush .us 120000 .ok] ++
        (sampleDelivery .eu ++ sampleDelivery .asia)) w' :=
      hrun.rest CalmStep.det (hduring.append hafter)
    exact sample_handled hw hbefore hrun hrest hq

/-- Behind the passes `eu` and `asia` know of the request in `us`. -/
theorem converges_sample : ∃ w w', Kept samplePython 1000 w ∧
    Run (CalmStep samplePython 1000 1) w sampleHeal w' ∧
    (∀ q, (w.cluster.globals q sampleKey).slot .us = if q = .us then 1 else 0) ∧
    ∀ q, (w'.cluster.globals q sampleKey).slot .us = 1 := by
  obtain ⟨w, w', hw, hrun⟩ := exists_sampleHeal
  have hkept : Kept samplePython 1000 w := ⟨init, sampleLost, rfl, hw⟩
  obtain ⟨w₁, h1, hrest⟩ := Run.split (hrun : Run _ w (sampleEmptyPass .eu ++ _) w')
  obtain ⟨w₂, h2, hrest⟩ := hrest.split
  obtain ⟨w₃, h3, h4⟩ := hrest.split
  have htables : ∀ q, w.tables q = .empty := fun q =>
    sample_map hw (.nil w) (fun u => u.tables q) rfl
  have passes : ∀ r, Reconciliation samplePython 1000 1 r w sampleHeal := by
    intro r
    cases r with
    | us => exact sampleReconciliation hw (h1.append h2) h3 h4
    | eu =>
      exact emptyReconciliation _ (.nil w) h1 (sample_map hw h1 (fun u => u.passes .eu) rfl)
        (sample_notExists hw (.nil w) fun _ => rfl)
    | asia =>
      exact emptyReconciliation _ h1 h2
        (sample_map hw (h1.append h2) (fun u => u.passes .asia) rfl)
        (sample_notExists hw h1 fun _ => rfl)
  have hsmall : ∀ r, (w'.cluster.globals r sampleKey).slot r = if r = .us then 1 else 0 :=
    fun r => by
      have h := sample_map hw hrun (fun u => (u.cluster.globals r sampleKey).slot r)
        (b := if r = .us then 1 else 0) (by revert r; decide +kernel)
      exact h
  have huser : 58 ∉ str "u_1" := by decide
  have hconv := converges hkept htables hrun passes .free huser fun r => by
    rw [show globalKey Tier.free.name (str "u_1") 1 = sampleKey from rfl, hsmall r]
    split_ifs <;> decide
  refine ⟨w, w', hkept, hrun, fun q => ?_, fun q => ?_⟩
  · exact sample_map hw (.nil w) (fun u => (u.cluster.globals q sampleKey).slot .us)
      (by revert q; decide +kernel)
  · exact (hconv.2 q .us).trans (hsmall .us)

end World

end Gdrl
