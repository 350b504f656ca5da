import Gdrl.Cap
import Gdrl.Convergence

/-!
# Recovery

No state of the three regions is beyond repair : from every state that they reach while no
key expires, whatever was lost, delayed, partitioned or dropped from a buffer on the way,
the relays, one more pass over a window and the operators alone can bring all regions to
show what each region has counted in it (`exists_recovery`).

The way there is found step by step. A relay can get through with its message
(`exists_idle`), a pass can end (`exists_passed`), so that a new pass can publish a slot
(`exists_sent`) and a peer can merge it (`exists_merged`). What is merged stays, and so the
slots can be brought over one after the other.
-/

namespace Gdrl

namespace World

variable {py : Python} {chunkSize : ℤ} {w w' : World}

/-! ## Steps that repair -/

/-- What repairs : a step of a relay or of a reconciler with Redis up, or a rule taken back. -/
def Event.repairs : Event → Bool
  | .gateway _ => false
  | .addRule .. => false
  | .apply _ out _ => out = .ok
  | .flush _ _ out => out = .ok
  | .abort _ => false
  | _ => true

variable (py chunkSize) in
/-- A step that repairs. -/
def RepairStep (w : World) (e : Event) (w' : World) : Prop :=
  w.step py chunkSize e = some w' ∧ e.repairs = true

theorem RepairStep.calm {e : Event} (h : RepairStep py chunkSize w e w') (window : ℤ) :
    CalmStep py chunkSize window w e w' := by
  obtain ⟨hstep, hrep⟩ := h
  cases e with
  | gateway e => exact absurd hrep Bool.false_ne_true
  | _ => exact ⟨⟨hstep, rfl⟩, hrep⟩

theorem calm_of_repair {es : List Event} (h : Run (RepairStep py chunkSize) w es w')
    (window : ℤ) : Run (CalmStep py chunkSize window) w es w' :=
  h.mono fun _ _ _ hs => hs.calm window

theorem kept_of_repair {es : List Event} (hw : Kept py chunkSize w)
    (h : Run (RepairStep py chunkSize) w es w') : Kept py chunkSize w' :=
  hw.run (h.mono fun _ _ _ hs => (hs.calm 0).1)

/-- No request is counted. -/
theorem RepairStep.own_eq {e : Event} (h : RepairStep py chunkSize w e w') (r : Region) (k : Str) :
    (w'.cluster.globals r k).slots r = (w.cluster.globals r k).slots r := by
  refine ((h.calm 0).1.own_cases r k).resolve_right ?_
  rintro ⟨i, unix, out, c, rfl, -⟩
  exact absurd h.2 Bool.false_ne_true

/-- What is published stays published. -/
theorem Effect.sent_mono {e : Event} (h : Effect py chunkSize w w' e) {raw : List Byte}
    (hraw : raw ∈ w.sent) : raw ∈ w'.sent := by
  cases h with
  | gateway s hs hne h =>
    rw [h]
    exact List.mem_append_left _ hraw
  | flush p o raws hp hready hts hraws hok ho h =>
    rw [h]
    exact List.mem_append_left _ hraw
  | _ =>
    rename_i h
    rwa [h]

theorem sent_of_run {window : ℤ} {es : List Event} (h : Run (CalmStep py chunkSize window) w es w')
    {raw : List Byte} (hraw : raw ∈ w.sent) : raw ∈ w'.sent :=
  h.invariant (I := fun w => raw ∈ w.sent) (fun _ _ _ hs hstep => (effect hstep.1.1).sent_mono hs)
    hraw

/-! ## Relays -/

/-- How many slots a relay has still to apply. -/
def slotsLeft : Relay.Task → ℕ
  | .applying _ xs _ => xs.length
  | .idle => 0
  | .dead => 0

theorem slotsLeft_ofError (e : Option PyError) : slotsLeft (.ofError e) = 0 := by
  cases e with
  | none => rfl
  | some e => rfl

/-- A relay that is at a message has a slot of it to apply. -/
def Loaded (t : Relay.Task) : Prop := ∀ kind tsMs, t ≠ .applying kind [] tsMs

theorem loaded_ofError (e : Option PyError) : Loaded (.ofError e) := by
  intro kind tsMs h
  cases e with
  | none => cases h
  | some e => cases h

theorem loaded_accept (q : Region) (table : PartitionTable) (raw : List Byte) :
    Loaded (Relay.accept py q table raw) := by
  unfold Relay.accept
  split
  · exact loaded_ofError none
  · exact loaded_ofError (some .value)
  · exact loaded_ofError none
  · exact loaded_ofError none
  · exact loaded_ofError _
  · intro kind tsMs h
    cases h

theorem Effect.loaded {e : Event} (h : Effect py chunkSize w w' e) {q : Region}
    (hw : Loaded (w.relays q)) : Loaded (w'.relays q) := by
  cases h with
  | deliver hidle hmem h =>
    rename_i q' raw
    rw [h]
    dsimp only
    rcases replace_cases w.relays q' q (Relay.accept py q' (w.tables q') raw) with
      ⟨-, heq⟩ | ⟨-, heq⟩
    · rw [heq]
      exact loaded_accept _ _ _
    · rwa [heq]
  | apply kind x xs tsMs t b htask ht hb h =>
    rename_i q' out ms
    rw [h]
    dsimp only
    rcases replace_cases w.relays q' q t with ⟨-, heq⟩ | ⟨-, heq⟩
    · rw [heq]
      rcases ht with ⟨rfl, -⟩ | ⟨rfl, -⟩ | ⟨-, hne, rfl⟩
      · exact loaded_ofError none
      · exact loaded_ofError _
      · exact fun kind' tsMs' h => hne (Relay.Task.applying.inj h).2.1
    · rwa [heq]
  | _ =>
    rename_i h
    rwa [h]

theorem loaded_of_kept (hw : Kept py chunkSize w) (q : Region) : Loaded (w.relays q) := by
  refine hw.invariant (I := fun w => Loaded (w.relays q)) ?_
    fun w e w' hI hstep => (effect hstep.1).loaded hI
  rintro w rfl
  exact loaded_ofError none

/-- A relay can get through with its message. -/
theorem exists_idle (hw : Kept py chunkSize w) (q : Region) :
    ∃ es w', Run (RepairStep py chunkSize) w es w' ∧ Kept py chunkSize w' ∧
      w'.relays q = .idle := by
  refine Run.exists_of_nearer (I := Kept py chunkSize) (fun w => slotsLeft (w.relays q)) ?_ hw
  intro w hw hne
  have hworking := (inv_of_reached hw.reached).1.relays q
  cases htask : w.relays q with
  | idle => exact absurd htask hne
  | dead =>
    rw [htask] at hworking
    exact hworking.elim
  | applying kind xs tsMs =>
    cases xs with
    | nil => exact absurd htask (loaded_of_kept hw q kind tsMs)
    | cons x xs =>
      obtain ⟨w', hw'⟩ : ∃ w', w.step py chunkSize (.apply q .ok 0) = some w' := by
        rw [step, stepApply, htask]
        exact ⟨_, rfl⟩
      refine ⟨_, w', ⟨hw', rfl⟩, hw.step ⟨hw', rfl⟩, ?_⟩
      cases effect hw' with
      | apply kind' y ys ts t b htask' hnext hb h =>
        obtain ⟨rfl, hys, rfl⟩ := Relay.Task.applying.inj (htask'.symm.trans htask)
        obtain ⟨rfl, rfl⟩ := List.cons.inj hys
        rw [h]
        dsimp only
        rw [replace_self]
        rcases hnext with ⟨rfl, -⟩ | ⟨rfl, -⟩ | ⟨-, -, rfl⟩
        · exact Nat.succ_pos _
        · rw [slotsLeft_ofError]
          exact Nat.succ_pos _
        · exact Nat.lt_succ_self _

/-! ## Passes -/

/-- How far a pass is from its end. -/
def stagesLeft : Option Pass → ℕ
  | none => 0
  | some p => if p.ending ∨ p.chunk.size = 0 then 1 else 2

/-- A chunk that is ready can go out. -/
theorem exists_flush (hw : Kept py chunkSize w) {r : Region} {p : Pass} (hp : w.passes r = some p)
    (hready : p.ending = true ∨ p.full chunkSize = true) :
    ∃ w', RepairStep py chunkSize w (.flush r 0 .ok) w' ∧ w'.passes r = p.flushed := by
  have hts : fits64 0 = true := rfl
  have hstep : w.step py chunkSize (.flush r 0 .ok) = some (w.stepFlush py r p 0 .ok) := by
    rw [step, hp]
    exact if_pos (by simpa [hts] using hready)
  refine ⟨_, ⟨hstep, rfl⟩, ?_⟩
  obtain ⟨raw, hraw, -⟩ := parse_serialize py
    (((inv_of_reached hw.reached).1.passes r p hp).envelope r hts)
  unfold stepFlush
  rw [hraw]
  exact replace_self _ _ _

/-- A scan can end. -/
theorem exists_endScan {r : Region} {p : Pass} (hp : w.passes r = some p)
    (hready : ¬ (p.ending = true ∨ p.full chunkSize = true)) :
    ∃ w', RepairStep py chunkSize w (.endScan r) w' ∧ w'.passes r = p.scannedAll := by
  have hstep : w.step py chunkSize (.endScan r) =
      some { w with passes := replace w.passes r p.scannedAll } := by
    rw [step, hp]
    exact if_neg (by simpa using hready)
  exact ⟨_, ⟨hstep, rfl⟩, replace_self _ _ _⟩

/-- A pass can end. -/
theorem exists_passed (hw : Kept py chunkSize w) (r : Region) :
    ∃ es w', Run (RepairStep py chunkSize) w es w' ∧ Kept py chunkSize w' ∧
      w'.passes r = none := by
  refine Run.exists_of_nearer (I := Kept py chunkSize) (fun w => stagesLeft (w.passes r)) ?_ hw
  intro w hw hne
  obtain ⟨p, hp⟩ := Option.ne_none_iff_exists'.mp hne
  rw [hp]
  by_cases hready : p.ending = true ∨ p.full chunkSize = true
  · obtain ⟨w', hstep, hw'⟩ := exists_flush hw hp hready
    refine ⟨_, w', hstep, hw.step (hstep.calm 0).1, ?_⟩
    rw [hw', Pass.flushed]
    by_cases hending : p.ending = true
    · simp [hending, stagesLeft]
    · have hsize : p.chunk.size ≠ 0 := by
        have := hready.resolve_left hending
        simp only [Pass.full, Bool.and_eq_true, decide_eq_true_eq] at this
        exact this.1
      have hthen : stagesLeft (some { p with chunk := Dict.empty }) = 1 := if_pos (Or.inr rfl)
      have hnow : stagesLeft (some p) = 2 := if_neg (not_or.mpr ⟨hending, hsize⟩)
      rw [if_neg hending, hthen, hnow]
      exact Nat.lt_succ_self 1
  · obtain ⟨w', hstep, hw'⟩ := exists_endScan hp hready
    refine ⟨_, w', hstep, hw.step (hstep.calm 0).1, ?_⟩
    rw [not_or] at hready
    rw [hw', Pass.scannedAll]
    by_cases hsize : p.chunk.size = 0
    · simp [hsize, stagesLeft]
    · simp [hsize, hready.1, stagesLeft]

/-! ## One slot at one peer -/

section Slot

variable {r : Region} {tier user : Str} {window v : ℤ}

/-- A pass can start and take a slot in. -/
theorem exists_holding (ht : 58 ∉ tier) (hu : 58 ∉ user) (hwindow : Printable window)
    (hkey : Scalar (globalKey tier user window))
    (hw : Settled py chunkSize r (globalKey tier user window) v w) (hnone : w.passes r = none) :
    ∃ es w', Run (RepairStep py chunkSize) w es w' ∧ Holding r window (tier, user) v w' := by
  obtain ⟨w₁, h₁, hp⟩ : ∃ w₁, RepairStep py chunkSize w (.startPass r window) w₁ ∧
      w₁.passes r = some ⟨window, Dict.empty, false⟩ := by
    refine ⟨{ w with passes := replace w.passes r (some ⟨window, Dict.empty, false⟩) }, ⟨?_, rfl⟩,
      replace_self _ _ _⟩
    rw [step, hnone]
    exact if_pos hwindow
  have hw₁ := hw.step ht (h₁.calm window)
  obtain ⟨p', hscan⟩ := Pass.scan_ok (legible_globals hw₁.kept r) ⟨window, Dict.empty, false⟩
    (globalKey tier user window)
  obtain ⟨w₂, h₂⟩ : ∃ w₂, RepairStep py chunkSize w₁ (.scan r (globalKey tier user window)) w₂ := by
    refine ⟨{ w₁ with passes := replace w₁.passes r (some p') }, ?_, rfl⟩
    rw [step, hp]
    dsimp only
    rw [if_neg, hscan]
    simp [Pass.full, Dict.size, Dict.empty, glob_globalKey, hkey]
  refine ⟨_, w₂, .cons h₁ (.cons h₂ (.nil _)), ?_⟩
  refine holding_of_scan ht hu hw₁ (fun p hp' => ?_) (h₂.calm window)
  rw [← Option.some.inj (hp.symm.trans hp')]

/-- A slot can be published by the reconciler of its region. -/
theorem exists_sent (ht : 58 ∉ tier) (hu : 58 ∉ user) (hwindow : Printable window)
    (hkey : Scalar (globalKey tier user window))
    (hw : Settled py chunkSize r (globalKey tier user window) v w) :
    ∃ es w' p x tsMs raw, Run (RepairStep py chunkSize) w es w' ∧ p.Plain ∧ fits64 tsMs = true ∧
      serializeReconcile py (p.envelope r tsMs) = .ok raw ∧
      (⟨tier, user, window, r, x⟩ : SlotWrite) ∈ chunkWrites r p ∧ x.toInt = v ∧
      raw ∈ w'.sent := by
  obtain ⟨es₁, w₁, h₁, -, hnone⟩ := exists_passed hw.kept r
  have hw₁ := hw.run ht (calm_of_repair h₁ window)
  obtain ⟨es₂, w₂, h₂, hhold⟩ := exists_holding ht hu hwindow hkey hw₁ hnone
  have hw₂ := hw₁.run ht (calm_of_repair h₂ window)
  obtain ⟨es₃, w₃, h₃, -, hended⟩ := exists_passed hw₂.kept r
  have hcalm := calm_of_repair h₃ window
  -- on its way to the end of the pass the slot is in a chunk that goes out
  obtain ⟨a, tsMs, b, u, rfl, ha, ⟨p, x, hp, rfl, hx, hv⟩, hts⟩ :=
    hhold.exists_flush ht hcalm hw₂ hended
  have hu' := hw₂.run ht ha
  have hplain := (inv_of_reached hu'.kept.reached).1.passes r p hp
  obtain ⟨raw, hraw, -⟩ := parse_serialize py (hplain.envelope r hts)
  have hsent : raw ∈ w₃.sent := by
    cases ha.rest CalmStep.det hcalm with
    | cons hflush hb =>
      refine sent_of_run hb ?_
      cases effect hflush.1.1 with
      | flush p' o raws hp' hready hts' hraws hok ho h =>
        obtain rfl := Option.some.inj (hp'.symm.trans hp)
        rw [h, (hok raw hraw rfl).1]
        exact List.mem_append_right _ (List.mem_singleton_self raw)
  exact ⟨_, w₃, p, x, tsMs, raw, h₁.append (h₂.append h₃), hplain, hts, hraw,
    mem_chunkWrites.mpr ⟨(tier, user), x, hx, rfl⟩, hv, hsent⟩

/-- A slot can be brought to a peer. -/
theorem exists_merged (ht : 58 ∉ tier) (hu : 58 ∉ user) (hwindow : Printable window)
    (hkey : Scalar (globalKey tier user window)) (hlt : v < 2 ^ 53)
    (hw : Settled py chunkSize r (globalKey tier user window) v w) {q : Region} (hq : q ≠ r) :
    ∃ es w', Run (RepairStep py chunkSize) w es w' ∧
      v ≤ (w'.cluster.globals q (globalKey tier user window)).slot r := by
  obtain ⟨es₁, w₁, p, x, tsMs, raw, h₁, hp, hts, hraw, hx, rfl, hsent⟩ :=
    exists_sent ht hu hwindow hkey hw
  have hw₁ := hw.run ht (calm_of_repair h₁ window)
  obtain ⟨es₂, w₂, h₂, hkept, hidle⟩ := exists_idle hw₁.kept q
  obtain ⟨w₃, h₃⟩ : ∃ w₃, RepairStep py chunkSize w₂ (.deliver q raw) w₃ := by
    refine ⟨{ w₂ with relays := replace w₂.relays q (Relay.accept py q (w₂.tables q) raw) }, ?_,
      rfl⟩
    rw [step, hidle]
    exact if_pos (sent_of_run (calm_of_repair h₂ window) hsent)
  obtain ⟨es₄, w₄, h₄, -, hdone⟩ := exists_idle (hkept.step (h₃.calm window).1) q
  have hrun := h₂.append (.cons h₃ h₄)
  have hcalm := calm_of_repair hrun window
  have hhandled : Handled py chunkSize window q raw w₁ (es₂ ++ .deliver q raw :: es₄) :=
    ⟨es₂, es₄, [], w₄, by rw [List.append_nil], hcalm, hdone⟩
  exact ⟨_, w₄, h₁.append hrun, hhandled.slot_le ht hp hts hraw hx hq hlt hw₁ hcalm⟩

end Slot

/-! ## All slots -/

variable (py chunkSize) in
/-- All partitions can be healed. -/
theorem exists_healed (w : World) : ∃ es w', Run (RepairStep py chunkSize) w es w' ∧
    ∀ q, w'.tables q = .empty := by
  refine ⟨[.clearRules .us, .clearRules .eu, .clearRules .asia], _,
    .cons ⟨rfl, rfl⟩ (.cons ⟨rfl, rfl⟩ (.cons ⟨rfl, rfl⟩ (.nil _))), fun q => ?_⟩
  cases q with
  | us => rfl
  | eu => rfl
  | asia => rfl

/-- The window of a counted request is one that prints. -/
theorem printable_of_counted (hI : w.Inv py) {r : Region} {u : UserWindow}
    (h : 0 < w.cluster.counted r u.key) : Printable u.windowId := by
  obtain ⟨c, hc, hcount⟩ := List.countP_pos_iff.mp h
  simp only [Cluster.countsAt, Bool.and_eq_true, decide_eq_true_eq] at hcount
  have howns := UserWindow.owns_iff.mp (UserWindow.key_eq_iff.mp hcount.2)
  rw [← howns.2.2]
  exact printable_of_fits (hI.inRange c hc).window

/-- A region has the slot that `r` has of a user's window. -/
def CaughtUp (u : UserWindow) (r q : Region) (w : World) : Prop :=
  (w.cluster.globals r u.key).slot r ≤ (w.cluster.globals q u.key).slot r

theorem CaughtUp.step {u : UserWindow} {r q : Region} (hw : CaughtUp u r q w) {e : Event}
    (h : RepairStep py chunkSize w e w') : CaughtUp u r q w' := by
  rw [CaughtUp, Hash.slot, h.own_eq]
  exact hw.trans ((h.calm 0).1.slot_le q u.key r)

/-- One region's slot can be brought to one peer. -/
theorem exists_caughtUp (hw : Kept py chunkSize w) (htables : ∀ q, w.tables q = .empty)
    {u : UserWindow} (hu : 58 ∉ u.userId.val) {r : Region}
    (hlt : w.cluster.counted r u.key < 2 ^ 53) (q : Region) :
    ∃ es w', Run (RepairStep py chunkSize) w es w' ∧ CaughtUp u r q w' := by
  by_cases hq : q = r
  · exact ⟨[], w, .nil w, hq ▸ le_refl _⟩
  have hown := own_eq_counted hw r u.key
  by_cases hzero : w.cluster.counted r u.key = 0
  · refine ⟨[], w, .nil w, ?_⟩
    rw [CaughtUp, hown, hzero]
    exact (inv_of_reached hw.reached).1.nonneg q u.key r
  · have hwindow := printable_of_counted (inv_of_reached hw.reached).1 (Nat.pos_of_ne_zero hzero)
    obtain ⟨v, hv⟩ : ∃ v, (w.cluster.globals r u.key).slots r = some v := by
      refine Option.ne_none_iff_exists'.mp fun hnone => ?_
      rw [Hash.slot, hnone] at hown
      exact hzero (Int.ofNat_eq_zero.mp hown.symm)
    have hvlt : v < 2 ^ 53 := by
      rw [Hash.slot, hv, Option.getD_some] at hown
      rw [hown]
      exact_mod_cast hlt
    have hsettled : Settled py chunkSize r (globalKey u.tier.name u.userId.val u.windowId) v w :=
      ⟨hw, htables, hv⟩
    have ht := u.tier.colon_notMem_name
    obtain ⟨es, w', hrun, hle⟩ := exists_merged ht hu hwindow
      (scalar_globalKey u.tier.scalar_name u.userId.property.2 u.windowId) hvlt hsettled hq
    have hv' := (hsettled.run ht (calm_of_repair hrun u.windowId)).own
    refine ⟨es, w', hrun, ?_⟩
    rw [CaughtUp, Hash.slot, show (w'.cluster.globals r u.key).slots r = some v from hv']
    exact hle

/-- On the way to recovery from `w₀` the regions have counted what they had counted there. -/
structure Mending (py : Python) (chunkSize : ℤ) (w₀ w : World) : Prop where
  kept : Kept py chunkSize w
  tables : ∀ q, w.tables q = .empty
  own : ∀ r k, (w.cluster.globals r k).slots r = (w₀.cluster.globals r k).slots r

theorem Mending.step {w₀ : World} {e : Event} (h : Mending py chunkSize w₀ w)
    (hstep : RepairStep py chunkSize w e w') : Mending py chunkSize w₀ w' :=
  ⟨h.kept.step (hstep.calm 0).1, (hstep.calm 0).tables h.tables,
    fun r k => (hstep.own_eq r k).trans (h.own r k)⟩

theorem Mending.counted {w₀ : World} (h : Mending py chunkSize w₀ w) (h₀ : Kept py chunkSize w₀)
    (r : Region) (k : Str) : w.cluster.counted r k = w₀.cluster.counted r k := by
  have hown := own_eq_counted h.kept r k
  rw [Hash.slot, h.own] at hown
  exact_mod_cast hown.symm.trans (own_eq_counted h₀ r k)

/-- **Recovery.** From every state that the three regions reach while no key expires, with
whatever lost, delayed, partitioned or dropped, the relays, passes of the reconcilers over the
windows and operators who take rules back can bring every region to show what each region has
counted, for any users without a colon in their names. -/
theorem exists_recovery (hw : Kept py chunkSize w) (us : List UserWindow)
    (hcolon : ∀ u ∈ us, 58 ∉ u.userId.val)
    (hsmall : ∀ u ∈ us, ∀ r, w.cluster.counted r u.key < 2 ^ 53) :
    ∃ es w', Run (RepairStep py chunkSize) w es w' ∧
      ∀ u ∈ us, ∀ q r, (w'.cluster.globals q u.key).slot r = w.cluster.counted r u.key := by
  obtain ⟨es₁, w₁, h₁, htables⟩ := exists_healed py chunkSize w
  have hmend : Mending py chunkSize w w₁ := by
    refine ⟨kept_of_repair hw h₁, htables, fun r k => ?_⟩
    exact h₁.invariant (I := fun w' =>
      (w'.cluster.globals r k).slots r = (w.cluster.globals r k).slots r)
      (fun _ _ _ hs hstep => (hstep.own_eq r k).trans hs) rfl
  -- what a region has caught up with, it keeps
  have hfind : ∃ es w₂, Run (RepairStep py chunkSize) w₁ es w₂ ∧ Mending py chunkSize w w₂ ∧
      ∀ b ∈ us ×ˢ Region.all ×ˢ Region.all, CaughtUp b.1 b.2.1 b.2.2 w₂ := by
    refine Run.exists_forall (I := Mending py chunkSize w)
      (fun _ _ _ hs hstep => hs.step hstep) (fun _ _ _ _ _ hb hstep => hb.step hstep) _
      (fun b hb s hs => ?_) hmend
    have hmem := (List.mem_product.mp hb).1
    refine exists_caughtUp hs.kept hs.tables (hcolon b.1 hmem) ?_ b.2.2
    rw [hs.counted hw]
    exact hsmall b.1 hmem b.2.1
  obtain ⟨es₂, w₂, h₂, hmend₂, hall⟩ := hfind
  refine ⟨es₁ ++ es₂, w₂, h₁.append h₂, fun u hu q r => ?_⟩
  rw [← hmend₂.counted hw, ← own_eq_counted hmend₂.kept]
  exact le_antisymm (slot_le_own hmend₂.kept q u.key r)
    (hall (u, r, q) (List.mem_product.mpr ⟨hu, List.mem_product.mpr ⟨r.mem_all, q.mem_all⟩⟩))

/-- The window of the request that nobody takes in. -/
def sampleWindow : UserWindow := ⟨.free, Cluster.sampleUser, 1⟩

theorem exists_recovery_sample : ∃ w, Kept samplePython 1000 w ∧
    (∀ q, (w.cluster.globals q sampleWindow.key).slot .us = if q = .us then 1 else 0) ∧
    ∃ es w', Run (RepairStep samplePython 1000) w es w' ∧ ∀ u ∈ [sampleWindow], ∀ q r,
      (w'.cluster.globals q u.key).slot r = w.cluster.counted r u.key := by
  obtain ⟨w, -, hw, -⟩ := exists_sampleHeal
  have hkept : Kept samplePython 1000 w := ⟨init, sampleLost, rfl, hw⟩
  have hcounted : ∀ r, w.cluster.counted r sampleWindow.key = if r = .us then 1 else 0 := fun r =>
    sample_map hw (.nil w) (fun u => u.cluster.counted r sampleWindow.key)
      (by revert r; decide +kernel)
  have huser : ∀ u ∈ [sampleWindow], 58 ∉ u.userId.val := by decide
  refine ⟨w, hkept, fun q => ?_, exists_recovery hkept [sampleWindow] huser fun u hu r => ?_⟩
  · exact sample_map hw (.nil w) (fun u => (u.cluster.globals q sampleWindow.key).slot .us)
      (by revert q; decide +kernel)
  · rw [List.mem_singleton.mp hu, hcounted]
    split_ifs <;> decide

end World

end Gdrl
