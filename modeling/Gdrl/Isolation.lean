import Gdrl.Admin
import Gdrl.Slots

/-!
# Partitions

The rule of a partition is read once for each message, when the relay takes it in. While the
table of `q` has the rule against `a` and the relay has no older message of `a` in hand, the
slots of `a` in `q` stay as they are (`partition_isolates`) : the gateway of `q` counts in
its own slot, the reconcilers send their own slots, and so no third region passes on what it
knows of `a`.
-/

namespace Gdrl

/-- A relay without a slot of `a` still to apply. -/
def Relay.Task.Without (a : Region) : Relay.Task → Prop
  | .idle => True
  | .applying _ xs _ => ∀ x ∈ xs, x.peer ≠ a
  | .dead => True

/-- What a relay takes in past the rule against `a` is not from `a`. -/
theorem Relay.without_accept {py : Python} {own a : Region} {table : PartitionTable}
    (h : table.blocks a.name own.name = true) (raw : List Byte) :
    (Relay.accept py own table raw).Without a := by
  have hofError : ∀ o, (Task.ofError o).Without a := fun o => by cases o <;> trivial
  unfold accept receive
  split
  · trivial
  · trivial
  · trivial
  · trivial
  · exact hofError _
  · rename_i kind x xs tsMs heq
    split at heq
    · cases heq
    · cases heq
    · rename_i env henv
      split_ifs at heq with h1 h2
      injection heq with hkind hwrites hts
      intro y hy
      rw [← hwrites] at hy
      rw [Envelope.peer_of_mem_writes hy]
      rintro rfl
      exact h1 h

namespace World

variable {py : Python} {chunkSize : ℤ} {q a : Region}

/-- The admin surface of `q` takes the rule against `a` back. -/
def Event.Heals (q a : Region) : Event → Prop
  | .removeRule q' f g => q' = q ∧ f = a.name ∧ g = q.name
  | .clearRules q' => q' = q
  | _ => False

/-- The relay of `q` drops what comes from `a`, and has nothing of `a` in hand. -/
structure CutOff (q a : Region) (w : World) : Prop where
  blocks : (w.tables q).blocks a.name q.name = true
  relay : (w.relays q).Without a

variable {w w' : World} {e : Event}

theorem CutOff.blocks_step (hw : CutOff q a w) (he : ¬ e.Heals q a)
    (h : Effect py chunkSize w w' e) : (w'.tables q).blocks a.name q.name = true := by
  cases h with
  | addRule h =>
    rename_i q' f g
    rw [h]
    dsimp only
    rcases replace_cases w.tables q' q ((w.tables q').add f g) with ⟨rfl, heq⟩ | ⟨-, heq⟩
    · rw [heq]
      exact (PartitionTable.blocks_add _ _ _ _ _).mpr (Or.inr hw.blocks)
    · rw [heq]
      exact hw.blocks
  | removeRule h =>
    rename_i q' f g
    rw [h]
    dsimp only
    rcases replace_cases w.tables q' q ((w.tables q').remove f g) with ⟨rfl, heq⟩ | ⟨-, heq⟩
    · rw [heq]
      refine (PartitionTable.blocks_remove _ _ _ _ _).mpr ⟨fun hfg => he ⟨rfl, ?_⟩, hw.blocks⟩
      exact ⟨(Prod.mk.inj hfg).1.symm, (Prod.mk.inj hfg).2.symm⟩
    · rw [heq]
      exact hw.blocks
  | clearRules h =>
    rename_i q'
    rw [h]
    dsimp only
    rcases replace_cases w.tables q' q .empty with ⟨rfl, -⟩ | ⟨-, heq⟩
    · exact absurd rfl he
    · rw [heq]
      exact hw.blocks
  | _ =>
    rename_i h
    rw [h]
    exact hw.blocks

theorem CutOff.step (hw : CutOff q a w) (he : ¬ e.Heals q a) (h : Effect py chunkSize w w' e) :
    CutOff q a w' := by
  refine ⟨hw.blocks_step he h, ?_⟩
  rcases h.relays_cases q with heq | ⟨raw, -, heq⟩ | ⟨kind, x, xs, tsMs, htask, heq | heq | heq⟩
  · exact heq ▸ hw.relay
  · exact heq ▸ Relay.without_accept hw.blocks raw
  · exact heq ▸ trivial
  · rw [heq]
    cases Relay.observe tsMs <;> trivial
  · have hxs := hw.relay
    rw [htask] at hxs
    rw [heq]
    exact fun y hy => hxs y (List.mem_cons_of_mem _ hy)

/-- One step leaves the slots of `a` in `q` alone, or is the loss of a key. -/
theorem CutOff.slots_step (hqa : q ≠ a) (hw : CutOff q a w) (h : Effect py chunkSize w w' e)
    (k : Str) : (w'.cluster.globals q k).slots a = (w.cluster.globals q k).slots a ∨
      (w'.cluster.globals q k).slots a = none ∧ e.evicts = true := by
  rcases h.cluster_effect with heq | ⟨ce, heffect, hce⟩
  · rw [heq]
    exact Or.inl rfl
  · have hslot := heffect.slotEffect q k a
    generalize (w'.cluster.globals q k).slots a = o at hslot ⊢
    cases hslot with
    | same => exact Or.inl rfl
    | incr c hq => exact absurd hq hqa
    | merge hne hpeer =>
      rcases hce with ⟨-, hno⟩ | ⟨q', ms, kind, x, xs, tsMs, heq, htask⟩
      · exact absurd rfl (hno _ _ _)
      · injection heq with hq hx hms
        subst hq hx
        have hxs := hw.relay
        rw [htask] at hxs
        exact absurd hpeer (hxs _ List.mem_cons_self)
    | evict =>
      rcases hce with ⟨rfl, -⟩ | ⟨q', ms, kind, x, xs, tsMs, heq, -⟩
      · exact Or.inr ⟨rfl, rfl⟩
      · cases heq

/-- **Partition.** From a state where the relay of `q` drops the messages of `a` and has none
in hand, whatever the gateways, relays and reconcilers of the three regions do and in whatever
order, as long as the rule is not taken back the slots of `a` in `q` stay as they are, or
go with their key when it expires. -/
theorem partition_isolates {es : List Event} (hqa : q ≠ a) (hw : CutOff q a w)
    (h : Run (Steps (World.step py chunkSize)) w es w') (hes : ∀ e ∈ es, ¬ e.Heals q a) (k : Str) :
    ((w'.cluster.globals q k).slots a = (w.cluster.globals q k).slots a ∨
      (w'.cluster.globals q k).slots a = none) ∧
    ((∀ e ∈ es, e.evicts = false) →
      (w'.cluster.globals q k).slots a = (w.cluster.globals q k).slots a) := by
  induction h with
  | nil w => exact ⟨Or.inl rfl, fun _ => rfl⟩
  | cons hstep hrun ih =>
    rename_i w u w' e es
    rw [List.forall_mem_cons] at hes
    have heffect := World.effect hstep
    obtain ⟨hslots, hkept⟩ := ih (hw.step hes.1 heffect) hes.2
    rcases hw.slots_step hqa heffect k with hu | ⟨hu, hevicts⟩
    · rw [hu] at hslots hkept
      exact ⟨hslots, fun hno => hkept fun e he => hno e (List.mem_cons_of_mem _ he)⟩
    · rw [hu, or_self] at hslots
      exact ⟨Or.inr hslots, fun hno => absurd (hno e List.mem_cons_self) (by simp [hevicts])⟩

/-- The message of a request in `us` at both peers, of which `eu` is cut off. -/
def samplePartitioned : List Event :=
  let raw := utf8Encode (
    str "\x7b\"tier\":\"free\",\"user_id\":\"u_1\",\"window_id\":1,\"region\":\"us\"," ++
    str "\"value\":1,\"ts_ms\":60000\x7d")
  (Cluster.handling 0 .us .free Cluster.sampleUser 60).map .gateway ++
    [.deliver .eu raw, .deliver .asia raw, .apply .asia .ok 60001]

theorem partition_isolates_sample : ∃ w w', CutOff .eu .us w ∧
    Run (Steps (World.step samplePython 1000)) w samplePartitioned w' ∧
    (w'.cluster.globals .asia (globalKey (str "free") (str "u_1") 1)).slots .us = some 1 ∧
    (w'.cluster.globals .eu (globalKey (str "free") (str "u_1") 1)).slots .us =
      (w.cluster.globals .eu (globalKey (str "free") (str "u_1") 1)).slots .us := by
  have hend : (exec (World.step samplePython 1000) init
      (.addRule .eu (str "us") (str "eu") :: samplePartitioned)).map (fun w =>
        (w.cluster.globals .asia (globalKey (str "free") (str "u_1") 1)).slots .us) =
      some (some 1) := by decide +kernel
  obtain ⟨w', hw', hone⟩ := Option.map_eq_some_iff.mp hend
  cases run_of_exec hw' with
  | cons hstep hrun =>
    obtain rfl := Option.some.inj hstep
    have hcut : CutOff .eu .us { init with
        tables := replace init.tables .eu ((init.tables .eu).add (str "us") (str "eu")) } :=
      ⟨by decide, trivial⟩
    have hheals : ∀ e ∈ samplePartitioned, ¬ e.Heals .eu .us := by
      simp [samplePartitioned, Cluster.handling, Event.Heals]
    have hevicts : ∀ e ∈ samplePartitioned, e.evicts = false := by
      simp [samplePartitioned, Cluster.handling, Event.evicts]
    exact ⟨_, w', hcut, hrun, hone, (partition_isolates (by decide) hcut hrun hheals _).2 hevicts⟩

end World

end Gdrl
