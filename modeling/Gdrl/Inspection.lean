import Gdrl.Convergence
import Gdrl.GCounter
import Gdrl.Sums
import Gdrl.UnderAllow

/-!
# The admin surface

`GET /admin/state` shows what one region has at a key : the slots, their total and their
drift, which is the distance of the largest slot from the smallest. While no key expires,
the total never falls and never exceeds what all regions have counted, and it is all of
that exactly if the region has every slot of its peers (`admin_state_of_run`).
-/

namespace Gdrl

/-- The body of the response. -/
structure AdminState where
  region : Region
  tier : Str
  userId : Str
  windowId : ℤ
  slots : List (Region × ℤ)
  drift : ℤ
  total : ℤ

namespace AdminState

/-- `max(values) - min(values)`, and 0 without a value. -/
def driftOf (values : List ℤ) : ℤ := values.max?.getD 0 - values.min?.getD 0

theorem driftOf_bounds {values : List ℤ} (h : ∀ v ∈ values, 0 ≤ v) :
    0 ≤ driftOf values ∧ driftOf values ≤ values.sum := by
  by_cases hnil : values = []
  · subst hnil
    exact ⟨le_rfl, le_rfl⟩
  obtain ⟨hi, hhi⟩ := Option.ne_none_iff_exists'.mp (mt List.max?_eq_none_iff.mp hnil)
  obtain ⟨lo, hlo⟩ := Option.ne_none_iff_exists'.mp (mt List.min?_eq_none_iff.mp hnil)
  have hhi' := List.max?_mem hhi
  have hle := (List.min?_eq_some_iff.mp hlo).2 hi hhi'
  have hnonneg := h lo (List.min?_eq_some_iff.mp hlo).1
  have hsum := List.single_le_sum h hi hhi'
  simp only [driftOf, hhi, hlo, Option.getD_some]
  omega

end AdminState

namespace RegionalCounter

/-- The items of `get_global`. -/
def globalItems (k : Key) (m : GlobalRedis) : List (Region × ℤ) :=
  Region.all.filterMap fun r => (getGlobal k m r).map fun v => (r, v)

/-- `admin_state` with the local Redis up. An integer that `int` refuses is an exception. -/
def adminState (own : Region) (k : Key) (m : GlobalRedis) : Except PyError AdminState :=
  if Pass.legible (m k.name) then
    let slots := globalItems k m
    let values := slots.map Prod.snd
    .ok ⟨own, k.tier, k.userId, k.windowId, slots, AdminState.driftOf values, values.sum⟩
  else .error .value

theorem sum_globalItems (k : Key) (m : GlobalRedis) :
    ((globalItems k m).map Prod.snd).sum = (m k.name).total := by
  have hslot : ∀ r, ((getGlobal k m r).map fun v => (r, v)).toList.map Prod.snd =
      ((m k.name).slots r).toList := by
    intro r
    rw [getGlobal]
    cases (m k.name).slots r with
    | none => rfl
    | some v => rfl
  have hsum : ∀ r, ((m k.name).slots r).toList.sum = (m k.name).slot r := by
    intro r
    rw [Hash.slot]
    cases (m k.name).slots r with
    | none => rfl
    | some v => exact add_zero v
  rw [globalItems, List.filterMap_eq_flatMap_toList]
  simp [Region.all, hslot, hsum, Hash.total, add_assoc]

theorem nonneg_of_mem_globalItems {k : Key} {m : GlobalRedis} (hm : (m k.name).Nonneg) {v : ℤ}
    (hv : v ∈ (globalItems k m).map Prod.snd) : 0 ≤ v := by
  obtain ⟨e, he, rfl⟩ := List.mem_map.mp hv
  obtain ⟨r, -, hr⟩ := List.mem_filterMap.mp he
  obtain ⟨v, hslot, rfl⟩ := Option.map_eq_some_iff.mp hr
  have hnonneg := hm r
  rwa [Hash.slot, show (m k.name).slots r = some v from hslot] at hnonneg

/-- Without negative slots, and where all of them can be read, the total is their sum and no
less than the drift. -/
theorem exists_adminState (own : Region) {k : Key} {m : GlobalRedis}
    (hread : Pass.legible (m k.name) = true) (hm : (m k.name).Nonneg) :
    ∃ st, adminState own k m = .ok st ∧ st.total = (m k.name).total ∧ 0 ≤ st.drift ∧
      st.drift ≤ st.total := by
  have hdrift := AdminState.driftOf_bounds fun v => nonneg_of_mem_globalItems hm
  exact ⟨_, if_pos hread, sum_globalItems k m, hdrift⟩

end RegionalCounter

namespace World

variable {py : Python} {chunkSize : ℤ}

open RegionalCounter

/-- A region has at most what is counted, and all of it exactly if it has every slot. -/
theorem total_le_counted {w : World} (h : Kept py chunkSize w) (q : Region) (k : Str) :
    (w.cluster.counted q k : ℤ) ≤ (w.cluster.globals q k).total ∧
    (w.cluster.globals q k).total ≤ w.cluster.countedAll k ∧
    ((w.cluster.globals q k).total = w.cluster.countedAll k ↔
      ∀ r, (w.cluster.globals q k).slot r = w.cluster.counted r k) := by
  have hle : ∀ r, (w.cluster.globals q k).slot r ≤ w.cluster.counted r k := fun r => by
    rw [← own_eq_counted h]
    exact slot_le_own h q k r
  have hown := own_eq_counted h q k
  have hself := Hash.slot_le_total ((inv_of_reached h.reached).1.nonneg q k) q
  have hus := hle .us
  have heu := hle .eu
  have hasia := hle .asia
  simp only [Hash.total, Cluster.countedAll] at hself ⊢
  push_cast
  refine ⟨by omega, by omega, fun heq r => ?_, fun hall => by rw [hall, hall, hall]⟩
  cases r with
  | us => omega
  | eu => omega
  | asia => omega

/-- **The totals of the admin surface.** In every run of the three regions in which no key
expires, whatever is lost, repeated, reordered or partitioned, every `GET /admin/state` of a
region is answered; the total never falls, is at least what the region itself has counted and at
most what all regions have counted, and is all of that exactly if each slot is what its own
region has counted. The drift is never more than the total. -/
theorem admin_state_of_run {w w' : World} {es : List Event} (hw : Kept py chunkSize w)
    (hrun : Run (KeepStep py chunkSize) w es w') (q : Region) (k : Key) :
    ∃ st st', adminState q k (w.cluster.globals q) = .ok st ∧
      adminState q k (w'.cluster.globals q) = .ok st' ∧
      st.total ≤ st'.total ∧ 0 ≤ st.drift ∧ st.drift ≤ st.total ∧
      w.cluster.counted q k.name ≤ st.total ∧ st.total ≤ w.cluster.countedAll k.name ∧
      (st.total = w.cluster.countedAll k.name ↔
        ∀ r, (w.cluster.globals q k.name).slot r = w.cluster.counted r k.name) := by
  have hw' : Kept py chunkSize w' := hw.run hrun
  obtain ⟨st, hst, htotal, hdrift⟩ := exists_adminState q (legible_globals hw q k.name)
    ((inv_of_reached hw.reached).1.nonneg q k.name)
  obtain ⟨st', hst', htotal', -⟩ := exists_adminState q (legible_globals hw' q k.name)
    ((inv_of_reached hw'.reached).1.nonneg q k.name)
  have hmono : (w.cluster.globals q k.name).total ≤ (w'.cluster.globals q k.name).total := by
    have hslot := fun r => hrun.relate
      (R := fun w w' => (w.cluster.globals q k.name).slot r ≤ (w'.cluster.globals q k.name).slot r)
      (fun _ => le_rfl) (fun _ _ _ => le_trans) fun _ _ _ hstep => hstep.slot_le q k.name r
    exact add_le_add (add_le_add (hslot .us) (hslot .eu)) (hslot .asia)
  obtain ⟨hself, hall, hiff⟩ := total_le_counted hw q k.name
  rw [← htotal] at hmono hself hall hiff
  rw [← htotal'] at hmono
  exact ⟨st, st', hst, hst', hmono, hdrift.1, hdrift.2, hself, hall, hiff⟩

def sampleInspection : Key := { RegionalCounter.sampleKey with windowId := 1 }

/-- Of the lost request in `us`, `eu` shows nothing before the passes and all behind them. -/
theorem admin_state_of_run_sample : ∃ w w', Kept samplePython 1000 w ∧
    Run (KeepStep samplePython 1000) w sampleHeal w' ∧
    (w.cluster.globals .eu sampleInspection.name).total = 0 ∧
    (w'.cluster.globals .eu sampleInspection.name).total = 1 ∧
    ∃ st st', adminState .eu sampleInspection (w.cluster.globals .eu) = .ok st ∧
      adminState .eu sampleInspection (w'.cluster.globals .eu) = .ok st' ∧
      st.total ≤ st'.total ∧ 0 ≤ st.drift ∧ st.drift ≤ st.total ∧
      w.cluster.counted .eu sampleInspection.name ≤ st.total ∧
      st.total ≤ w.cluster.countedAll sampleInspection.name ∧
      (st.total = w.cluster.countedAll sampleInspection.name ↔ ∀ r,
        (w.cluster.globals .eu sampleInspection.name).slot r =
          w.cluster.counted r sampleInspection.name) := by
  obtain ⟨w, w', hw, hrun⟩ := exists_sampleHeal
  have hkept : Kept samplePython 1000 w := ⟨init, sampleLost, rfl, hw⟩
  have hkeep : Run (KeepStep samplePython 1000) w sampleHeal w' := hrun.mono fun _ _ _ h => h.1
  refine ⟨w, w', hkept, hkeep, ?_, ?_, admin_state_of_run hkept hkeep .eu sampleInspection⟩
  · exact sample_map hw (.nil w) (fun u => (u.cluster.globals .eu sampleInspection.name).total)
      (by decide +kernel)
  · exact sample_map hw hrun (fun u => (u.cluster.globals .eu sampleInspection.name).total)
      (by decide +kernel)

end World

end Gdrl
