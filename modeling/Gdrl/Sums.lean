import Gdrl.Inputs
import Gdrl.Relay

/-!
# The global sum

The handler adds up the slots of `HGETALL` in 64 bits and leaves out what `strconv.Atoi`
refuses, while sync writes integers of any size. A policy's global limit is a positive
64-bit integer in every run (`capFits_of_reachable`), and so the handler decides as on the
true sum exactly as long as that is below `2 ^ 62` (`sum_exact_iff`). From there on the
doubling overflows, if the sum does not lose a slot before.
-/

namespace Gdrl

namespace Hash

/-- The handler's sum and its two comparisons are those of the slots added up. -/
structure SumExact (h : Hash) (globalLimit : ℤ) : Prop where
  sum : h.goSum = h.total
  /-- `sum > pol.GlobalLimit` -/
  denies : globalLimit < h.goSum ↔ globalLimit < h.total
  /-- `sum*2 >= pol.GlobalLimit` -/
  reports : globalLimit ≤ wrap64 (h.goSum * 2) ↔ globalLimit ≤ h.total * 2

theorem slot_le_total {h : Hash} (hn : h.Nonneg) (r : Region) : h.slot r ≤ h.total := by
  have hus := hn .us
  have heu := hn .eu
  have hasia := hn .asia
  unfold total
  cases r <;> linarith

/-- Go's sum is a 64-bit integer. -/
theorem goSum_lt (h : Hash) : h.goSum < 2 ^ 63 := by
  rw [goSum, wrap64, Int.bmod_def]
  split_ifs <;> omega

theorem readable_of_total_lt {h : Hash} (hn : h.Nonneg) (hlt : h.total < 2 ^ 63) : h.Readable := by
  have hfits : ∀ {n : ℤ}, 0 ≤ n → n ≤ h.total → fits64 n = true := by
    intro n h0 hle
    simp only [fits64, Bool.and_eq_true, decide_eq_true_eq]
    omega
  exact ⟨fun r => hfits (hn r) (slot_le_total hn r),
    hfits (total_nonneg hn) le_rfl⟩

theorem sumExact_iff {h : Hash} (hn : h.Nonneg) {globalLimit : ℤ} (hpos : 0 < globalLimit)
    (hfit : globalLimit < 2 ^ 63) : h.SumExact globalLimit ↔ h.total < 2 ^ 62 := by
  have htotal := total_nonneg hn
  constructor
  · intro hexact
    have hlt : h.total < 2 ^ 63 := hexact.sum ▸ h.goSum_lt
    by_contra hge
    -- twice the sum is above every limit, and negative in 64 bits
    have hwrap : wrap64 (h.total * 2) < 0 := by
      rw [wrap64, Int.bmod_def]
      split_ifs <;> omega
    have hreports := hexact.reports
    rw [hexact.sum] at hreports
    have := hreports.mpr (by omega)
    omega
  · intro hlt
    have hsum : h.goSum = h.total := goSum_eq_total (readable_of_total_lt hn (by omega))
    have hdouble : wrap64 (h.total * 2) = h.total * 2 := by
      refine wrap64_of_fits ?_
      simp only [fits64, Bool.and_eq_true, decide_eq_true_eq]
      omega
    exact ⟨hsum, by rw [hsum], by rw [hsum, hdouble]⟩

end Hash

/-! ## Global limits -/

/-- The global limit is a positive `int`. -/
def Policy.CapFits (p : Policy) : Prop := 0 < p.globalLimit ∧ p.globalLimit < 2 ^ 63

theorem Policy.capFits_lookup (t : Tier) : (Policy.lookup t).CapFits := by
  cases t <;> exact ⟨by decide, by decide⟩

/-- Go decodes no larger limit. -/
theorem Contract4.limitPerMinute_lt {raw : List Byte} {c : Contract4}
    (h : unmarshal fields raw zero = .ok c) : c.limitPerMinute < 2 ^ 63 := by
  refine @unmarshal_invariant _ (fun c => c.limitPerMinute < 2 ^ 63) _ ?_ _ _ _ (by decide) h
  have hstring : ∀ {key : Str} {set : Str → Contract4 → Contract4},
      (∀ v c, (set v c).limitPerMinute = c.limitPerMinute) → ∀ v c c',
      c.limitPerMinute < 2 ^ 63 → (goStringField key set).2 v c = some c' →
      c'.limitPerMinute < 2 ^ 63 := by
    intro key set hset v c c' hc h
    simp only [goStringField] at h
    split at h
    · exact Option.some.inj h ▸ hc
    · rw [← Option.some.inj h, hset]
      exact hc
    · cases h
  have hint : ∀ {key : Str} {set : ℤ → Contract4 → Contract4},
      (∀ v c, v < 2 ^ 63 → c.limitPerMinute < 2 ^ 63 → (set v c).limitPerMinute < 2 ^ 63) →
      ∀ v c c', c.limitPerMinute < 2 ^ 63 → (goIntField key set).2 v c = some c' →
      c'.limitPerMinute < 2 ^ 63 := by
    intro key set hset v c c' hc h
    simp only [goIntField] at h
    split at h
    · exact Option.some.inj h ▸ hc
    · split_ifs at h with hfit
      exact Option.some.inj h ▸ hset _ _ hfit.2 hc
    · cases h
  simp only [fields, List.forall_mem_cons]
  exact ⟨hstring fun _ _ => rfl, hstring fun _ _ => rfl, hstring fun _ _ => rfl,
    hint fun _ _ hv _ => hv, hint fun _ _ _ hc => hc, hstring fun _ _ => rfl,
    hint fun _ _ _ hc => hc, hstring fun _ _ => rfl, hstring fun _ _ => rfl, nofun⟩

namespace Store

theorem capFits_refreshTier {s : Store} (hs : ∀ t, (s.get t).CapFits) (tier : Tier)
    (raw : Option (List Byte)) (t : Tier) : ((s.refreshTier tier raw).get t).CapFits := by
  have hset : ∀ p : Policy, p.CapFits → ((s.setCache tier p).get t).CapFits := by
    intro p hp
    show (if t = tier then p else s.cache t).CapFits
    split_ifs
    · exact hp
    · exact hs t
  have hstatic : ((s.setStatic tier).get t).CapFits := hset _ (Policy.capFits_lookup tier)
  unfold refreshTier
  split
  · exact hstatic
  · split
    · exact hstatic
    · rename_i c hc
      split
      · exact hstatic
      · rename_i hvalid
        exact hset _ ⟨(Store.accepted_of_validate hvalid).1, Contract4.limitPerMinute_lt hc⟩

theorem capFits_refresh (s : Store) (get : Str → Option (List Byte))
    (hs : ∀ t, (s.get t).CapFits) (t : Tier) : ((s.refresh get).get t).CapFits := by
  rw [refresh_get]
  exact capFits_refreshTier hs t _ t

end Store

namespace Cluster

/-- A request works with a policy that it had before, or with one of a store. -/
theorem pol_cases {s s' : Cluster} {e : Event} (h : s.step e = some s') {d : Check}
    (hd : d ∈ s'.checks) :
    (∃ c ∈ s.checks, d.pol = c.pol) ∨ ∃ r t, d.pol = (s.stores r).get t := by
  rcases (effect h).checks_cases with hc | ⟨hstart, -⟩ | ⟨i, c, c', hi, hc, hu⟩
  · exact Or.inl ⟨d, hc ▸ hd, rfl⟩
  · cases e with
    | start r tier userId override =>
      obtain rfl := Option.some.inj h
      rcases List.mem_append.mp hd with hd | hd
      · exact Or.inl ⟨d, hd, rfl⟩
      · rw [List.mem_singleton.mp hd]
        exact Or.inr ⟨r, tier, rfl⟩
    | _ => exact absurd hstart Bool.false_ne_true
  · rcases List.mem_or_eq_of_mem_set (hc ▸ hd) with hd | rfl
    · exact Or.inl ⟨d, hd, rfl⟩
    · exact Or.inl ⟨c, List.mem_of_getElem? hi, by cases hu <;> rfl⟩

/-- The global limits of all stores and requests fit, and no slot is negative. -/
structure CapsFit (s : Cluster) : Prop where
  stores : ∀ r t, ((s.stores r).get t).CapFits
  checks : ∀ c ∈ s.checks, c.pol.CapFits
  nonneg : ∀ q k, (s.globals q k).Nonneg

theorem init_capsFit : init.CapsFit where
  stores _ t := Policy.capFits_lookup t
  checks _ h := absurd h List.not_mem_nil
  nonneg _ _ _ := le_rfl

theorem step_capsFit {s s' : Cluster} {e : Event} (hs : s.CapsFit) (h : s.step e = some s') :
    s'.CapsFit where
  stores := step_policies Store.capFits_refresh hs.stores h
  checks d hd := by
    rcases pol_cases h hd with ⟨c, hc, hpol⟩ | ⟨r, t, hpol⟩
    · exact hpol ▸ hs.checks c hc
    · exact hpol ▸ hs.stores r t
  nonneg q k r := ((effect h).slotEffect q k r).nonneg (hs.nonneg q k r)

theorem capsFit_of_reachable {s : Cluster} (h : Reachable (· = init) (Steps step) s) :
    s.CapsFit :=
  h.invariant (fun _ hs => hs ▸ init_capsFit) fun _ _ _ hs hstep => step_capsFit hs hstep

/-- **The global sum.** In every run, at every key and for the policy of every request, the
handler's sum and its comparisons are exact if and only if the slots add up to less than
`2 ^ 62`. -/
theorem sum_exact_iff {s : Cluster} (h : Reachable (· = init) (Steps step) s) (q : Region)
    (key : Str) {c : Check} (hc : c ∈ s.checks) :
    (s.globals q key).SumExact c.pol.globalLimit ↔ (s.globals q key).total < 2 ^ 62 := by
  have hfit := capsFit_of_reachable h
  exact Hash.sumExact_iff (hfit.nonneg q key) (hfit.checks c hc).1 (hfit.checks c hc).2

/-- A slot that `eu` has sent. -/
def mergedSlot : SlotWrite := ⟨str "free", str "u_1", 7, .eu, ⟨.int 4, by decide⟩⟩

/-- One request, next to four of `eu`. -/
theorem sum_exact_iff_sample : ∃ s,
    Run (Steps step) init (.merge .us mergedSlot 0 :: handling 0 .us .free sampleUser 420) s ∧
    ∃ c ∈ s.checks, (s.globals .us c.key).total = 5 ∧
      (s.globals .us c.key).SumExact c.pol.globalLimit := by
  have hend : (exec step init (.merge .us mergedSlot 0 :: handling 0 .us .free sampleUser 420)).map
      (fun s => s.checks.map fun c => (s.globals .us c.key).total) = some [5] := by decide +kernel
  obtain ⟨s, hs, htotal⟩ := Option.map_eq_some_iff.mp hend
  have hrun := run_of_exec hs
  obtain ⟨c, hc, htotal⟩ : ∃ c ∈ s.checks, (s.globals .us c.key).total = 5 :=
    List.mem_map.mp (htotal ▸ List.mem_singleton_self 5)
  refine ⟨s, hrun, c, hc, htotal, ?_⟩
  exact (sum_exact_iff ⟨_, _, rfl, hrun⟩ .us c.key hc).mpr (htotal ▸ by decide)

/-- A counter message of one region with a slot that `strconv.Atoi` refuses. -/
def hugeRegion : List Byte := utf8Encode (
  str "\x7b\"tier\":\"free\",\"user_id\":\"u_1\",\"window_id\":7,\"region\":\"eu\"," ++
  str "\"value\":9223372036854775808,\"ts_ms\":9\x7d")

/-- The slot that it brings. -/
def hugeSlot : SlotWrite := ⟨str "free", str "u_1", 7, .eu, ⟨.int 9223372036854775808, by decide⟩⟩

/-- A slot that `parse` accepts does not enter the handler's sum, and the request that it is
far too much for is allowed. -/
theorem not_sumExact : ∃ env s, parse samplePython hugeRegion = .ok env ∧
    env.writes = [hugeSlot] ∧
    Run (Steps step) init (.merge .us hugeSlot 0 :: handling 0 .us .free sampleUser 420) s ∧
    ∃ c ∈ s.checks, c.allowed = true ∧ (s.globals .us c.key).goSum = 1 ∧
      (s.globals .us c.key).total = 9223372036854775809 ∧
      ¬ (s.globals .us c.key).SumExact c.pol.globalLimit := by
  obtain ⟨env, hparse, hwrites⟩ : ∃ env, parse samplePython hugeRegion = .ok env ∧
      env.writes = [hugeSlot] := by
    have hrun : (match parse samplePython hugeRegion with
        | .ok env => decide (env.writes = [hugeSlot])
        | _ => false) = true := by decide +kernel
    split at hrun
    · rename_i env hparse
      exact ⟨env, hparse, of_decide_eq_true hrun⟩
    · exact absurd hrun Bool.false_ne_true
  have hend : (exec step init (.merge .us hugeSlot 0 :: handling 0 .us .free sampleUser 420)).map
      (fun s => s.checks.map fun c => (c.allowed, (s.globals .us c.key).goSum,
        (s.globals .us c.key).total)) = some [(true, 1, 9223372036854775809)] := by decide +kernel
  obtain ⟨s, hs, hmap⟩ := Option.map_eq_some_iff.mp hend
  obtain ⟨c, hchecks, heq⟩ := List.map_eq_singleton_iff.mp hmap
  obtain ⟨hallowed, hsums⟩ := Prod.mk.inj heq
  obtain ⟨hgo, htotal⟩ := Prod.mk.inj hsums
  refine ⟨env, s, hparse, hwrites, run_of_exec hs, c, ?_, hallowed, hgo, htotal, fun h => ?_⟩
  · rw [hchecks]
    exact List.mem_singleton_self c
  · rw [h.sum] at hgo
    exact absurd (hgo.symm.trans htotal) (by decide)

end Cluster

end Gdrl
