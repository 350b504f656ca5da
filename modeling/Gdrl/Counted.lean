import Gdrl.Messages

/-!
# Counted requests

A region's own slot and the requests that it has counted go up together : their
difference changes only where Redis loses the key (`Effect.balance`). The numbers of a
counted request stay in the range of its types (`Effect.inRange`), so that its message
reads back.
-/

namespace Gdrl

theorem countP_set_add {α : Type*} (p : α → Bool) {l : List α} {i : ℕ} {a : α} (b : α)
    (h : l[i]? = some a) :
    (l.set i b).countP p + (if p a then 1 else 0) = l.countP p + if p b then 1 else 0 := by
  induction l generalizing i with
  | nil => simp at h
  | cons c l ih =>
    cases i with
    | zero =>
      obtain rfl := Option.some.inj h
      rw [List.set_cons_zero, List.countP_cons, List.countP_cons]
      omega
    | succ i =>
      have := ih h
      rw [List.set_cons_succ, List.countP_cons, List.countP_cons]
      omega

theorem countP_set_of_eq {α : Type*} {p : α → Bool} {l : List α} {i : ℕ} {a b : α}
    (h : l[i]? = some a) (hab : p b = p a) : (l.set i b).countP p = l.countP p := by
  have := countP_set_add p b h
  rw [hab] at this
  exact Nat.add_right_cancel this

theorem countP_le_of_set {α : Type*} {p : α → Bool} {l : List α} {i : ℕ} {a b : α}
    (h : l[i]? = some a) (hab : p a = true → p b = true) : l.countP p ≤ (l.set i b).countP p := by
  have := countP_set_add p b h
  split_ifs at this with ha hb
  · omega
  · exact absurd (hab ha) hb
  · omega
  · omega

theorem countP_succ_of_set {α : Type*} {p : α → Bool} {l : List α} {i : ℕ} {a b : α}
    (h : l[i]? = some a) (ha : p a = false) (hb : p b = true) :
    (l.set i b).countP p = l.countP p + 1 := by
  simpa [ha, hb] using countP_set_add p b h

namespace Cluster

/-- A request counted in region `r` under a key. -/
def countsAt (r : Region) (k : Str) (c : Check) : Bool :=
  c.slot.isSome && c.region = r && c.key = k

/-- How many requests region `r` has counted under a key. -/
def counted (s : Cluster) (r : Region) (k : Str) : ℕ := s.checks.countP (countsAt r k)

theorem counted_of_set {s s' : Cluster} {i : ℕ} {c d : Check} (hi : s.checks[i]? = some c)
    (hc : s'.checks = s.checks.set i d) (r : Region) (k : Str)
    (h : countsAt r k d = countsAt r k c) : s'.counted r k = s.counted r k := by
  rw [counted, hc]
  exact countP_set_of_eq hi h

/-- `HINCRBY` counts one request. -/
theorem counted_of_incr {s s' : Cluster} {i : ℕ} {c c' : Check} {unix n : ℤ} {stage : Stage}
    (hi : s.checks[i]? = some c) (hslot : c.slot = none)
    (hc' : c' = { c with windowId := unix.tdiv 60, slot := some n, stage })
    (hc : s'.checks = s.checks.set i c') (r : Region) (k : Str) :
    s'.counted r k = s.counted r k + if r = c.region ∧ k = c.keyAt unix then 1 else 0 := by
  have hset := countP_set_add (countsAt r k) c' hi
  have hold : countsAt r k c = false := by simp [countsAt, hslot]
  have hkey : c'.key = c.keyAt unix := by
    rw [hc']
    rfl
  have hnew : countsAt r k c' = decide (r = c.region ∧ k = c.keyAt unix) := by
    rw [countsAt, hkey, hc']
    simp [eq_comm]
  rw [hold, hnew] at hset
  simpa [counted, hc] using hset

/-- What every step of a request keeps, is not had by fewer requests. -/
theorem Effect.countP_le {s s' : Cluster} {e : Event} (h : Effect s s' e) {p : Check → Bool}
    (hp : ∀ {i d d'}, s.checks[i]? = some d → Update s s' i d e d' → p d = true → p d' = true) :
    s.checks.countP p ≤ s'.checks.countP p := by
  rcases h.checks_cases with hc | ⟨-, d, -, -, -, hc⟩ | ⟨i, d, d', hi, hc, hu⟩
  · rw [hc]
  · rw [hc, List.countP_append]
    omega
  · rw [hc]
    exact countP_le_of_set hi (hp hi hu)

/-- No step takes a counted request back. -/
theorem Effect.counted_le {s s' : Cluster} {e : Event} (h : Effect s s' e)
    (hs : ∀ c ∈ s.checks, c.Sane) (r : Region) (k : Str) : s.counted r k ≤ s'.counted r k := by
  refine h.countP_le fun {i c d} hi hu hc => ?_
  have hfresh : c.stage = .decided → countsAt r k c = false := fun hstage => by
    have hslot := (hs c (List.mem_of_getElem? hi)).fresh (by rw [hstage]; rfl)
    simp [countsAt, hslot]
  cases hu with
  | skip hunix hstage => exact absurd hc (by rw [hfresh hstage]; exact Bool.false_ne_true)
  | incr n hash stage hunix hstage =>
    exact absurd hc (by rw [hfresh hstage]; exact Bool.false_ne_true)
  | _ => exact hc

/-- A region's own slot moves with its counted requests, unless Redis loses the key. -/
theorem Effect.balance {s s' : Cluster} {e : Event} (h : Effect s s' e)
    (hs : ∀ c ∈ s.checks, c.Sane) (r : Region) (k : Str) (he : ∀ ms, e ≠ .evict r k ms) :
    (s'.globals r k).slot r - s'.counted r k = (s.globals r k).slot r - s.counted r k := by
  have hfresh : ∀ {i : ℕ} {c : Check}, s.checks[i]? = some c → c.stage = .decided →
      c.slot = none := fun hi hstage =>
    (hs _ (List.mem_of_getElem? hi)).fresh (by rw [hstage]; rfl)
  have hsame : SameSlots s s' → (s'.globals r k).slot r = (s.globals r k).slot r := fun hg => by
    rw [Hash.slot, hg, Hash.slot]
  have hset : ∀ {i : ℕ} {c d : Check}, s.checks[i]? = some c → s'.checks = s.checks.set i d →
      countsAt r k d = countsAt r k c → SameSlots s s' →
      (s'.globals r k).slot r - s'.counted r k = (s.globals r k).slot r - s.counted r k :=
    fun hi hc h hg => by rw [hsame hg, counted_of_set hi hc r k h]
  cases h with
  | refresh hc hg => rw [hsame hg, counted, counted, hc]
  | start c hslot hwindow hstage hc hg =>
    have hno : [c].countP (countsAt r k) = 0 := by simp [countsAt, hslot]
    rw [hsame hg, counted, counted, hc, List.countP_append, hno, Nat.add_zero]
  | decide c reply stage hi hstage hnext hc hg => exact hset hi hc rfl hg
  | skip c hunix hi hstage hfail hc hg =>
    have hslot := hfresh hi hstage
    exact hset hi hc (by simp [countsAt, hslot]) hg
  | incr c c' n hash stage hunix hi hstage hc' hincr hnext hc hg =>
    rename_i i unix out
    rw [hg.slot_incr hincr, counted_of_incr hi (hfresh hi hstage) hc' hc]
    by_cases hrk : r = c.region ∧ k = c.keyAt unix
    · rw [if_pos ⟨hrk.1, hrk.2, hrk.1⟩, if_pos hrk]
      push_cast
      ring
    · rw [if_neg fun h => hrk ⟨h.1, h.2.1⟩, if_neg hrk, add_zero, Nat.add_zero]
  | expire c hi hstage hc hg => exact hset hi hc rfl hg
  | publish c hi hstage hts hc hg => exact hset hi hc rfl hg
  | read c resp hi hstage hresp hc hg => exact hset hi hc rfl hg
  | merge hne hc hg =>
    rename_i q w redisMs
    rw [counted, counted, hc]
    congr 1
    rcases hg with hg | hg
    · exact hsame hg
    · by_cases hqk : r = q ∧ k = w.key
      · obtain ⟨rfl, rfl⟩ := hqk
        rw [hg.self, Hash.slot, maxMerge_slots_of_ne _ _ _ (Ne.symm hne), Hash.slot]
      · rw [hg.other r k hqk]
  | evict hc hg =>
    rename_i q key redisMs
    have hqk : ¬ (r = q ∧ k = key) := by
      rintro ⟨rfl, rfl⟩
      exact he _ rfl
    rw [counted, counted, hc, hg.other r k hqk]

/-- A region's own slot never passes the requests it has counted. -/
theorem Effect.slot_le_counted {s s' : Cluster} {e : Event} (h : Effect s s' e)
    (hs : ∀ c ∈ s.checks, c.Sane) {r : Region} {k : Str}
    (hle : (s.globals r k).slot r ≤ s.counted r k) :
    (s'.globals r k).slot r ≤ s'.counted r k := by
  by_cases he : ∃ ms, e = .evict r k ms
  · obtain ⟨ms, rfl⟩ := he
    cases h with
    | evict hc hg =>
      rw [hg.self]
      exact Int.natCast_nonneg _
  · have := h.balance hs r k fun ms heq => he ⟨ms, heq⟩
    omega

theorem fits_tdiv {n : ℤ} (h : fits64 n = true) : fits64 (n.tdiv 60) = true := by
  have habs : (n.tdiv 60).natAbs = n.natAbs / 60 := Int.natAbs_tdiv n 60
  simp only [fits64, Bool.and_eq_true, decide_eq_true_eq] at h ⊢
  omega

/-- The numbers of every request stay in range. -/
theorem Effect.inRange {s s' : Cluster} {e : Event} (h : Effect s s' e)
    (hn : ∀ q k, (s.globals q k).Nonneg) (hs : ∀ c ∈ s.checks, c.InRange) :
    ∀ c ∈ s'.checks, c.InRange := by
  refine h.forall_checks hs (fun c hslot hwindow _ => ⟨?_, ?_⟩) fun i c d hi hu => ?_
  · rw [hwindow]
    rfl
  · simp [hslot]
  · have hc := hs c (List.mem_of_getElem? hi)
    cases hu with
    | decide => exact ⟨hc.window, hc.slot⟩
    | skip hunix => exact ⟨fits_tdiv hunix, hc.slot⟩
    | incr n hash stage hunix hstage hincr hnext =>
      obtain ⟨rfl, hlt, -, -⟩ := Hash.incr_eq_some hincr
      refine ⟨fits_tdiv hunix, fun m hm => ?_⟩
      obtain rfl := Option.some.inj hm
      exact ⟨(hn _ _ _).trans (lt_add_one _).le, hlt⟩
    | expire => exact ⟨hc.window, hc.slot⟩
    | publish => exact ⟨hc.window, hc.slot⟩
    | read => exact ⟨hc.window, hc.slot⟩

end Cluster

end Gdrl
