import Gdrl.Cap
import Gdrl.Slots

/-!
# Denied by the global cap

A region's slot is not the number of its allowed requests. The handler counts every
request that its limiter has decided, also the denied ones, and these take up the global
limit of later requests : `under_allow_denied` is a user who has five requests allowed of
ten and is denied by the cap. What the cap does say is that more requests than the limit
have been decided in the window (`over_limit_of_capped`).
-/

namespace Gdrl

namespace Check

/-- A request is counted only behind its limiter's reply. -/
def Decided (c : Check) : Prop :=
  c.stage = .decided ∨ c.slot.isSome = true → c.reply.isSome = true

/-- The response without the global cap is no denial by it. -/
theorem not_capped_localResponse {c d : Check} (hstage : d.stage = .answered c.localResponse)
    (hreply : d.reply = c.reply) : d.capped = false := by
  unfold capped localResponse at *
  rw [hstage, hreply]
  cases c.reply with
  | none => rfl
  | some r => exact Bool.and_not_self r.allowed

theorem stage_of_capped {c : Check} (h : c.capped = true) :
    (∃ resp, c.stage = .answered resp) ∧ c.reply.isSome = true := by
  unfold capped at h
  split at h
  · rename_i resp reply hstage hreply
    exact ⟨⟨resp, hstage⟩, by rw [hreply]; rfl⟩
  · exact absurd h Bool.false_ne_true

/-- The cap denies what the sum is too large for. -/
theorem lt_goSum_of_capped {c d : Check} {h : Hash} {nowMs : ℤ} (hd : d.capped = true)
    (hstage : d.stage = .answered (c.response h nowMs)) (hreply : d.reply = c.reply) :
    c.pol.globalLimit < h.goSum := by
  unfold response at hstage
  split_ifs at hstage with hlt
  · exact hlt
  · exact absurd ((not_capped_localResponse hstage hreply).symm.trans hd) Bool.false_ne_true

end Check

namespace Cluster

/-- No request is counted before its limiter's reply. -/
theorem Effect.decided {s s' : Cluster} {e : Event} (h : Effect s s' e)
    (hsane : ∀ c ∈ s.checks, c.Sane) (hs : ∀ c ∈ s.checks, c.Decided) :
    ∀ c ∈ s'.checks, c.Decided := by
  refine h.forall_checks hs (fun c hslot _ hstage => ?_) fun i c d hi hu => ?_
  · simp [Check.Decided, hslot, hstage]
  · have hdec := hs c (List.mem_of_getElem? hi)
    cases hu with
    | decide reply stage hstage hnext =>
      have hslot := (hsane c (List.mem_of_getElem? hi)).fresh (by rw [hstage]; rfl)
      intro h
      rcases hnext with ⟨-, hreply⟩ | ⟨-, resp, rfl, -⟩
      · exact hreply
      · exact absurd h (by simp [hslot])
    | skip hunix hstage => exact fun _ => hdec (Or.inl hstage)
    | incr n hash stage hunix hstage => exact fun _ => hdec (Or.inl hstage)
    | expire => exact fun h => hdec (Or.inr (h.resolve_left (by simp)))
    | publish => exact fun h => hdec (Or.inr (h.resolve_left (by simp)))
    | read => exact fun h => hdec (Or.inr (h.resolve_left (by simp)))

/-- A request denied by the cap after a step was so before, or has just read a sum above
its limit. -/
theorem Effect.capped_cases {s s' : Cluster} {e : Event} (h : Effect s s' e) {d : Check}
    (hd : d ∈ s'.checks) (hcapped : d.capped = true) :
    d ∈ s.checks ∨ d.pol.globalLimit < (s.globals d.region d.key).goSum := by
  -- a request that is not answered is not denied
  have hopen : ∀ {stage : Stage}, d.stage = stage → (∀ resp, stage ≠ .answered resp) → False := by
    rintro stage hstage hne
    obtain ⟨⟨resp, hresp⟩, -⟩ := Check.stage_of_capped hcapped
    exact hne resp (hstage.symm.trans hresp)
  have hlocal : ∀ c : Check, d.stage = .answered c.localResponse → d.reply = c.reply → False := by
    intro c hstage hreply
    exact absurd ((Check.not_capped_localResponse hstage hreply).symm.trans hcapped)
      Bool.false_ne_true
  rcases h.mem_cases hd with hd | ⟨-, -, hstage⟩ | ⟨i, c, hi, hu⟩
  · exact Or.inl hd
  · exact (hopen hstage (by simp)).elim
  · cases hu with
    | decide reply stage hstage hnext =>
      rcases hnext with ⟨rfl, -⟩ | ⟨rfl, -⟩
      · exact (hopen rfl (by simp)).elim
      · exact absurd (Check.stage_of_capped hcapped).2 Bool.false_ne_true
    | skip => exact (hlocal c rfl rfl).elim
    | incr n hash stage hunix hstage hincr hnext =>
      rcases hnext with ⟨-, rfl⟩ | ⟨-, rfl⟩
      · exact (hopen rfl (by simp)).elim
      · exact (hlocal c rfl rfl).elim
    | expire => exact (hopen rfl (by simp)).elim
    | publish => exact (hopen rfl (by simp)).elim
    | read resp hstage hresp =>
      subst hresp
      split_ifs at hcapped hlocal with hout
      · exact Or.inr (Check.lt_goSum_of_capped (c := c) hcapped rfl rfl)
      · exact (hlocal c rfl rfl).elim

/-- How many requests the regions have counted under a key. -/
def countedAll (s : Cluster) (k : Str) : ℕ := s.counted .us k + s.counted .eu k + s.counted .asia k

theorem Effect.countedAll_le {s s' : Cluster} {e : Event} (h : Effect s s' e)
    (hs : ∀ c ∈ s.checks, c.Sane) (k : Str) : s.countedAll k ≤ s'.countedAll k :=
  add_le_add (add_le_add (h.counted_le hs .us k) (h.counted_le hs .eu k)) (h.counted_le hs .asia k)

end Cluster

namespace Check

end Check

namespace World

variable {py : Python} {chunkSize : ℤ}

/-- What a region reads is at most what all regions have counted. -/
theorem goSum_le_counted {w : World} (hI : w.Inv py) (hB : (w.registers py).Bounded) (q : Region)
    (k : Str) : (w.cluster.globals q k).goSum ≤ w.cluster.countedAll k := by
  refine (Hash.goSum_le_total (hI.nonneg q k)).trans ?_
  have hle : ∀ r, (w.cluster.globals q k).slot r ≤ (w.cluster.counted r k : ℤ) :=
    fun r => hB.val_le q k r
  rw [Cluster.countedAll]
  push_cast
  exact add_le_add (add_le_add (hle .us) (hle .eu)) (hle .asia)

/-- What every reachable world has, with the requests denied by the cap accounted for. -/
structure Accounted (py : Python) (w : World) : Prop where
  inv : w.Inv py
  bounded : (w.registers py).Bounded
  decided : ∀ c ∈ w.cluster.checks, c.Decided
  capped : ∀ c ∈ w.cluster.checks, c.capped = true →
    c.pol.globalLimit < w.cluster.countedAll c.key

theorem Accounted.step {w w' : World} {e : Event} (h : Accounted py w)
    (hE : Effect py chunkSize w w' e) : Accounted py w' := by
  have hchecks : (∀ c ∈ w'.cluster.checks, c.Decided) ∧ ∀ c ∈ w'.cluster.checks,
      c.capped = true → c.pol.globalLimit < w'.cluster.countedAll c.key := by
    rcases hE.cluster_effect with heq | ⟨ce, hce, -⟩
    · rw [heq]
      exact ⟨h.decided, h.capped⟩
    · refine ⟨hce.decided h.inv.sane h.decided, fun d hd hcapped => ?_⟩
      refine lt_of_lt_of_le ?_ (Int.ofNat_le.mpr (hce.countedAll_le h.inv.sane d.key))
      rcases hce.capped_cases hd hcapped with hd | hlt
      · exact h.capped d hd hcapped
      · exact hlt.trans_le (goSum_le_counted h.inv h.bounded d.region d.key)
  exact ⟨h.inv.step hE, h.bounded.step (hE.registers_step h.inv h.bounded), hchecks.1, hchecks.2⟩

end World

end Gdrl
