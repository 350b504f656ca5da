import Gdrl.Gateway
import Gdrl.Lists
import Mathlib.Algebra.BigOperators.Group.Finset.Basic
import Mathlib.Algebra.Order.BigOperators.Group.Finset
import Mathlib.Data.Int.Interval

/-!
# The global cap

How many requests of one user, tier and window the gateways answer `allowed=true` while
their handlers interleave with each other and with any merges.

Every counted request draws a ticket : the sum of the owners' slots of some regions
`rs` right after its own increment. Tickets are distinct and start at 1, and a region
that had merged the slots of `rs` when the request was counted never sees a sum below
the ticket (`Tickets`). So a request is allowed only with a ticket up to the limit. One
region alone has always merged itself, which gives the bound for each region; with all
three regions the bound holds for the cluster as long as every increment is merged
before the next one.
-/

open Finset

namespace Gdrl

/-- Numbers that tell apart the entries of a list that pass a test, and that lie in a finite
set, bound their count. -/
theorem countP_le_card {α β : Type*} [DecidableEq β] {p : α → Bool} (l : List α) (f : ℕ → β)
    (S : Finset β) (hS : ∀ i a, l[i]? = some a → p a = true → f i ∈ S)
    (hinj : ∀ i j a b, l[i]? = some a → l[j]? = some b → p a = true → p b = true → f i = f j →
      i = j) : l.countP p ≤ S.card := by
  induction l generalizing f S with
  | nil => simp
  | cons a l ih =>
    have hinj' : ∀ i j b c, l[i]? = some b → l[j]? = some c → p b = true → p c = true →
        f (i + 1) = f (j + 1) → i = j := fun i j b c hi hj hb hc hf =>
      Nat.succ_injective (hinj (i + 1) (j + 1) b c hi hj hb hc hf)
    by_cases ha : p a = true
    · rw [List.countP_cons_of_pos ha]
      have h0 : f 0 ∈ S := hS 0 a rfl ha
      have hle := ih (fun i => f (i + 1)) (S.erase (f 0)) (fun i b hi hb => by
        refine mem_erase.mpr ⟨fun heq => ?_, hS (i + 1) b hi hb⟩
        exact Nat.succ_ne_zero i (hinj (i + 1) 0 b a hi rfl hb ha heq)) hinj'
      rw [card_erase_of_mem h0] at hle
      have := card_pos.mpr ⟨_, h0⟩
      omega
    · rw [List.countP_cons_of_neg ha]
      exact ih (fun i => f (i + 1)) S (fun i b hi hb => hS (i + 1) b hi hb) hinj'

/-- One user in one tier and one window. -/
structure UserWindow where
  tier : Tier
  userId : UserId
  windowId : ℤ

namespace UserWindow

def key (u : UserWindow) : Str := globalKey u.tier.name u.userId.val u.windowId

/-- A request of the user and tier whose clock was read in the window. -/
def owns (u : UserWindow) (c : Check) : Bool :=
  c.tier = u.tier && c.userId = u.userId && c.windowId = u.windowId

/-- Such a request that is counted in its region's slot. -/
def counts (u : UserWindow) (c : Check) : Bool := u.owns c && c.slot.isSome

theorem owns_iff {u : UserWindow} {c : Check} :
    u.owns c = true ↔ c.tier = u.tier ∧ c.userId = u.userId ∧ c.windowId = u.windowId := by
  simp [owns, and_assoc]

/-- The key of a request tells its user, tier and window. -/
theorem key_eq_iff {u : UserWindow} {c : Check} : c.key = u.key ↔ u.owns c = true := by
  rw [owns_iff]
  constructor
  · intro h
    obtain ⟨h1, h2, h3⟩ := globalKey_inj c.tier.colon_notMem_name u.tier.colon_notMem_name h
    exact ⟨Tier.name_injective h1, Subtype.ext h2, h3⟩
  · rintro ⟨h1, h2, h3⟩
    rw [Check.key, h1, h2, h3, key]

theorem counts_iff {u : UserWindow} {c : Check} :
    u.counts c = true ↔ u.owns c = true ∧ c.slot.isSome = true := by
  rw [counts, Bool.and_eq_true]

end UserWindow

namespace Cluster

section Cap

variable (u : UserWindow) (G : ℕ)

/-- How many requests of the window a region has answered `allowed=true`. -/
def allowedIn (s : Cluster) (r : Region) : ℕ :=
  s.checks.countP fun c => u.owns c && c.allowed && c.region = r

/-- How many the cluster has answered so. -/
def allowedCount (s : Cluster) : ℕ := s.checks.countP fun c => u.owns c && c.allowed

/-- An event as the bound assumes it for the window : the policy's global limit is `G`,
`HINCRBY` and `HGETALL` succeed, the slots read are Go integers whose sum does not
overflow, and the key does not expire. -/
def Undisturbed (s : Cluster) : Event → Prop
  | .incr i unix out => ∀ c ∈ s.checks[i]?, c.keyAt unix = u.key →
    c.pol.globalLimit = G ∧ out = .ok ∧ ((s.globals c.region u.key).incr c.region).isSome = true
  | .read i _ out => ∀ c ∈ s.checks[i]?, c.key = u.key →
    out = .ok ∧ (s.globals c.region u.key).Readable
  | .evict _ key _ => key ≠ u.key
  | _ => True

/-- Every peer of every region has merged what the region has counted, when a request is
counted in one of the regions `rs`. -/
def Merged (rs : Finset Region) (s : Cluster) : Event → Prop
  | .incr i unix _ => ∀ c ∈ s.checks[i]?, c.keyAt unix = u.key → c.region ∈ rs →
    ∀ q ∈ rs, ∀ r ∈ rs, (s.globals r u.key).slot r ≤ (s.globals q u.key).slot r
  | _ => True

/-- A step under these assumptions. -/
def CapStep (s : Cluster) (e : Event) (s' : Cluster) : Prop :=
  s.step e = some s' ∧ s.Undisturbed u G e

/-- A step where, besides, every increment has been merged by both peers. A request starts
before its `HINCRBY`, and a merge is never undone, so this is so in particular where each
increment is merged before the next request starts. -/
def MergedStep (s : Cluster) (e : Event) (s' : Cluster) : Prop :=
  CapStep u G s e s' ∧ s.Merged u {.us, .eu, .asia} e

/-! ### Tickets -/

/-- The owners' slots of some regions, added up. -/
def owned (rs : Finset Region) (s : Cluster) : ℤ := ∑ r ∈ rs, (s.globals r u.key).slot r

/-- The same slots as region `q` sees them. -/
def seen (rs : Finset Region) (s : Cluster) (q : Region) : ℤ := ∑ r ∈ rs, (s.globals q u.key).slot r

/-- What holds in every state of a run, tickets aside. -/
structure CapInv (s : Cluster) : Prop where
  nonneg : ∀ q, (s.globals q u.key).Nonneg
  sane : ∀ c ∈ s.checks, c.Sane
  counted : ∀ c ∈ s.checks, u.owns c = true → c.allowed = true → c.slot.isSome = true
  limit : ∀ c ∈ s.checks, u.counts c = true → c.pol.globalLimit = G

/-- Tickets `ord` of the requests counted in the regions `rs`. -/
structure Tickets (rs : Finset Region) (ord : ℕ → ℤ) (s : Cluster) : Prop where
  one_le : ∀ i c, s.checks[i]? = some c → c.region ∈ rs → u.counts c = true → 1 ≤ ord i
  le_owned : ∀ i c, s.checks[i]? = some c → c.region ∈ rs → u.counts c = true →
    ord i ≤ owned u rs s
  le_seen : ∀ i c, s.checks[i]? = some c → c.region ∈ rs → u.counts c = true →
    ord i ≤ seen u rs s c.region
  le_limit : ∀ i c, s.checks[i]? = some c → c.region ∈ rs → u.counts c = true →
    c.allowed = true → ord i ≤ G
  inj : ∀ i j c d, s.checks[i]? = some c → s.checks[j]? = some d → c.region ∈ rs →
    d.region ∈ rs → u.counts c = true → u.counts d = true → ord i = ord j → i = j

/-- The requests counted after a step were counted before it, and those newly allowed have
read a sum within the limit. -/
def CountedBefore (rs : Finset Region) (s s' : Cluster) : Prop :=
  ∀ (i : ℕ) c', s'.checks[i]? = some c' → c'.region ∈ rs → u.counts c' = true →
    ∃ c : Check, s.checks[i]? = some c ∧ c.region = c'.region ∧ u.counts c = true ∧
      (c'.allowed = true → c.allowed = true ∨ seen u rs s c.region ≤ G)

variable {u G}

/-- Where slots only grow and the requests counted are those counted before, the tickets
stay good. A request newly allowed must have read a sum up to the limit. -/
theorem Tickets.frame {rs : Finset Region} {ord : ℕ → ℤ} {s s' : Cluster}
    (h : Tickets u G rs ord s) (howned : owned u rs s ≤ owned u rs s')
    (hseen : ∀ q, seen u rs s q ≤ seen u rs s' q)
    (hchecks : CountedBefore u G rs s s') :
    Tickets u G rs ord s' where
  one_le i c' hi hr hc := by
    obtain ⟨c, hi, hreg, hc, -⟩ := hchecks i c' hi hr hc
    exact h.one_le i c hi (hreg ▸ hr) hc
  le_owned i c' hi hr hc := by
    obtain ⟨c, hi, hreg, hc, -⟩ := hchecks i c' hi hr hc
    exact (h.le_owned i c hi (hreg ▸ hr) hc).trans howned
  le_seen i c' hi hr hc := by
    obtain ⟨c, hi, hreg, hc, -⟩ := hchecks i c' hi hr hc
    exact hreg ▸ (h.le_seen i c hi (hreg ▸ hr) hc).trans (hseen _)
  le_limit i c' hi hr hc hallowed := by
    obtain ⟨c, hi, hreg, hc, hread⟩ := hchecks i c' hi hr hc
    rcases hread hallowed with hallowed | hle
    · exact h.le_limit i c hi (hreg ▸ hr) hc hallowed
    · exact (h.le_seen i c hi (hreg ▸ hr) hc).trans hle
  inj i j c' d' hi hj hr hr' hc hd hord := by
    obtain ⟨c, hi, hreg, hc, -⟩ := hchecks i c' hi hr hc
    obtain ⟨d, hj, hreg', hd, -⟩ := hchecks j d' hj hr' hd
    exact h.inj i j c d hi hj (hreg ▸ hr) (hreg' ▸ hr') hc hd hord

theorem slot_le_of_undisturbed {s s' : Cluster} {e : Event} (h : Effect s s' e)
    (he : s.Undisturbed u G e) (q r : Region) :
    (s.globals q u.key).slot r ≤ (s'.globals q u.key).slot r := by
  refine (h.slotEffect q u.key r).le fun ms heq => ?_
  subst heq
  exact he rfl

theorem owned_le {s s' : Cluster} {e : Event} (h : Effect s s' e) (he : s.Undisturbed u G e)
    (rs : Finset Region) : owned u rs s ≤ owned u rs s' :=
  sum_le_sum fun r _ => slot_le_of_undisturbed h he r r

theorem seen_le {s s' : Cluster} {e : Event} (h : Effect s s' e) (he : s.Undisturbed u G e)
    (rs : Finset Region) (q : Region) : seen u rs s q ≤ seen u rs s' q :=
  sum_le_sum fun r _ => slot_le_of_undisturbed h he q r

/-- What a region sees of some slots is at most what it reads of all. -/
theorem seen_le_total {s : Cluster} {q : Region} (h : (s.globals q u.key).Nonneg)
    (rs : Finset Region) : seen u rs s q ≤ (s.globals q u.key).total := by
  have hall : ∀ r, r ∈ ({.us, .eu, .asia} : Finset Region) := fun r => by cases r <;> decide
  refine (sum_le_sum_of_subset_of_nonneg (fun r _ => hall r) fun r _ _ => h r).trans (le_of_eq ?_)
  rw [sum_insert (by decide), sum_insert (by decide), sum_singleton, Hash.total, add_assoc]

/-- An allowed answer behind a readable sum : the sum is within the limit. -/
theorem total_le_of_response {c : Check} {h : Hash} {nowMs : ℤ} (hr : h.Readable)
    (hallowed : (c.response h nowMs).allowed = true) : h.total ≤ c.pol.globalLimit := by
  unfold Check.response at hallowed
  rw [Hash.goSum_eq_total hr] at hallowed
  split_ifs at hallowed with hlt
  · exact absurd hallowed Bool.false_ne_true
  · exact not_lt.mp hlt

theorem CapInv.step {s s' : Cluster} {e : Event} (hI : CapInv u G s) (h : Effect s s' e)
    (he : s.Undisturbed u G e) : CapInv u G s' := by
  refine ⟨fun q r => (h.slotEffect q u.key r).nonneg (hI.nonneg q r), h.sane hI.sane, ?_, ?_⟩
  · refine h.forall_checks hI.counted (fun c _ _ hstage _ hallowed => ?_) fun i c d hi hu => ?_
    · simp [Check.allowed, hstage] at hallowed
    · have hsane := hI.sane c (List.mem_of_getElem? hi)
      cases hu with
      | decide reply stage hstage hnext =>
        intro _ h
        rcases hnext with ⟨rfl, -⟩ | ⟨-, resp, rfl, hresp⟩
        · exact absurd h Bool.false_ne_true
        · exact absurd (hresp.symm.trans h) Bool.false_ne_true
      | skip hunix hstage hfail =>
        intro howns _
        have hkey : c.keyAt _ = u.key := UserWindow.key_eq_iff.mpr howns
        obtain ⟨-, rfl, hsome⟩ := he c hi hkey
        rw [hkey] at hfail
        exact absurd hsome (by simp [hfail rfl])
      | incr => exact fun _ _ => rfl
      | expire => exact fun _ h => absurd h Bool.false_ne_true
      | publish => exact fun _ h => absurd h Bool.false_ne_true
      | read resp hstage => exact fun _ _ => hsane.counted (by rw [hstage]; rfl)
  · refine h.forall_checks hI.limit (fun c hslot _ _ hcounts => ?_) fun i c d hi hu => ?_
    · simp [UserWindow.counts, hslot] at hcounts
    · have hlimit := hI.limit c (List.mem_of_getElem? hi)
      cases hu with
      | decide => exact hlimit
      | skip hunix hstage hfail =>
        intro hcounts
        have hslot := (hI.sane c (List.mem_of_getElem? hi)).fresh (by rw [hstage]; rfl)
        simp [UserWindow.counts, hslot] at hcounts
      | incr =>
        intro hcounts
        exact (he c hi (UserWindow.key_eq_iff.mpr (UserWindow.counts_iff.mp hcounts).1)).1
      | expire => exact hlimit
      | publish => exact hlimit
      | read => exact hlimit

theorem countedBefore_of_eq {rs : Finset Region} {s s' : Cluster} (hc : s'.checks = s.checks) :
    CountedBefore u G rs s s' :=
  fun _ c' hi _ hcounts => ⟨c', hc ▸ hi, rfl, hcounts, Or.inl⟩

theorem countedBefore_of_set {rs : Finset Region} {s s' : Cluster} {i : ℕ} {c d : Check}
    (hi : s.checks[i]? = some c) (hc : s'.checks = s.checks.set i d) (hreg : d.region = c.region)
    (hcounts : d.region ∈ rs → u.counts d = true → u.counts c = true)
    (hallowed : u.counts d = true → d.allowed = true → seen u rs s c.region ≤ G) :
    CountedBefore u G rs s s' := by
  intro j c' hj hr hc'
  rw [hc] at hj
  rcases getElem?_set_cases hj with ⟨rfl, rfl⟩ | ⟨-, hj⟩
  · exact ⟨c, hi, hreg.symm, hcounts hr hc', fun h => Or.inr (hallowed hc' h)⟩
  · exact ⟨c', hj, rfl, hc', Or.inl⟩

/-- An event that counts no request of the window in the regions keeps the tickets. -/
theorem Effect.countedBefore {s s' : Cluster} {e : Event} (h : Effect s s' e) (hI : CapInv u G s)
    (he : s.Undisturbed u G e) {rs : Finset Region}
    (hincr : ∀ i unix out c, e = .incr i unix out → s.checks[i]? = some c → c.region ∈ rs →
      c.keyAt unix ≠ u.key) : CountedBefore u G rs s s' := by
  cases h with
  | refresh hc hg => exact countedBefore_of_eq hc
  | start c hslot hwindow hstage hc hg =>
    intro j c' hj hr hcounts
    rw [hc] at hj
    rcases getElem?_concat_cases hj with hj | ⟨-, rfl⟩
    · exact ⟨c', hj, rfl, hcounts, Or.inl⟩
    · simp [UserWindow.counts, hslot] at hcounts
  | decide c reply stage hi hstage hnext hc hg =>
    refine countedBefore_of_set hi hc rfl (fun _ => id) fun _ h => ?_
    rcases hnext with ⟨rfl, -⟩ | ⟨-, resp, rfl, hresp⟩
    · exact absurd h Bool.false_ne_true
    · exact absurd (hresp.symm.trans h) Bool.false_ne_true
  | skip c hunix hi hstage hfail hc hg =>
    have hslot : c.slot = none := (hI.sane c (List.mem_of_getElem? hi)).fresh (by rw [hstage]; rfl)
    have hno : ¬ c.slot.isSome = true := by
      rw [hslot]
      exact Bool.false_ne_true
    exact countedBefore_of_set hi hc rfl (fun _ h => absurd (UserWindow.counts_iff.mp h).2 hno)
      fun h => absurd (UserWindow.counts_iff.mp h).2 hno
  | incr c c' n hash stage hunix hi hstage hc' hinc hnext hc hg =>
    subst hc'
    refine countedBefore_of_set hi hc rfl (fun hr h => ?_) fun h hallowed => ?_
    · exact absurd (UserWindow.key_eq_iff.mpr (UserWindow.counts_iff.mp h).1)
        (hincr _ _ _ c rfl hi hr)
    · obtain ⟨-, hout, -⟩ := he c hi (UserWindow.key_eq_iff.mpr (UserWindow.counts_iff.mp h).1)
      rcases hnext with ⟨-, rfl⟩ | ⟨rfl, -⟩
      · exact absurd hallowed Bool.false_ne_true
      · exact absurd hout (by decide)
  | expire c hi hstage hc hg =>
    exact countedBefore_of_set hi hc rfl (fun _ => id) fun _ h => absurd h Bool.false_ne_true
  | publish c hi hstage hts hc hg =>
    exact countedBefore_of_set hi hc rfl (fun _ => id) fun _ h => absurd h Bool.false_ne_true
  | read c resp hi hstage hresp hc hg =>
    refine countedBefore_of_set hi hc rfl (fun _ => id) fun hcounts hallowed => ?_
    have hkey : c.key = u.key := UserWindow.key_eq_iff.mpr (UserWindow.counts_iff.mp hcounts).1
    obtain ⟨hout, hread⟩ := he c hi hkey
    rw [if_pos hout, hkey] at hresp
    have hle := total_le_of_response hread (hresp ▸ hallowed)
    rw [hI.limit c (List.mem_of_getElem? hi) hcounts] at hle
    exact (seen_le_total (hI.nonneg _) rs).trans hle
  | merge hne hc hg => exact countedBefore_of_eq hc
  | evict hc hg => exact countedBefore_of_eq hc

/-- A request counted in one of the regions adds one to what the owners hold, and to what
its region sees. -/
theorem Writes.owned_seen {s s' : Cluster} {p : Region} {n : ℤ} {hash : Hash}
    (hg : Writes s s' p u.key hash) (hincr : (s.globals p u.key).incr p = some (n, hash))
    {rs : Finset Region} (hp : p ∈ rs) :
    owned u rs s' = owned u rs s + 1 ∧ seen u rs s' p = seen u rs s p + 1 := by
  have hslot := fun q r => hg.slot_incr hincr q u.key r
  constructor
  · simp only [owned, hslot, and_self, true_and, sum_add_distrib, sum_ite_eq', hp, if_true]
  · simp only [seen, hslot, true_and, sum_add_distrib, sum_ite_eq', hp, if_true]

/-- The request that is counted draws the next ticket. -/
theorem Tickets.draw {rs : Finset Region} {ord : ℕ → ℤ} {s s' : Cluster} (h : Tickets u G rs ord s)
    (hI : CapInv u G s) {i : ℕ} {c c' : Check} {n : ℤ} {hash : Hash}
    (hc : s'.checks = s.checks.set i c') (hallowed : c'.allowed = false)
    (hreg : c'.region = c.region) (hr : c.region ∈ rs)
    (hg : Writes s s' c.region u.key hash)
    (hincr : (s.globals c.region u.key).incr c.region = some (n, hash))
    (hmerged : ∀ r ∈ rs, (s.globals r u.key).slot r ≤ (s.globals c.region u.key).slot r)
    (hseen : ∀ q, seen u rs s q ≤ seen u rs s' q) :
    Tickets u G rs (Function.update ord i (owned u rs s')) s' := by
  obtain ⟨howned, hsee⟩ := hg.owned_seen hincr hr
  have hle : owned u rs s ≤ seen u rs s c.region := sum_le_sum hmerged
  have hnonneg : 0 ≤ owned u rs s := sum_nonneg fun r _ => hI.nonneg r r
  -- any other request is one from before
  have hold : ∀ (j : ℕ) d, s'.checks[j]? = some d → (j = i ∧ d = c') ∨
      (j ≠ i ∧ s.checks[j]? = some d) := by
    intro j d hj
    rw [hc] at hj
    exact getElem?_set_cases hj
  have hlt : ∀ (j : ℕ) d, s.checks[j]? = some d → d.region ∈ rs → u.counts d = true →
      ord j < owned u rs s' := fun j d hj hr hd => by
    have := h.le_owned j d hj hr hd
    omega
  refine ⟨fun j d hj hd hcounts => ?_, fun j d hj hd hcounts => ?_, fun j d hj hd hcounts => ?_,
    fun j d hj hd hcounts hall => ?_, fun j k d d' hj hk hd hd' hcounts hcounts' heq => ?_⟩
  · rcases hold j d hj with ⟨rfl, rfl⟩ | ⟨hne, hj⟩
    · rw [Function.update_self]
      omega
    · rw [Function.update_of_ne hne]
      exact h.one_le j d hj hd hcounts
  · rcases hold j d hj with ⟨rfl, rfl⟩ | ⟨hne, hj⟩
    · rw [Function.update_self]
    · rw [Function.update_of_ne hne]
      exact (hlt j d hj hd hcounts).le
  · rcases hold j d hj with ⟨rfl, rfl⟩ | ⟨hne, hj⟩
    · rw [Function.update_self, hreg]
      omega
    · rw [Function.update_of_ne hne]
      exact (h.le_seen j d hj hd hcounts).trans (hseen _)
  · rcases hold j d hj with ⟨rfl, rfl⟩ | ⟨hne, hj⟩
    · exact absurd (hallowed.symm.trans hall) Bool.false_ne_true
    · rw [Function.update_of_ne hne]
      exact h.le_limit j d hj hd hcounts hall
  · rcases hold j d hj with ⟨rfl, rfl⟩ | ⟨hne, hj⟩
    · rcases hold k d' hk with ⟨rfl, -⟩ | ⟨hne', hk⟩
      · rfl
      · rw [Function.update_self, Function.update_of_ne hne'] at heq
        exact absurd heq.symm (hlt k d' hk hd' hcounts').ne
    · rcases hold k d' hk with ⟨rfl, rfl⟩ | ⟨hne', hk⟩
      · rw [Function.update_self, Function.update_of_ne hne] at heq
        exact absurd heq (hlt j d hj hd hcounts).ne
      · rw [Function.update_of_ne hne, Function.update_of_ne hne'] at heq
        exact h.inj j k d d' hj hk hd hd' hcounts hcounts' heq

theorem Tickets.step {rs : Finset Region} {ord : ℕ → ℤ} {s s' : Cluster} {e : Event}
    (h : Tickets u G rs ord s) (hI : CapInv u G s) (hE : Effect s s' e)
    (he : s.Undisturbed u G e) (hm : s.Merged u rs e) : ∃ ord, Tickets u G rs ord s' := by
  have hframe := fun hcounted : CountedBefore u G rs s s' =>
    h.frame (owned_le hE he rs) (seen_le hE he rs) hcounted
  by_cases hincr : ∃ i unix out c, e = .incr i unix out ∧ s.checks[i]? = some c ∧
      c.region ∈ rs ∧ c.keyAt unix = u.key
  · obtain ⟨i, unix, out, c, rfl, hi, hr, hkey⟩ := hincr
    obtain ⟨-, hout, hsome⟩ := he c hi hkey
    have hE' := hE
    cases hE' with
    | skip d hunix hd hstage hfail hc hg =>
      obtain rfl := Option.some.inj (hd.symm.trans hi)
      rw [hkey] at hfail
      exact absurd hsome (by simp [hfail (by rw [hout]; rfl)])
    | incr d c' n hash stage hunix hd hstage hc' hinc hnext hc hg =>
      obtain rfl := Option.some.inj (hd.symm.trans hi)
      rw [hkey] at hinc hg
      have hallowed : c'.allowed = false := by
        rcases hnext with ⟨-, rfl⟩ | ⟨hlost, -⟩
        · rw [hc']
          rfl
        · exact absurd (hlost.symm.trans hout) (by decide)
      exact ⟨_, h.draw hI hc hallowed (by rw [hc']) hr hg hinc (hm d hi hkey hr d.region hr)
        (seen_le hE he rs)⟩
  · refine ⟨ord, hframe (hE.countedBefore hI he fun i unix out c heq hi hr hkey => ?_)⟩
    exact hincr ⟨i, unix, out, c, heq, hi, hr, hkey⟩

/-- The requests of the regions that are answered `allowed=true` hold tickets up to `G`. -/
theorem Tickets.countP_le {rs : Finset Region} {ord : ℕ → ℤ} {s : Cluster}
    (h : Tickets u G rs ord s) (hI : CapInv u G s) :
    (s.checks.countP fun c => u.owns c && c.allowed && c.region ∈ rs) ≤ G := by
  have hsplit : ∀ c ∈ s.checks, (u.owns c && c.allowed && decide (c.region ∈ rs)) = true →
      u.counts c = true ∧ c.allowed = true ∧ c.region ∈ rs := by
    intro c hc h
    simp only [Bool.and_eq_true, decide_eq_true_eq] at h
    exact ⟨UserWindow.counts_iff.mpr ⟨h.1.1, hI.counted c hc h.1.1 h.1.2⟩, h.1.2, h.2⟩
  refine (countP_le_card s.checks ord (Icc 1 (G : ℤ)) ?_ ?_).trans (by simp)
  · intro i c hi hc
    obtain ⟨hcounts, hallowed, hr⟩ := hsplit c (List.mem_of_getElem? hi) hc
    exact mem_Icc.mpr ⟨h.one_le i c hi hr hcounts, h.le_limit i c hi hr hcounts hallowed⟩
  · intro i j c d hi hj hc hd heq
    obtain ⟨hcounts, -, hr⟩ := hsplit c (List.mem_of_getElem? hi) hc
    obtain ⟨hcounts', -, hr'⟩ := hsplit d (List.mem_of_getElem? hj) hd
    exact h.inj i j c d hi hj hr hr' hcounts hcounts' heq

/-- A run keeps tickets for regions that are merged whenever one of them counts. -/
theorem exists_tickets {rs : Finset Region} {s₀ s : Cluster} {es : List Event}
    (hrun : Run (fun s e s' => CapStep u G s e s' ∧ s.Merged u rs e) s₀ es s)
    (hfresh : s₀.checks = []) (hnonneg : ∀ q, (s₀.globals q u.key).Nonneg) :
    CapInv u G s ∧ ∃ ord, Tickets u G rs ord s := by
  refine Run.invariant (I := fun s => CapInv u G s ∧ ∃ ord, Tickets u G rs ord s)
    (fun s e s' h hstep => ?_) hrun ?_
  · obtain ⟨hI, ord, ht⟩ := h
    obtain ⟨⟨hs, he⟩, hm⟩ := hstep
    exact ⟨hI.step (effect hs) he, ht.step hI (effect hs) he hm⟩
  · refine ⟨⟨hnonneg, ?_, ?_, ?_⟩, fun _ => 0, ⟨?_, ?_, ?_, ?_, ?_⟩⟩
    all_goals simp [hfresh]

theorem countP_regions (p : Check → Bool) (l : List Check) :
    l.countP p = (l.countP fun c => p c && c.region = .us) +
      (l.countP fun c => p c && c.region = .eu) + l.countP fun c => p c && c.region = .asia := by
  induction l with
  | nil => rfl
  | cons c l ih =>
    simp only [List.countP_cons, ih]
    cases p c <;> cases c.region <;> simp <;> omega

/-- **The global cap.** However the handlers and sync interleave, a region answers
`allowed=true` at most `G` times in a window and the cluster at most `3 * G` times, and
the cluster at most `G` times where each increment is merged before the next one. -/
theorem cap_bound (u : UserWindow) (G : ℕ) {s₀ s : Cluster} {es : List Event}
    (hrun : Run (CapStep u G) s₀ es s) (hfresh : s₀.checks = [])
    (hnonneg : ∀ q, (s₀.globals q u.key).Nonneg) :
    (∀ r, allowedIn u s r ≤ G) ∧ allowedCount u s ≤ 3 * G ∧
      (Run (MergedStep u G) s₀ es s → allowedCount u s ≤ G) := by
  have hregion : ∀ r, allowedIn u s r ≤ G := by
    intro r
    -- a region has always merged itself
    have hrun' : Run (fun s e s' => CapStep u G s e s' ∧ s.Merged u {r} e) s₀ es s := by
      refine hrun.mono fun s e s' hstep => ⟨hstep, ?_⟩
      cases e with
      | incr i unix out =>
        intro c hi hkey hr p hp q hq
        rw [mem_singleton.mp hp, mem_singleton.mp hq]
      | _ => trivial
    obtain ⟨hI, ord, ht⟩ := exists_tickets hrun' hfresh hnonneg
    simpa [allowedIn] using ht.countP_le hI
  refine ⟨hregion, ?_, fun hmerged => ?_⟩
  · have h1 := hregion .us
    have h2 := hregion .eu
    have h3 := hregion .asia
    have hsum := countP_regions (fun c => u.owns c && c.allowed) s.checks
    unfold allowedIn at h1 h2 h3
    unfold allowedCount
    omega
  · obtain ⟨hI, ord, ht⟩ := exists_tickets hmerged hfresh hnonneg
    have hall : ∀ c : Check, decide (c.region ∈ ({.us, .eu, .asia} : Finset Region)) = true :=
      fun c => by cases c.region <;> decide
    simpa only [allowedCount, hall, Bool.and_true] using ht.countP_le hI

instance (s : Cluster) (e : Event) : Decidable (s.Undisturbed u G e) :=
  match e with
  | .incr i unix out => inferInstanceAs (Decidable (∀ c ∈ s.checks[i]?, c.keyAt unix = u.key →
      c.pol.globalLimit = G ∧ out = .ok ∧
        ((s.globals c.region u.key).incr c.region).isSome = true))
  | .read i _ out => inferInstanceAs (Decidable (∀ c ∈ s.checks[i]?, c.key = u.key →
      out = .ok ∧ (s.globals c.region u.key).Readable))
  | .evict _ key _ => inferInstanceAs (Decidable (key ≠ u.key))
  | .refresh .. | .start .. | .decide .. | .expire .. | .publish .. | .merge .. =>
    inferInstanceAs (Decidable True)

instance (rs : Finset Region) (s : Cluster) (e : Event) : Decidable (s.Merged u rs e) :=
  match e with
  | .incr i unix _ => inferInstanceAs (Decidable (∀ c ∈ s.checks[i]?, c.keyAt unix = u.key →
      c.region ∈ rs →
        ∀ q ∈ rs, ∀ r ∈ rs, (s.globals r u.key).slot r ≤ (s.globals q u.key).slot r))
  | .refresh .. | .start .. | .decide .. | .expire .. | .publish .. | .read .. | .merge ..
  | .evict .. => inferInstanceAs (Decidable True)

end Cap

/-- A request in `us`, its merge by both peers, and a request in `eu`. -/
theorem cap_bound_twoRequests :
    let u : UserWindow := ⟨.free, sampleUser, 1⟩
    let w : SlotWrite := ⟨str "free", str "u_1", 1, .us, ⟨.int 1, by decide⟩⟩
    let es := handling 0 .us .free sampleUser 60 ++ [.merge .eu w 60000, .merge .asia w 60000] ++
      handling 1 .eu .free sampleUser 61
    ∃ s, Run (MergedStep u 10) .init es s ∧ (∀ r, allowedIn u s r ≤ 10) ∧
      allowedCount u s ≤ 3 * 10 ∧ allowedCount u s ≤ 10 ∧ allowedCount u s = 2 := by
  intro u w es
  let P := fun (s : Cluster) e => s.Undisturbed u 10 e ∧ s.Merged u {.us, .eu, .asia} e
  have hcount : (exec (guarded step P) init es).map (allowedCount u) = some 2 := by decide +kernel
  obtain ⟨s, hs, htwo⟩ := Option.map_eq_some_iff.mp hcount
  have hrun : Run (MergedStep u 10) init es s :=
    (run_of_exec_guarded hs).mono fun _ _ _ h => ⟨⟨h.1, h.2.1⟩, h.2.2⟩
  obtain ⟨h1, h2, h3⟩ := cap_bound u 10 (hrun.mono fun _ _ _ h => h.1) rfl fun _ _ => le_refl 0
  exact ⟨s, hrun, h1, h2, h3 hrun, htwo⟩

end Cluster

end Gdrl
