import Gdrl.Lists
import Gdrl.OverrideCache
import Gdrl.Run

/-!
# Lookups side by side

`Lookups` runs any number of calls of `Cache.Lookup` on one `OverrideCache`, each step of a
call between two points where others may run. Next to the cache it keeps a record of every
GET (`Flight`), which no step looks at.

A flight is led by one call from the lock to the publishing of its result, and while it is
unpublished it is the flight of its user (`Flying`). So there is one GET at a time for a
user, and each waits for what the one before has left to expire (`Ordered`). What a call
returns is the outcome of a GET (`Served`) : of one that ended less than the time to live
before the call looked, or of one that was not published yet when the call began. In the
second case the GET itself may have ended at any time before (`late_join`).
-/

namespace Gdrl

/-- How a GET ended : when, at which step of the system, and with which reply. -/
structure Answer where
  time : ℤ
  step : ℕ
  reply : GetReply

/-- What `fetch` makes of it. -/
def Answer.entry (ttl : ℤ) (a : Answer) : CacheEntry := .ofReply ttl a.time a.reply

theorem Answer.expiresAt_of_error {ttl : ℤ} {a : Answer} (h : a.reply = .error) :
    (a.entry ttl).expiresAt = a.time := by
  rw [Answer.entry, h]
  rfl

theorem Answer.expiresAt_of_ne {ttl : ℤ} {a : Answer} (h : a.reply ≠ .error) :
    (a.entry ttl).expiresAt = a.time + ttl := by
  unfold Answer.entry CacheEntry.ofReply
  split
  · rfl
  · exact absurd ‹_› h
  · split
    · rfl
    · split_ifs <;> rfl

theorem Answer.time_le_expiresAt {ttl : ℤ} (httl : 0 ≤ ttl) (a : Answer) :
    a.time ≤ (a.entry ttl).expiresAt := by
  by_cases h : a.reply = .error
  · rw [Answer.expiresAt_of_error h]
  · rw [Answer.expiresAt_of_ne h]
    omega

/-- An error leaves an entry that nobody finds. -/
theorem Answer.ne_error_of_lt {ttl now : ℤ} {a : Answer} (ha : a.time ≤ now)
    (h : now < (a.entry ttl).expiresAt) : a.reply ≠ .error ∧ now < a.time + ttl := by
  by_cases herror : a.reply = .error
  · rw [Answer.expiresAt_of_error herror] at h
    omega
  · rw [Answer.expiresAt_of_ne herror] at h
    exact ⟨herror, h⟩

/-- A GET, with the call that makes it, the time at which that call has left the lock, and
the step at which its result is published. -/
structure Flight where
  user : Str
  leader : ℕ
  startedAt : ℤ
  answer : Option Answer
  published : Option ℕ

/-- What the waiting calls read. -/
def Flight.shared (ttl : ℤ) (g : Flight) : Option CacheEntry :=
  g.published.bind fun _ => g.answer.map (Answer.entry ttl)

/-- The stage of the call that leads it, until its result is published. -/
def Flight.stage (ttl : ℤ) (f : ℕ) (g : Flight) : LookupStage :=
  match g.answer with
  | none => .leading f
  | some a => .fetched f (a.entry ttl)

/-- A call of `Lookup`. `live` is whether its context is not cancelled, `checkedAt` the time
at which it has looked for an entry last, and `steppedAt` the time of its last step. -/
structure Lookup where
  user : Str
  live : Bool
  beganAt : ℤ
  beganStep : ℕ
  checkedAt : ℤ
  steppedAt : ℤ
  stage : LookupStage

/-- The flight that a call leads. -/
def LookupStage.flight : LookupStage → Option ℕ
  | .leading f => some f
  | .fetched f _ => some f
  | _ => none

def LookupStage.done : LookupStage → Bool
  | .returned _ _ => true
  | _ => false

/-- The cache and all calls, with the time, the number of steps so far and the flights. -/
structure Lookups where
  clock : ℤ
  count : ℕ
  cache : OverrideCache
  calls : List Lookup
  flights : List Flight

namespace Lookups

inductive Event
  /-- `Lookup` is called and goes through its fast path. -/
  | start (user : Str) (now : ℤ)
  /-- The context of a call is cancelled. -/
  | cancel (i : ℕ)
  /-- A step of a call. A result is published and its channel closed in one step. -/
  | advance (i : ℕ) (e : LookupEvent)

/-- The clock behind a step of a call. -/
def eventTime (clock : ℤ) : LookupEvent → ℤ
  | .lock now => now
  | .fetch now _ => now
  | _ => clock

/-- The flights behind a step of call `i`, which is at `stage` then. -/
def record (s : Lookups) (i : ℕ) (c : Lookup) (stage : LookupStage) : LookupEvent → List Flight
  | .lock now =>
    match stage with
    | .leading _ => s.flights ++ [⟨c.user, i, now, none, none⟩]
    | _ => s.flights
  | .fetch now reply =>
    match c.stage with
    | .leading f =>
      s.flights.modify f fun g => { g with answer := some ⟨now, s.count, reply⟩ }
    | _ => s.flights
  | .publish =>
    match c.stage with
    | .fetched f _ => s.flights.modify f fun g => { g with published := some s.count }
    | _ => s.flights
  | .wake => s.flights

/-- One step, `none` where it cannot be taken or the clock would go back. -/
def step (s : Lookups) : Event → Option Lookups
  | .start user now =>
    if s.clock ≤ now then
      some { s with
        clock := now
        count := s.count + 1
        calls := s.calls ++ [⟨user, true, now, s.count, now, now, s.cache.begin user now⟩] }
    else none
  | .cancel i =>
    (s.calls[i]?).bind fun c =>
      if c.stage.done then none
      else some { s with count := s.count + 1, calls := s.calls.set i { c with live := false } }
  | .advance i e =>
    let now := eventTime s.clock e
    if s.clock ≤ now then
      (s.calls[i]?).bind fun c => (s.cache.advance c.user c.stage e).map fun r =>
        { clock := now
          count := s.count + 1
          cache := r.2
          calls := s.calls.set i { c with
            checkedAt := match e with
              | .lock now => now
              | _ => c.checkedAt
            steppedAt := now
            stage := r.1 }
          flights := s.record i c r.1 e }
    else none

/-- No call yet. -/
def init (ttl t₀ : ℤ) : Lookups := ⟨t₀, 0, .new ttl, [], []⟩

abbrev Reached (ttl : ℤ) (s : Lookups) : Prop := Reachable (∃ t₀, · = init ttl t₀) (Steps step) s

/-! ## What a step does -/

/-- Call `i` moves on at time `now`. -/
def move (s : Lookups) (i : ℕ) (c : Lookup) (now : ℤ) : Lookups :=
  { s with clock := now, count := s.count + 1, calls := s.calls.set i c }

/-- All that a step can do. -/
inductive Effect (s : Lookups) : Event → Lookups → Prop
  | start {user : Str} {now : ℤ} (hnow : s.clock ≤ now) :
    Effect s (.start user now) { s with
      clock := now
      count := s.count + 1
      calls := s.calls ++ [⟨user, true, now, s.count, now, now, s.cache.begin user now⟩] }
  | cancel {i : ℕ} {c : Lookup} (hc : s.calls[i]? = some c) (hrun : c.stage.done = false) :
    Effect s (.cancel i) (s.move i { c with live := false } s.clock)
  | hit {i : ℕ} {c : Lookup} {now : ℤ} {e : CacheEntry} (hnow : s.clock ≤ now)
    (hc : s.calls[i]? = some c) (hstage : c.stage = .missed)
    (hhit : s.cache.hit c.user now = some e) :
    Effect s (.advance i (.lock now)) (s.move i
      { c with checkedAt := now, steppedAt := now, stage := .returned e.limit e.hasValue } now)
  | join {i : ℕ} {c : Lookup} {now : ℤ} {f : ℕ} (hnow : s.clock ≤ now)
    (hc : s.calls[i]? = some c) (hstage : c.stage = .missed)
    (hmiss : s.cache.hit c.user now = none) (hin : s.cache.inflight c.user = some f) :
    Effect s (.advance i (.lock now)) (s.move i
      { c with checkedAt := now, steppedAt := now, stage := .waiting f } now)
  | lead {i : ℕ} {c : Lookup} {now : ℤ} (hnow : s.clock ≤ now)
    (hc : s.calls[i]? = some c) (hstage : c.stage = .missed)
    (hmiss : s.cache.hit c.user now = none) (hin : s.cache.inflight c.user = none) :
    Effect s (.advance i (.lock now)) { s.move i
        { c with
          checkedAt := now, steppedAt := now, stage := .leading s.cache.flights.length } now with
      cache := { s.cache with
        inflight := fun u =>
          if u = c.user then some s.cache.flights.length else s.cache.inflight u
        flights := s.cache.flights ++ [none] }
      flights := s.flights ++ [⟨c.user, i, now, none, none⟩] }
  | fetch {i : ℕ} {c : Lookup} {now : ℤ} {f : ℕ} {reply : GetReply} (hnow : s.clock ≤ now)
    (hc : s.calls[i]? = some c) (hstage : c.stage = .leading f) :
    Effect s (.advance i (.fetch now reply)) { s.move i
        { c with steppedAt := now, stage := .fetched f (.ofReply s.cache.ttl now reply) } now with
      flights := s.flights.modify f fun g => { g with answer := some ⟨now, s.count, reply⟩ } }
  | publish {i : ℕ} {c : Lookup} {f : ℕ} {e : CacheEntry} (hc : s.calls[i]? = some c)
    (hstage : c.stage = .fetched f e) :
    Effect s (.advance i .publish) { s.move i
        { c with steppedAt := s.clock, stage := .returned e.limit e.hasValue } s.clock with
      cache := s.cache.publish c.user f e
      flights := s.flights.modify f fun g => { g with published := some s.count } }
  | wake {i : ℕ} {c : Lookup} {f : ℕ} {e : CacheEntry} (hc : s.calls[i]? = some c)
    (hstage : c.stage = .waiting f) (hready : s.cache.flights[f]? = some (some e)) :
    Effect s (.advance i .wake) (s.move i
      { c with steppedAt := s.clock, stage := .returned e.limit e.hasValue } s.clock)

theorem effect_of_step {s s' : Lookups} {e : Event} (h : s.step e = some s') : Effect s e s' := by
  cases e with
  | start user now =>
    rw [step] at h
    split_ifs at h with hnow
    obtain rfl := Option.some.inj h
    exact .start hnow
  | cancel i =>
    obtain ⟨c, hc, h⟩ := Option.bind_eq_some_iff.mp h
    split_ifs at h with hdone
    obtain rfl := Option.some.inj h
    exact .cancel hc (Bool.eq_false_iff.mpr hdone)
  | advance i e =>
    rw [step] at h
    split_ifs at h with hnow
    obtain ⟨c, hc, h⟩ := Option.bind_eq_some_iff.mp h
    obtain ⟨⟨stage, cache⟩, hadv, rfl⟩ := Option.map_eq_some_iff.mp h
    clear h
    unfold OverrideCache.advance at hadv
    split at hadv
    · rename_i now hstage
      have hadv := Option.some.inj hadv
      unfold OverrideCache.lock at hadv
      split at hadv
      · rename_i e hhit
        obtain ⟨rfl, rfl⟩ := Prod.mk.inj hadv
        exact .hit hnow hc hstage hhit
      · rename_i hmiss
        split at hadv
        · rename_i f hin
          obtain ⟨rfl, rfl⟩ := Prod.mk.inj hadv
          exact .join hnow hc hstage hmiss hin
        · rename_i hin
          obtain ⟨rfl, rfl⟩ := Prod.mk.inj hadv
          exact .lead hnow hc hstage hmiss hin
    · rename_i f now reply hstage
      obtain ⟨rfl, rfl⟩ := Prod.mk.inj (Option.some.inj hadv)
      simp only [record, hstage]
      exact .fetch hnow hc hstage
    · rename_i f e hstage
      obtain ⟨rfl, rfl⟩ := Prod.mk.inj (Option.some.inj hadv)
      simp only [record, hstage]
      exact .publish hc hstage
    · rename_i f hstage
      split at hadv
      · rename_i e hready
        obtain ⟨rfl, rfl⟩ := Prod.mk.inj (Option.some.inj hadv)
        exact .wake hc hstage hready
      · exact absurd hadv (by simp)
    · exact absurd hadv (by simp)

/-! ## Flights and the calls that lead them -/

/-- An unpublished flight is the flight of its user and is led by one call, and what is
published is what the waiting calls read. -/
structure Flying (s : Lookups) : Prop where
  shared : s.cache.flights = s.flights.map (Flight.shared s.cache.ttl)
  inflight : ∀ u f, s.cache.inflight u = some f ↔
    ∃ g, s.flights[f]? = some g ∧ g.user = u ∧ g.published = none
  leads : ∀ f (g : Flight), s.flights[f]? = some g → g.published = none →
    ∃ c, s.calls[g.leader]? = some c ∧ c.user = g.user ∧ c.stage = g.stage s.cache.ttl f
  led : ∀ i (c : Lookup) f, s.calls[i]? = some c → c.stage.flight = some f →
    ∃ g, s.flights[f]? = some g ∧ g.published = none ∧ g.leader = i

theorem flying_init (ttl t₀ : ℤ) : (init ttl t₀).Flying :=
  ⟨rfl, by simp [init, OverrideCache.new], by simp [init], by simp [init]⟩

theorem flight_stage (ttl : ℤ) (f : ℕ) (g : Flight) : (g.stage ttl f).flight = some f := by
  unfold Flight.stage
  split <;> rfl

theorem answer_of_stage {ttl : ℤ} {f f' : ℕ} {g : Flight} {e : CacheEntry}
    (h : g.stage ttl f = .fetched f' e) : ∃ a, g.answer = some a ∧ e = a.entry ttl := by
  unfold Flight.stage at h
  split at h
  · exact absurd h (by simp)
  · rename_i a ha
    exact ⟨a, ha, (LookupStage.fetched.inj h).2.symm⟩

theorem answer_of_leading {ttl : ℤ} {f f' : ℕ} {g : Flight} (h : g.stage ttl f = .leading f') :
    g.answer = none := by
  unfold Flight.stage at h
  split at h
  · assumption
  · exact absurd h (by simp)

section Flying

variable {s : Lookups} {i : ℕ} {c c' : Lookup} {f : ℕ} {g g' : Flight}

/-- The flight that a call leads. -/
theorem Flying.flight_of_lead (h : s.Flying) (hc : s.calls[i]? = some c)
    (hlead : c.stage.flight = some f) : ∃ g, s.flights[f]? = some g ∧ g.published = none ∧
      g.leader = i ∧ c.user = g.user ∧ c.stage = g.stage s.cache.ttl f := by
  obtain ⟨g, hg, hpub, rfl⟩ := h.led i c f hc hlead
  obtain ⟨d, hd, huser, hstage⟩ := h.leads f g hg hpub
  obtain rfl := Option.some.inj (hc.symm.trans hd)
  exact ⟨g, hg, hpub, rfl, huser, hstage⟩

/-- A call leads one flight. -/
theorem Flying.eq_of_leader (h : s.Flying) (hc : s.calls[i]? = some c)
    (hlead : c.stage.flight = some f) {f' : ℕ} (hg' : s.flights[f']? = some g')
    (hpub : g'.published = none) (hleader : g'.leader = i) : f' = f := by
  obtain ⟨d, hd, -, hstage⟩ := h.leads f' g' hg' hpub
  rw [hleader] at hd
  obtain rfl := Option.some.inj (hc.symm.trans hd)
  rw [hstage, flight_stage] at hlead
  exact Option.some.inj hlead

/-- A call that leads no flight moves on without one. -/
theorem Flying.move (h : s.Flying) (hc : s.calls[i]? = some c) (huser : c'.user = c.user)
    (hstage : c'.stage = c.stage ∨ c.stage.flight = none ∧ c'.stage.flight = none) (now : ℤ) :
    (s.move i c' now).Flying where
  shared := h.shared
  inflight := h.inflight
  leads f g hg hpub := by
    obtain ⟨d, hd, hdu, hds⟩ := h.leads f g hg hpub
    by_cases hi : g.leader = i
    · rw [hi] at hd ⊢
      obtain rfl := Option.some.inj (hc.symm.trans hd)
      refine ⟨c', getElem?_set_of_getElem? hc c', huser.trans hdu, ?_⟩
      rcases hstage with hstage | ⟨hnone, -⟩
      · exact hstage.trans hds
      · rw [hds, flight_stage] at hnone
        exact absurd hnone (Option.some_ne_none f)
    · exact ⟨d, (List.getElem?_set_ne (Ne.symm hi)).trans hd, hdu, hds⟩
  led j d f hd hf := by
    rcases getElem?_set_cases hd with ⟨rfl, rfl⟩ | ⟨-, hd⟩
    · rcases hstage with hstage | ⟨-, hnone⟩
      · exact h.led j c f hc (hstage ▸ hf)
      · exact absurd (hnone.symm.trans hf) (Option.some_ne_none f).symm
    · exact h.led j d f hd hf

/-- The call that leads a flight moves on with it. Once the flight is published, it is not
the flight of its user any more. -/
theorem Flying.update (h : s.Flying) (hc : s.calls[i]? = some c)
    (hlead : c.stage.flight = some f) (hg : s.flights[f]? = some g) (huser : g'.user = g.user)
    (hleader : g'.leader = g.leader) (huser' : c'.user = c.user)
    (hstage : g'.published = none ∧ c'.stage = g'.stage s.cache.ttl f ∨
      g'.published ≠ none ∧ c'.stage.flight = none) {cache : OverrideCache}
    (httl : cache.ttl = s.cache.ttl)
    (hshared : cache.flights = s.cache.flights.set f (g'.shared s.cache.ttl))
    (hinflight : ∀ u, cache.inflight u =
      if u = c.user ∧ g'.published ≠ none then none else s.cache.inflight u) (now : ℤ) :
    Flying { s.move i c' now with cache := cache, flights := s.flights.set f g' } := by
  obtain ⟨g₀, hg₀, hpub, hi, hu, -⟩ := h.flight_of_lead hc hlead
  obtain rfl := Option.some.inj (hg.symm.trans hg₀)
  refine ⟨?_, fun u f' => ?_, fun f' g₁ hg₁ hpub₁ => ?_, fun j d f' hd hf => ?_⟩
  · show cache.flights = (s.flights.set f g').map (Flight.shared cache.ttl)
    rw [hshared, httl, h.shared, List.map_set]
  · show cache.inflight u = some f' ↔ ∃ g₁, (s.flights.set f g')[f']? = some g₁ ∧ _
    rw [hinflight]
    constructor
    · intro hin
      split_ifs at hin with hif
      obtain ⟨g₁, hg₁, hu₁, hpub₁⟩ := (h.inflight u f').mp hin
      by_cases hf' : f' = f
      · subst hf'
        obtain rfl := Option.some.inj (hg.symm.trans hg₁)
        refine ⟨g', getElem?_set_of_getElem? hg g', huser.trans hu₁, ?_⟩
        by_contra hne
        exact hif ⟨hu₁.symm.trans hu.symm, hne⟩
      · exact ⟨g₁, (List.getElem?_set_ne (Ne.symm hf')).trans hg₁, hu₁, hpub₁⟩
    · rintro ⟨g₁, hg₁, hu₁, hpub₁⟩
      rcases getElem?_set_cases hg₁ with ⟨rfl, rfl⟩ | ⟨hf', hg₁⟩
      · rw [if_neg fun hif => hif.2 hpub₁]
        exact (h.inflight u f').mpr ⟨g, hg, huser.symm.trans hu₁, hpub⟩
      · have hin := (h.inflight u f').mpr ⟨g₁, hg₁, hu₁, hpub₁⟩
        rw [if_neg]
        · exact hin
        · rintro ⟨rfl, -⟩
          have hown := (h.inflight c.user f).mpr ⟨g, hg, hu.symm, hpub⟩
          exact hf' (Option.some.inj (hin.symm.trans hown))
  · rcases getElem?_set_cases hg₁ with ⟨rfl, rfl⟩ | ⟨hf', hg₁⟩
    · rcases hstage with ⟨-, hstage⟩ | ⟨hne, -⟩
      · refine ⟨c', ?_, huser'.trans (hu.trans huser.symm), httl.symm ▸ hstage⟩
        rw [hleader, hi]
        exact getElem?_set_of_getElem? hc c'
      · exact absurd hpub₁ hne
    · obtain ⟨d, hd, hdu, hds⟩ := h.leads f' g₁ hg₁ hpub₁
      have hne : g₁.leader ≠ i := fun heq => hf' (h.eq_of_leader hc hlead hg₁ hpub₁ heq)
      exact ⟨d, (List.getElem?_set_ne hne.symm).trans hd, hdu, httl.symm ▸ hds⟩
  · rcases getElem?_set_cases hd with ⟨rfl, rfl⟩ | ⟨hj, hd⟩
    · rcases hstage with ⟨hnone, hstage⟩ | ⟨-, hnone⟩
      · rw [hstage, flight_stage] at hf
        obtain rfl := Option.some.inj hf
        exact ⟨g', getElem?_set_of_getElem? hg g', hnone, hleader.trans hi⟩
      · exact absurd (hnone.symm.trans hf) (Option.some_ne_none f').symm
    · obtain ⟨g₁, hg₁, hpub₁, hl₁⟩ := h.led j d f' hd hf
      have hf' : f' ≠ f := by
        rintro rfl
        obtain rfl := Option.some.inj (hg.symm.trans hg₁)
        exact hj (hl₁.symm.trans hi)
      exact ⟨g₁, (List.getElem?_set_ne hf'.symm).trans hg₁, hpub₁, hl₁⟩

/-- A call starts with no flight. -/
theorem Flying.start (h : s.Flying) (hstage : c.stage.flight = none) (now : ℤ) :
    Flying { s with clock := now, count := s.count + 1, calls := s.calls ++ [c] } where
  shared := h.shared
  inflight := h.inflight
  leads f g hg hpub := by
    obtain ⟨d, hd, hds⟩ := h.leads f g hg hpub
    exact ⟨d, getElem?_concat_of_getElem? hd c, hds⟩
  led j d f hd hf := by
    rcases getElem?_concat_cases hd with hd | ⟨-, rfl⟩
    · exact h.led j d f hd hf
    · exact absurd (hstage.symm.trans hf) (Option.some_ne_none f).symm

/-- A call that finds its user without a flight leads a new one. -/
theorem Flying.lead (h : s.Flying) (hc : s.calls[i]? = some c) (hstage : c.stage.flight = none)
    (hin : s.cache.inflight c.user = none) (huser : c'.user = c.user)
    (hstage' : c'.stage = .leading s.cache.flights.length) (now : ℤ) :
    Flying { s.move i c' now with
      cache := { s.cache with
        inflight := fun u =>
          if u = c.user then some s.cache.flights.length else s.cache.inflight u
        flights := s.cache.flights ++ [none] }
      flights := s.flights ++ [⟨c.user, i, now, none, none⟩] } := by
  have hlength : s.cache.flights.length = s.flights.length := by
    rw [h.shared, List.length_map]
  rw [hlength] at hstage' ⊢
  refine ⟨?_, fun u f => ?_, fun f g hg hpub => ?_, fun j d f hd hf => ?_⟩
  · show s.cache.flights ++ [none] = (s.flights ++ [_]).map (Flight.shared s.cache.ttl)
    rw [List.map_append, ← h.shared]
    rfl
  · show (if u = c.user then some s.flights.length else s.cache.inflight u) = some f ↔
      ∃ g, (s.flights ++ [_])[f]? = some g ∧ g.user = u ∧ g.published = none
    split_ifs with hu
    · constructor
      · intro hf
        obtain rfl := Option.some.inj hf
        exact ⟨_, List.getElem?_concat_length, hu.symm, rfl⟩
      · rintro ⟨g, hg, hgu, hpub⟩
        rcases getElem?_concat_cases hg with hg | ⟨rfl, -⟩
        · have := (h.inflight u f).mpr ⟨g, hg, hgu, hpub⟩
          rw [hu, hin] at this
          exact absurd this.symm (Option.some_ne_none f)
        · rfl
    · rw [h.inflight]
      refine exists_congr fun g => and_congr_left fun hgu => ?_
      refine ⟨fun hg => getElem?_concat_of_getElem? hg _,
        fun hg => ?_⟩
      rcases getElem?_concat_cases hg with hg | ⟨-, rfl⟩
      · exact hg
      · exact absurd hgu.1.symm hu
  · rcases getElem?_concat_cases hg with hg | ⟨rfl, rfl⟩
    · obtain ⟨d, hd, hdu, hds⟩ := h.leads f g hg hpub
      refine ⟨d, (List.getElem?_set_ne ?_).trans hd, hdu, hds⟩
      rintro rfl
      obtain rfl := Option.some.inj (hc.symm.trans hd)
      rw [hds, flight_stage] at hstage
      exact absurd hstage (Option.some_ne_none f)
    · exact ⟨c', getElem?_set_of_getElem? hc c', huser, hstage'⟩
  · rcases getElem?_set_cases hd with ⟨rfl, rfl⟩ | ⟨-, hd⟩
    · rw [hstage'] at hf
      obtain rfl := Option.some.inj hf
      exact ⟨_, List.getElem?_concat_length, rfl, rfl⟩
    · obtain ⟨g, hg, hg'⟩ := h.led j d f hd hf
      exact ⟨g, getElem?_concat_of_getElem? hg _, hg'⟩

/-- Every step keeps this. -/
theorem Flying.step (h : s.Flying) {s' : Lookups} {e : Event} (he : Effect s e s') :
    s'.Flying := by
  cases he with
  | start hnow =>
    refine h.start ?_ _
    dsimp only
    unfold OverrideCache.begin
    split <;> rfl
  | cancel hc hrun => exact h.move hc (by rfl) (Or.inl (by rfl)) _
  | hit hnow hc hstage hhit =>
    exact h.move hc (by rfl) (Or.inr ⟨by rw [hstage]; rfl, by rfl⟩) _
  | join hnow hc hstage hmiss hin =>
    exact h.move hc (by rfl) (Or.inr ⟨by rw [hstage]; rfl, by rfl⟩) _
  | lead hnow hc hstage hmiss hin =>
    exact h.lead hc (by rw [hstage]; rfl) hin (by rfl) (by rfl) _
  | fetch hnow hc hstage =>
    obtain ⟨g, hg, hpub, -⟩ := h.flight_of_lead hc (by rw [hstage]; rfl)
    rw [modify_eq_set hg]
    refine h.update hc (by rw [hstage]; rfl) hg (by rfl) (by rfl) (by rfl)
      (Or.inl ⟨by exact hpub, by rfl⟩) (by rfl) ?_ (fun u => ?_) _
    · -- what the waiting calls read is not there yet
      rename_i f _
      have hopen : s.cache.flights[f]? = some none := by
        rw [h.shared, List.getElem?_map, hg, Option.map_some, Flight.shared, hpub]
        rfl
      obtain ⟨hlt, heq⟩ := List.getElem?_eq_some_iff.mp hopen
      rw [Flight.shared]
      dsimp only
      rw [hpub, Option.bind_none, ← heq, List.set_getElem_self]
      rfl
    · rw [if_neg fun hif => hif.2 hpub]
      rfl
  | publish hc hstage =>
    obtain ⟨g, hg, hpub, -, hu, hgs⟩ := h.flight_of_lead hc (by rw [hstage]; rfl)
    rw [modify_eq_set hg]
    refine h.update hc (by rw [hstage]; rfl) hg (by rfl) (by rfl) (by rfl)
      (Or.inr ⟨by exact Option.some_ne_none _, by rfl⟩) (by rfl) ?_ (fun u => ?_) _
    · obtain ⟨a, ha, rfl⟩ := answer_of_stage (hgs.symm.trans hstage)
      rw [Flight.shared]
      dsimp only
      rw [ha]
      rfl
    · show (if u = _ then none else s.cache.inflight u) = _
      simp only [ne_eq, reduceCtorEq, not_false_eq_true, and_true]
  | wake hc hstage hready =>
    exact h.move hc (by rfl) (Or.inr ⟨by rw [hstage]; rfl, by rfl⟩) _

end Flying

/-! ## Times -/

/-- The flights in time, and where the entries of the cache are from. -/
structure Dated (s : Lookups) : Prop where
  started : ∀ g ∈ s.flights, g.startedAt ≤ s.clock
  answered : ∀ g ∈ s.flights, ∀ a ∈ g.answer, g.startedAt ≤ a.time ∧ a.time ≤ s.clock
  published : ∀ g ∈ s.flights, g.published ≠ none → g.answer ≠ none
  entries : ∀ u e, s.cache.entries u = some e →
    ∃ g ∈ s.flights, g.user = u ∧ ∃ a ∈ g.answer, e = a.entry s.cache.ttl

theorem dated_init (ttl t₀ : ℤ) : (init ttl t₀).Dated :=
  ⟨by simp [init], by simp [init], by simp [init], by simp [init, OverrideCache.new]⟩

/-- The flights of a user follow one another : one is published and what it has left in the
cache has expired before the next one starts. -/
structure Ordered (s : Lookups) : Prop where
  order : ∀ (f f' : ℕ) (g g' : Flight), s.flights[f]? = some g → s.flights[f']? = some g' → f < f' →
    g.user = g'.user → g.published ≠ none ∧
      ∀ a ∈ g.answer, (a.entry s.cache.ttl).expiresAt ≤ g'.startedAt
  latest : ∀ g ∈ s.flights, g.published ≠ none → ∃ e, s.cache.entries g.user = some e ∧
    ∀ a ∈ g.answer, (a.entry s.cache.ttl).expiresAt ≤ e.expiresAt

theorem ordered_init (ttl t₀ : ℤ) : (init ttl t₀).Ordered := ⟨by simp [init], by simp [init]⟩

theorem hit_eq_some {cache : OverrideCache} {u : Str} {now : ℤ} {e : CacheEntry}
    (h : cache.hit u now = some e) : cache.entries u = some e ∧ now < e.expiresAt := by
  obtain ⟨he, hlt⟩ := Option.filter_eq_some_iff.mp h
  exact ⟨he, of_decide_eq_true hlt⟩

theorem expired_of_miss {cache : OverrideCache} {u : Str} {now : ℤ} {e : CacheEntry}
    (h : cache.hit u now = none) (he : cache.entries u = some e) : e.expiresAt ≤ now := by
  by_contra hlt
  rw [OverrideCache.hit, he, Option.filter_some, if_pos (by simpa using hlt)] at h
  exact absurd h (Option.some_ne_none e)

section Times

variable {s s' : Lookups}

/-- Time goes on, and flights and cache stay. -/
theorem Dated.later (h : s.Dated) (hnow : s.clock ≤ s'.clock) (hcache : s'.cache = s.cache)
    (hflights : s'.flights = s.flights) : s'.Dated := by
  refine ⟨?_, ?_, ?_, ?_⟩
  · rw [hflights]
    exact fun g hg => (h.started g hg).trans hnow
  · rw [hflights]
    exact fun g hg a ha => ⟨(h.answered g hg a ha).1, (h.answered g hg a ha).2.trans hnow⟩
  · rw [hflights]
    exact h.published
  · rw [hflights, hcache]
    exact h.entries

theorem Dated.step (h : s.Dated) (hf : s.Flying) {e : Event} (he : Effect s e s') : s'.Dated := by
  cases he with
  | start hnow => exact h.later hnow rfl rfl
  | cancel hc hrun => exact h.later le_rfl rfl rfl
  | hit hnow hc hstage hhit => exact h.later hnow rfl rfl
  | join hnow hc hstage hmiss hin => exact h.later hnow rfl rfl
  | wake hc hstage hready => exact h.later le_rfl rfl rfl
  | lead hnow hc hstage hmiss hin =>
    have hall : ∀ {P : Flight → Prop} {g : Flight}, (∀ g ∈ s.flights, P g) → P g →
        ∀ x ∈ s.flights ++ [g], P x := fun hP hg =>
      List.forall_mem_append.mpr ⟨hP, List.forall_mem_singleton.mpr hg⟩
    refine ⟨hall (fun g hg => (h.started g hg).trans hnow) le_rfl, hall (fun g hg a ha => ?_) ?_,
      hall h.published fun hne => absurd rfl hne, fun u e hue => ?_⟩
    · exact ⟨(h.answered g hg a ha).1, (h.answered g hg a ha).2.trans hnow⟩
    · exact fun a ha => absurd ha (by simp)
    · obtain ⟨g, hg, hu⟩ := h.entries u e hue
      exact ⟨g, List.mem_append_left _ hg, hu⟩
  | fetch hnow hc hstage =>
    obtain ⟨g, hg, -, -, -, hgs⟩ := hf.flight_of_lead hc (by rw [hstage]; rfl)
    have hnone : g.answer = none := answer_of_leading (hgs.symm.trans hstage)
    have hmem := List.mem_of_getElem? hg
    rw [modify_eq_set hg]
    refine ⟨forall_mem_set (fun g hg => (h.started g hg).trans hnow)
      ((h.started g hmem).trans hnow), forall_mem_set (fun g hg a ha => ?_) (fun a ha => ?_),
      forall_mem_set h.published fun _ => Option.some_ne_none _, fun u e hue => ?_⟩
    · exact ⟨(h.answered g hg a ha).1, (h.answered g hg a ha).2.trans hnow⟩
    · obtain rfl := Option.some.inj ha
      exact ⟨(h.started g hmem).trans hnow, le_rfl⟩
    · refine exists_mem_set hg ?_ (h.entries u e hue)
      rintro ⟨-, a, ha, -⟩
      exact absurd (hnone.symm.trans ha) (by simp)
  | publish hc hstage =>
    obtain ⟨g, hg, -, -, hu, hgs⟩ := hf.flight_of_lead hc (by rw [hstage]; rfl)
    obtain ⟨a, ha, rfl⟩ := answer_of_stage (hgs.symm.trans hstage)
    have hmem := List.mem_of_getElem? hg
    rw [modify_eq_set hg]
    refine ⟨forall_mem_set h.started (h.started g hmem),
      forall_mem_set h.answered (h.answered g hmem), forall_mem_set h.published fun _ => ?_,
      fun u e hue => ?_⟩
    · rw [ha]
      exact Option.some_ne_none a
    · have hue : (if u = _ then _ else s.cache.entries u) = some e := hue
      split_ifs at hue with heq
      · obtain rfl := Option.some.inj hue
        exact ⟨_, List.mem_of_getElem? (getElem?_set_of_getElem? hg _), hu.symm.trans heq.symm,
          a, ha, rfl⟩
      · exact exists_mem_set hg id (h.entries u e hue)

/-- A flight that gets an answer or is published, and keeps the rest. -/
theorem order_set (h : s.Ordered) {f : ℕ} {g g' : Flight} (hg : s.flights[f]? = some g)
    (hpub : g.published = none) (huser : g'.user = g.user) (hstart : g'.startedAt = g.startedAt)
    {f₁ f₂ : ℕ} {g₁ g₂ : Flight} (h1 : (s.flights.set f g')[f₁]? = some g₁)
    (h2 : (s.flights.set f g')[f₂]? = some g₂) (hlt : f₁ < f₂) (hu : g₁.user = g₂.user) :
    g₁.published ≠ none ∧ ∀ a ∈ g₁.answer, (a.entry s.cache.ttl).expiresAt ≤ g₂.startedAt := by
  rcases getElem?_set_cases h1 with ⟨rfl, rfl⟩ | ⟨-, hold⟩
  · -- no flight of the user starts before this one is published
    rcases getElem?_set_cases h2 with ⟨heq, -⟩ | ⟨-, h2⟩
    · exact absurd heq hlt.ne'
    · exact absurd hpub (h.order _ _ g g₂ hg h2 hlt (huser.symm.trans hu)).1
  · rcases getElem?_set_cases h2 with ⟨rfl, rfl⟩ | ⟨-, h2⟩
    · rw [hstart]
      exact h.order _ _ g₁ g hold hg hlt (hu.trans huser)
    · exact h.order _ _ g₁ g₂ hold h2 hlt hu

theorem Ordered.step (httl : 0 ≤ s.cache.ttl) (hf : s.Flying) (hd : s.Dated) (h : s.Ordered)
    {e : Event} (he : Effect s e s') : s'.Ordered := by
  cases he with
  | start hnow => exact ⟨h.order, h.latest⟩
  | cancel hc hrun => exact ⟨h.order, h.latest⟩
  | hit hnow hc hstage hhit => exact ⟨h.order, h.latest⟩
  | join hnow hc hstage hmiss hin => exact ⟨h.order, h.latest⟩
  | wake hc hstage hready => exact ⟨h.order, h.latest⟩
  | lead hnow hc hstage hmiss hin =>
    refine ⟨fun f f' g g' hg hg' hlt hu => ?_, List.forall_mem_append.mpr ⟨h.latest,
      List.forall_mem_singleton.mpr fun hne => absurd rfl hne⟩⟩
    rcases getElem?_concat_cases hg with hg | ⟨rfl, -⟩
    · rcases getElem?_concat_cases hg' with hg' | ⟨-, rfl⟩
      · exact h.order f f' g g' hg hg' hlt hu
      · -- the flights of the user are published, and the last entry has expired
        have hpub : g.published ≠ none := by
          intro hpub
          have := (hf.inflight _ f).mpr ⟨g, hg, hu, hpub⟩
          rw [hin] at this
          exact absurd this.symm (Option.some_ne_none f)
        obtain ⟨e, he, hle⟩ := h.latest g (List.mem_of_getElem? hg) hpub
        rw [hu] at he
        exact ⟨hpub, fun a ha => (hle a ha).trans (expired_of_miss hmiss he)⟩
    · have hlt' := (List.getElem?_eq_some_iff.mp hg').1
      rw [List.length_append, List.length_singleton] at hlt'
      omega
  | fetch hnow hc hstage =>
    obtain ⟨g, hg, hpub, -⟩ := hf.flight_of_lead hc (by rw [hstage]; rfl)
    rw [modify_eq_set hg]
    refine ⟨fun f f' g₁ g₂ h1 h2 hlt hu => order_set h hg hpub (by rfl) (by rfl) h1 h2 hlt hu,
      forall_mem_set h.latest fun hne => absurd hpub hne⟩
  | publish hc hstage =>
    rename_i i c f e
    obtain ⟨g, hg, hpub, -, hu, hgs⟩ := hf.flight_of_lead hc (by rw [hstage]; rfl)
    obtain ⟨a, ha, rfl⟩ := answer_of_stage (hgs.symm.trans hstage)
    rw [modify_eq_set hg]
    refine ⟨fun f f' g₁ g₂ h1 h2 hlt hu => order_set h hg hpub (by rfl) (by rfl) h1 h2 hlt hu,
      fun g₁ hg₁ hpub₁ => ?_⟩
    obtain ⟨f₁, hf₁⟩ := List.mem_iff_getElem?.mp hg₁
    show ∃ e, (if g₁.user = c.user then _ else s.cache.entries g₁.user) = some e ∧ _
    split_ifs with heq
    · refine ⟨_, rfl, fun a₁ ha₁ => ?_⟩
      rcases getElem?_set_cases hf₁ with ⟨rfl, rfl⟩ | ⟨hne, hf₁⟩
      · obtain rfl := Option.some.inj (ha.symm.trans ha₁)
        exact le_rfl
      · -- an earlier flight, whose entry had expired when this one started
        rcases lt_or_gt_of_ne hne with hlt | hlt
        · have hle := (h.order f₁ f g₁ g hf₁ hg hlt (heq.trans hu)).2 a₁ ha₁
          exact hle.trans (((hd.answered g (List.mem_of_getElem? hg) a ha).1).trans
            (a.time_le_expiresAt httl))
        · exact absurd hpub (h.order f f₁ g g₁ hg hf₁ hlt (heq.trans hu).symm).1
    · rcases getElem?_set_cases hf₁ with ⟨rfl, rfl⟩ | ⟨-, hf₁⟩
      · exact absurd hu.symm heq
      · exact h.latest g₁ (List.mem_of_getElem? hf₁) hpub₁

end Times

/-! ## What a call returns -/

/-- The pair is the outcome of the GET. -/
def Gives (ttl : ℤ) (a : Answer) (limit : ℤ) (hasOverride : Bool) : Prop :=
  (a.entry ttl).limit = limit ∧ (a.entry ttl).hasValue = hasOverride

/-- The GET had ended less than the time to live before the call looked for an entry. -/
def Recent (ttl : ℤ) (c : Lookup) (a : Answer) : Prop :=
  a.time ≤ c.checkedAt ∧ c.checkedAt < a.time + ttl

/-- The GET was outstanding during the call. -/
def Outstanding (c : Lookup) (g : Flight) (a : Answer) : Prop :=
  g.startedAt ≤ c.steppedAt ∧ c.beganStep < a.step

/-- The result of the GET was not published yet during the call. -/
def Unpublished (c : Lookup) (g : Flight) : Prop :=
  g.startedAt ≤ c.steppedAt ∧ ∀ k ∈ g.published, c.beganStep < k

/-- What a call waits for was not published when it began, and what it returns is the outcome
of a GET. -/
structure Served (s : Lookups) (c : Lookup) : Prop where
  began : c.beganStep < s.count
  waiting : ∀ f, c.stage = .waiting f → ∃ g, s.flights[f]? = some g ∧ g.user = c.user ∧
    ∀ k ∈ g.published, c.beganStep < k
  returned : ∀ limit hasOverride, c.stage = .returned limit hasOverride →
    ∃ g ∈ s.flights, g.user = c.user ∧ ∃ a ∈ g.answer, Gives s.cache.ttl a limit hasOverride ∧
      (Recent s.cache.ttl c a ∨ Unpublished c g)

/-- Flights stay and get answers and are published, from step `s.count` on. -/
structure Grown (s s' : Lookups) : Prop where
  count : s.count ≤ s'.count
  ttl : s'.cache.ttl = s.cache.ttl
  flights : ∀ (f : ℕ) (g : Flight), s.flights[f]? = some g → ∃ g' : Flight,
    s'.flights[f]? = some g' ∧ g'.user = g.user ∧ g'.startedAt = g.startedAt ∧
    (∀ a ∈ g.answer, a ∈ g'.answer) ∧
    ∀ k ∈ g'.published, k ∈ g.published ∨ s.count ≤ k

section Served

variable {s s' : Lookups} {c : Lookup}

theorem Unpublished.grow {g g' : Flight} (h : Unpublished c g) (hc : c.beganStep < s.count)
    (hstart : g'.startedAt = g.startedAt)
    (hpub : ∀ k ∈ g'.published, k ∈ g.published ∨ s.count ≤ k) : Unpublished c g' := by
  refine ⟨hstart ▸ h.1, fun k hk => ?_⟩
  rcases hpub k hk with hk | hk
  · exact h.2 k hk
  · exact hc.trans_le hk

theorem Served.grow (h : s.Served c) (hg : Grown s s') : s'.Served c := by
  refine ⟨h.began.trans_le hg.count, fun f hf => ?_, fun limit has hret => ?_⟩
  · obtain ⟨g, hgf, hu, hk⟩ := h.waiting f hf
    obtain ⟨g', hgf', hu', -, -, hpub⟩ := hg.flights f g hgf
    refine ⟨g', hgf', hu'.trans hu, fun k hkg => ?_⟩
    rcases hpub k hkg with hkg | hkg
    · exact hk k hkg
    · exact h.began.trans_le hkg
  · obtain ⟨g, hmem, hu, a, ha, hgives, hsrc⟩ := h.returned limit has hret
    obtain ⟨f, hgf⟩ := List.mem_iff_getElem?.mp hmem
    obtain ⟨g', hgf', hu', hstart, hans, hpub⟩ := hg.flights f g hgf
    refine ⟨g', List.mem_of_getElem? hgf', hu'.trans hu, a, hans a ha, hg.ttl ▸ hgives, ?_⟩
    rw [hg.ttl]
    exact hsrc.imp_right fun hun => hun.grow h.began hstart hpub

theorem grown_of_flights (hcount : s.count ≤ s'.count) (httl : s'.cache.ttl = s.cache.ttl)
    (hflights : s'.flights = s.flights) : Grown s s' :=
  ⟨hcount, httl, fun _ g hg => ⟨g, hflights ▸ hg, rfl, rfl, fun _ h => h, fun _ h => Or.inl h⟩⟩

theorem grown_set {f : ℕ} {g g' : Flight} (hg : s.flights[f]? = some g)
    (hcount : s.count ≤ s'.count) (httl : s'.cache.ttl = s.cache.ttl)
    (hflights : s'.flights = s.flights.set f g') (huser : g'.user = g.user)
    (hstart : g'.startedAt = g.startedAt) (hans : ∀ a ∈ g.answer, a ∈ g'.answer)
    (hpub : ∀ k ∈ g'.published, k ∈ g.published ∨ s.count ≤ k) : Grown s s' := by
  refine ⟨hcount, httl, fun f₁ g₁ hg₁ => ?_⟩
  rw [hflights]
  by_cases hf : f = f₁
  · subst hf
    obtain rfl := Option.some.inj (hg.symm.trans hg₁)
    exact ⟨g', getElem?_set_of_getElem? hg g', huser, hstart, hans, hpub⟩
  · exact ⟨g₁, (List.getElem?_set_ne hf).trans hg₁, rfl, rfl, fun _ h => h, fun _ h => Or.inl h⟩

theorem grown_of_effect (hf : s.Flying) {e : Event} (he : Effect s e s') : Grown s s' := by
  have hcount : s.count ≤ s.count + 1 := Nat.le_succ _
  cases he with
  | start hnow => exact grown_of_flights hcount rfl rfl
  | cancel hc hrun => exact grown_of_flights hcount rfl rfl
  | hit hnow hc hstage hhit => exact grown_of_flights hcount rfl rfl
  | join hnow hc hstage hmiss hin => exact grown_of_flights hcount rfl rfl
  | wake hc hstage hready => exact grown_of_flights hcount rfl rfl
  | lead hnow hc hstage hmiss hin =>
    exact ⟨hcount, rfl, fun f g hg => ⟨g, getElem?_concat_of_getElem? hg _, rfl, rfl,
      fun _ h => h, fun _ h => Or.inl h⟩⟩
  | fetch hnow hc hstage =>
    obtain ⟨g, hg, -, -, -, hgs⟩ := hf.flight_of_lead hc (by rw [hstage]; rfl)
    refine grown_set hg hcount rfl (modify_eq_set hg _) rfl rfl (fun a ha => ?_)
      fun _ h => Or.inl h
    rw [answer_of_leading (hgs.symm.trans hstage)] at ha
    exact absurd ha (by simp)
  | publish hc hstage =>
    obtain ⟨g, hg, -⟩ := hf.flight_of_lead hc (by rw [hstage]; rfl)
    refine grown_set hg hcount rfl (modify_eq_set hg _) rfl rfl (fun _ h => h) fun k hk => ?_
    exact Or.inr (Option.some.inj hk).le

/-- An entry that a call finds is recent. -/
theorem Dated.recent (h : s.Dated) {now : ℤ} (hnow : s.clock ≤ now) {e : CacheEntry}
    (hhit : s.cache.hit c.user now = some e) (hc : c.checkedAt = now) :
    ∃ g ∈ s.flights, g.user = c.user ∧ ∃ a ∈ g.answer,
      Gives s.cache.ttl a e.limit e.hasValue ∧ a.reply ≠ .error ∧ Recent s.cache.ttl c a := by
  obtain ⟨he, hlt⟩ := hit_eq_some hhit
  obtain ⟨g, hg, hu, a, ha, rfl⟩ := h.entries _ e he
  have hle : a.time ≤ now := ((h.answered g hg a ha).2).trans hnow
  obtain ⟨hne, hlt⟩ := Answer.ne_error_of_lt hle hlt
  exact ⟨g, hg, hu, a, ha, ⟨rfl, rfl⟩, hne, hc ▸ hle, hc ▸ hlt⟩

theorem served_of_returned {limit : ℤ} {has : Bool} (hbegan : c.beganStep < s.count)
    (hstage : c.stage = .returned limit has) (h : ∃ g ∈ s.flights, g.user = c.user ∧
      ∃ a ∈ g.answer, Gives s.cache.ttl a limit has ∧
        (Recent s.cache.ttl c a ∨ Unpublished c g)) : s.Served c := by
  refine ⟨hbegan, fun f hf => absurd (hstage.symm.trans hf) (by simp), fun l b hret => ?_⟩
  obtain ⟨rfl, rfl⟩ := LookupStage.returned.inj (hstage.symm.trans hret)
  exact h

theorem served_of_waiting {f : ℕ} (hbegan : c.beganStep < s.count) (hstage : c.stage = .waiting f)
    (h : ∃ g, s.flights[f]? = some g ∧ g.user = c.user ∧ ∀ k ∈ g.published, c.beganStep < k) :
    s.Served c := by
  refine ⟨hbegan, fun f' hf => ?_, fun l b hret => absurd (hstage.symm.trans hret) (by simp)⟩
  obtain rfl := LookupStage.waiting.inj (hstage.symm.trans hf)
  exact h

theorem served_of_other (hbegan : c.beganStep < s.count) (hwait : ∀ f, c.stage ≠ .waiting f)
    (hdone : c.stage.done = false) : s.Served c := by
  refine ⟨hbegan, fun f hf => absurd hf (hwait f), fun l b hret => ?_⟩
  rw [hret] at hdone
  exact absurd hdone (by simp [LookupStage.done])

theorem Served.step (hf : s.Flying) (hd : s.Dated) (h : ∀ c ∈ s.calls, s.Served c) {e : Event}
    (he : Effect s e s') : ∀ c ∈ s'.calls, s'.Served c := by
  have hgrown := grown_of_effect hf he
  have hold : ∀ c ∈ s.calls, s'.Served c := fun c hc => (h c hc).grow hgrown
  have hbegan : ∀ {i : ℕ} {c d : Lookup}, s.calls[i]? = some c → d.beganStep = c.beganStep →
      d.beganStep < s'.count := fun hc hd => hd ▸ (hold _ (List.mem_of_getElem? hc)).began
  cases he with
  | start hnow =>
    refine List.forall_mem_append.mpr ⟨hold, List.forall_mem_singleton.mpr ?_⟩
    rename_i user now
    cases hhit : s.cache.hit user now with
    | none =>
      have hstage : s.cache.begin user now = .missed := by rw [OverrideCache.begin, hhit]
      refine served_of_other (Nat.lt_succ_self s.count) ?_ ?_
      · simp [hstage]
      · exact congrArg LookupStage.done hstage
    | some e =>
      obtain ⟨g, hg, hu, a, ha, hgives, -, hrecent⟩ := hd.recent
        (c := ⟨user, true, now, s.count, now, now, s.cache.begin user now⟩) hnow hhit rfl
      have hstage : s.cache.begin user now = .returned e.limit e.hasValue := by
        rw [OverrideCache.begin, hhit]
      exact served_of_returned (Nat.lt_succ_self s.count) hstage
        ⟨g, hg, hu, a, ha, hgives, Or.inl hrecent⟩
  | cancel hc hrun =>
    have hserved := hold _ (List.mem_of_getElem? hc)
    exact forall_mem_set hold ⟨hserved.began, hserved.waiting, hserved.returned⟩
  | hit hnow hc hstage hhit =>
    rename_i i c now e
    obtain ⟨g, hg, hu, a, ha, hgives, -, hrecent⟩ := hd.recent (c := { c with
      checkedAt := now, steppedAt := now, stage := .returned e.limit e.hasValue }) hnow hhit rfl
    exact forall_mem_set hold (served_of_returned (hbegan hc (by rfl)) rfl
      ⟨g, hg, hu, a, ha, hgives, Or.inl hrecent⟩)
  | join hnow hc hstage hmiss hin =>
    obtain ⟨g, hg, hu, hpub⟩ := (hf.inflight _ _).mp hin
    refine forall_mem_set hold
      (served_of_waiting (hbegan hc (by rfl)) rfl ⟨g, hg, hu, fun k hk => ?_⟩)
    rw [hpub] at hk
    exact absurd hk (by simp)
  | lead hnow hc hstage hmiss hin =>
    exact forall_mem_set hold (served_of_other (hbegan hc (by rfl)) (by simp) rfl)
  | fetch hnow hc hstage =>
    exact forall_mem_set hold (served_of_other (hbegan hc (by rfl)) (by simp) rfl)
  | publish hc hstage =>
    -- the call publishes the flight that it leads
    obtain ⟨g, hg, -, -, hu, hgs⟩ := hf.flight_of_lead hc (by rw [hstage]; rfl)
    obtain ⟨a, ha, rfl⟩ := answer_of_stage (hgs.symm.trans hstage)
    refine forall_mem_set hold (served_of_returned (hbegan hc (by rfl)) rfl ?_)
    refine ⟨_, List.mem_of_getElem? ((congrArg (fun l => l[_]?) (modify_eq_set hg _)).trans
      (getElem?_set_of_getElem? hg _)), hu.symm, a, ha, ⟨rfl, rfl⟩, Or.inr ⟨?_, fun k hk => ?_⟩⟩
    · exact hd.started g (List.mem_of_getElem? hg)
    · obtain rfl := Option.some.inj hk
      exact (h _ (List.mem_of_getElem? hc)).began
  | wake hc hstage hready =>
    -- the flight it has waited for is published, and was not when the call began
    obtain ⟨g, hg, hu, hlater⟩ := (h _ (List.mem_of_getElem? hc)).waiting _ hstage
    rw [hf.shared, List.getElem?_map, hg, Option.map_some] at hready
    obtain ⟨k, hk, hmap⟩ := Option.bind_eq_some_iff.mp (Option.some.inj hready)
    obtain ⟨a, ha, rfl⟩ := Option.map_eq_some_iff.mp hmap
    exact forall_mem_set hold (served_of_returned (hbegan hc (by rfl)) rfl
      ⟨g, List.mem_of_getElem? hg, hu, a, ha, ⟨rfl, rfl⟩,
        Or.inr ⟨hd.started g (List.mem_of_getElem? hg), hlater⟩⟩)

end Served

/-! ## Every run -/

/-- What every step keeps. -/
structure Sound (ttl : ℤ) (s : Lookups) : Prop where
  ttl : s.cache.ttl = ttl
  flying : s.Flying
  dated : s.Dated
  served : ∀ c ∈ s.calls, s.Served c

theorem sound_init (ttl t₀ : ℤ) : Sound ttl (init ttl t₀) :=
  ⟨rfl, flying_init ttl t₀, dated_init ttl t₀, by simp [init]⟩

theorem Sound.step {ttl : ℤ} {s s' : Lookups} (h : Sound ttl s) {e : Event} (he : Effect s e s') :
    Sound ttl s' :=
  ⟨(grown_of_effect h.flying he).ttl.trans h.ttl, h.flying.step he, h.dated.step h.flying he,
    Served.step h.flying h.dated h.served he⟩

theorem sound_of_reached {ttl : ℤ} (httl : 0 ≤ ttl) {s : Lookups} (h : Reached ttl s) :
    Sound ttl s ∧ s.Ordered := by
  refine h.invariant (I := fun s => Sound ttl s ∧ s.Ordered) ?_ fun s e s' hs hstep => ?_
  · rintro s ⟨t₀, rfl⟩
    exact ⟨sound_init ttl t₀, ordered_init ttl t₀⟩
  · have he := effect_of_step hstep
    exact ⟨hs.1.step he, hs.2.step (hs.1.ttl.symm ▸ httl) hs.1.flying hs.1.dated he⟩

section Steps

variable {s : Lookups} {i : ℕ} {c : Lookup} {f : ℕ} {e : CacheEntry}

theorem step_wake (hc : s.calls[i]? = some c) (hstage : c.stage = .waiting f)
    (hready : s.cache.flights[f]? = some (some e)) : s.step (.advance i .wake) =
      some (s.move i
        { c with steppedAt := s.clock, stage := .returned e.limit e.hasValue } s.clock) := by
  simp [step, eventTime, hc, hstage, OverrideCache.advance, hready, record, move]

theorem step_publish (hc : s.calls[i]? = some c) (hstage : c.stage = .fetched f e) :
    s.step (.advance i .publish) = some { s.move i
        { c with steppedAt := s.clock, stage := .returned e.limit e.hasValue } s.clock with
      cache := s.cache.publish c.user f e
      flights := s.flights.modify f fun g => { g with published := some s.count } } := by
  simp [step, eventTime, hc, hstage, OverrideCache.advance, record, move]

end Steps

/-- Call `i` can return the outcome of the GET, at most behind the publishing of the result,
which its leader can do. -/
def Releases (s : Lookups) (i : ℕ) (g : Flight) (a : Answer) : Prop :=
  ∃ es s' d, (es = [.advance i .wake] ∨ es = [.advance g.leader .publish, .advance i .wake]) ∧
    Run (Steps step) s es s' ∧ s'.calls[i]? = some d ∧
    d.stage = .returned (a.entry s.cache.ttl).limit (a.entry s.cache.ttl).hasValue

theorem Flying.releases {s : Lookups} (h : s.Flying) {i f : ℕ} {c : Lookup} {g : Flight}
    {a : Answer} (hc : s.calls[i]? = some c) (hstage : c.stage = .waiting f)
    (hg : s.flights[f]? = some g) (ha : g.answer = some a) : s.Releases i g a := by
  cases hpub : g.published with
  | some k =>
    have hready : s.cache.flights[f]? = some (some (a.entry s.cache.ttl)) := by
      rw [h.shared, List.getElem?_map, hg, Option.map_some, Flight.shared, hpub, ha]
      rfl
    exact ⟨_, _, _, Or.inl rfl, .cons (step_wake hc hstage hready) (.nil _),
      getElem?_set_of_getElem? hc _, rfl⟩
  | none =>
    obtain ⟨d, hd, -, hds⟩ := h.leads f g hg hpub
    rw [Flight.stage, ha] at hds
    have hne : g.leader ≠ i := by
      intro heq
      rw [heq] at hd
      obtain rfl := Option.some.inj (hc.symm.trans hd)
      exact absurd (hstage.symm.trans hds) (by simp)
    have hc' := (List.getElem?_set_ne (a := { d with
      steppedAt := s.clock
      stage := .returned (a.entry s.cache.ttl).limit (a.entry s.cache.ttl).hasValue }) hne).trans hc
    have hlt : f < s.cache.flights.length := by
      rw [h.shared, List.length_map]
      exact (List.getElem?_eq_some_iff.mp hg).1
    exact ⟨_, _, _, Or.inr rfl, .cons (step_publish hd hds)
      (.cons (step_wake hc' hstage (List.getElem?_set_self hlt)) (.nil _)),
      getElem?_set_of_getElem? hc' _, rfl⟩

/-- What callers may rely on. -/
structure SingleFlight (ttl : ℤ) (s : Lookups) : Prop where
  /-- One GET at a time is outstanding for a user. -/
  single : ∀ (i j : ℕ) (c d : Lookup) (f f' : ℕ), s.calls[i]? = some c → s.calls[j]? = some d →
    c.user = d.user → c.stage = .leading f → d.stage = .leading f' → i = j
  /-- The next one starts behind the end of the one before, and no earlier than what that has
  brought expires. -/
  quiet : ∀ (f f' : ℕ) (g g' : Flight), s.flights[f]? = some g → s.flights[f']? = some g' →
    f < f' → g.user = g'.user → ∃ a, g.answer = some a ∧
      (a.reply ≠ .error → (a.entry ttl).expiresAt ≤ g'.startedAt)
  /-- Who waits can return once the GET has ended. -/
  released : ∀ (i f : ℕ) (c : Lookup), s.calls[i]? = some c → c.stage = .waiting f →
    ∃ g, s.flights[f]? = some g ∧ ∀ a ∈ g.answer, s.Releases i g a
  /-- No flight is left over. -/
  empty : (∀ c ∈ s.calls, c.stage.done = true) → ∀ u, s.cache.inflight u = none
  /-- What is returned is the outcome of one GET. -/
  sourced : ∀ c ∈ s.calls, ∀ limit hasOverride, c.stage = .returned limit hasOverride →
    ∃ g ∈ s.flights, g.user = c.user ∧ ∃ a ∈ g.answer, Gives ttl a limit hasOverride ∧
      (Recent ttl c a ∨ Unpublished c g)

/-- **Single flight.** In every state that the lookups reach there is one GET at a time for a
user, the next one waits for the entry to expire, who waits is released, no flight is left
over, and what a call returns is the outcome of a GET that ended less than the time to live
before the call looked, or that was not published yet during the call. -/
theorem single_flight {ttl : ℤ} (httl : 0 < ttl) {s : Lookups} (h : Reached ttl s) :
    SingleFlight ttl s := by
  obtain ⟨hs, hordered⟩ := sound_of_reached httl.le h
  refine ⟨fun i j c d f f' hc hd hu hcs hds => ?_, fun f f' g g' hg hg' hlt hu => ?_,
    fun i f c hc hstage => ?_, fun hdone u => ?_, fun c hc limit has hret => ?_⟩
  · obtain ⟨g, hg, hpub, rfl, hcu, -⟩ := hs.flying.flight_of_lead hc (by rw [hcs]; rfl)
    obtain ⟨g', hg', hpub', rfl, hdu, -⟩ := hs.flying.flight_of_lead hd (by rw [hds]; rfl)
    have hin := (hs.flying.inflight c.user f).mpr ⟨g, hg, hcu.symm, hpub⟩
    have hin' := (hs.flying.inflight c.user f').mpr ⟨g', hg', hdu.symm.trans hu.symm, hpub'⟩
    obtain rfl := Option.some.inj (hin.symm.trans hin')
    rw [Option.some.inj (hg.symm.trans hg')]
  · obtain ⟨hpub, hle⟩ := hordered.order f f' g g' hg hg' hlt hu
    obtain ⟨a, ha⟩ := Option.ne_none_iff_exists'.mp
      (hs.dated.published g (List.mem_of_getElem? hg) hpub)
    exact ⟨a, ha, fun _ => hs.ttl ▸ hle a ha⟩
  · obtain ⟨g, hg, -⟩ := (hs.served c (List.mem_of_getElem? hc)).waiting f hstage
    exact ⟨g, hg, fun a ha => hs.flying.releases hc hstage hg ha⟩
  · rw [Option.eq_none_iff_forall_not_mem]
    intro f hf
    obtain ⟨g, hg, -, hpub⟩ := (hs.flying.inflight u f).mp hf
    obtain ⟨c, hc, -, hstage⟩ := hs.flying.leads f g hg hpub
    have hflight := flight_stage s.cache.ttl f g
    have := hdone c (List.mem_of_getElem? hc)
    rw [← hstage] at hflight
    cases hcs : c.stage <;> rw [hcs] at this hflight <;>
      simp [LookupStage.done, LookupStage.flight] at this hflight
  · exact hs.ttl ▸ (hs.served c hc).returned limit has hret

/-- A GET that finds nothing at 0 is not published until 10, when the time to live of 5 has
passed. A call that begins at 10 joins its flight. -/
def lateJoin : List Event :=
  [.start (str "u_1") 0, .advance 0 (.lock 0), .advance 0 (.fetch 0 .nil), .start (str "u_1") 10,
    .advance 1 (.lock 10), .advance 0 .publish, .advance 1 .wake]

/-- The call returns what the GET found, which was neither recent nor outstanding. -/
theorem late_join : ∃ s, Reached 5 s ∧ ∃ c ∈ s.calls, c.stage = .returned 0 false ∧
    ∀ g ∈ s.flights, ∀ a ∈ g.answer, ¬ Recent 5 c a ∧ ¬ Outstanding c g a := by
  have hrun : (exec step (init 5 0) lateJoin).map (fun s => (s.calls[1]?, s.flights)) =
      some (some ⟨str "u_1", true, 10, 3, 10, 10, .returned 0 false⟩,
        [⟨str "u_1", 0, 0, some ⟨0, 2, .nil⟩, some 5⟩]) := rfl
  obtain ⟨s, hs, hst⟩ := Option.map_eq_some_iff.mp hrun
  obtain ⟨hcall, hflights⟩ := Prod.mk.inj hst
  refine ⟨s, ⟨_, _, ⟨0, rfl⟩, run_of_exec hs⟩, _, List.mem_of_getElem? hcall, rfl, ?_⟩
  rw [hflights]
  simp [Recent, Outstanding]

/-- The same run. -/
theorem single_flight_sample : ∃ s, Reached 5 s ∧ s.calls.length = 2 ∧ SingleFlight 5 s := by
  have hrun : (exec step (init 5 0) lateJoin).map (fun s => s.calls.length) = some 2 := rfl
  obtain ⟨s, hs, hlen⟩ := Option.map_eq_some_iff.mp hrun
  have hreach : Reached 5 s := ⟨_, _, ⟨0, rfl⟩, run_of_exec hs⟩
  exact ⟨s, hreach, hlen, single_flight (by norm_num) hreach⟩

end Lookups

end Gdrl
