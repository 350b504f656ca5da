import Gdrl.Lookups

/-!
# Cancelled contexts

The GET of a flight runs under the context of the call that leads it. While that context is
live, Redis answers with what it holds. Once it is cancelled the GET may fail, and then all
calls that have joined the flight return that there is no override, whatever Redis holds and
although their own contexts are live (`not_current`). So a call with a live context returns
what Redis holds as long as it does not wake on a flight whose GET has failed
(`current_of_undisturbed`).
-/

namespace Gdrl

/-- The reply to a GET of what is stored. -/
def GetReply.ofStored : Option (List Byte) → GetReply
  | none => .nil
  | some raw => .value raw

/-- What a stored value means to `Lookup`. -/
def storedOverride (v : Option (List Byte)) : ℤ × Bool :=
  let e := CacheEntry.ofReply 0 0 (.ofStored v)
  (e.limit, e.hasValue)

theorem entry_ofStored (ttl : ℤ) {a : Answer} {v : Option (List Byte)} (h : a.reply = .ofStored v) :
    ((a.entry ttl).limit, (a.entry ttl).hasValue) = storedOverride v := by
  rw [Answer.entry, h, storedOverride]
  cases v with
  | none => rfl
  | some raw =>
    dsimp only [GetReply.ofStored, CacheEntry.ofReply]
    split
    · rfl
    · split_ifs <;> rfl

/-- The pair that a call returns or is to return. -/
def LookupStage.result : LookupStage → Option (ℤ × Bool)
  | .fetched _ e => some (e.limit, e.hasValue)
  | .returned limit hasOverride => some (limit, hasOverride)
  | _ => none

namespace Lookups

variable {Stored : ℤ → Str → Option (List Byte) → Prop}

/-- `Stored` is what Redis holds for a user at each time. It answers a GET with that, unless
the context of the GET is cancelled, in which case the GET may fail. -/
def Answers (Stored : ℤ → Str → Option (List Byte) → Prop) (s : Lookups) : Event → Prop
  | .advance i (.fetch now reply) => ∀ c, s.calls[i]? = some c →
      (∃ v, Stored now c.user v ∧ reply = .ofStored v) ∨ c.live = false ∧ reply = .error
  | _ => True

/-- A call with a live context only wakes on a flight whose GET has not failed and had ended
no more than the time to live before the call began. -/
def Undisturbed (s : Lookups) : Event → Prop
  | .advance i .wake => ∀ c, s.calls[i]? = some c → c.live = true → ∀ f, c.stage = .waiting f →
      ∀ g, s.flights[f]? = some g → ∀ a ∈ g.answer, a.reply ≠ .error ∧
        (c.beganAt ≤ a.time ∨ c.beganAt ≤ a.time + s.cache.ttl)
  | _ => True

/-- The pair is what was stored for the user at a moment of the call, or at most the time to
live before it. -/
def Current (Stored : ℤ → Str → Option (List Byte) → Prop) (ttl : ℤ) (c : Lookup)
    (result : ℤ × Bool) : Prop :=
  ∃ t v, Stored t c.user v ∧ (c.beganAt ≤ t ∨ c.beganAt ≤ t + ttl) ∧ t ≤ c.steppedAt ∧
    storedOverride v = result

/-- What a call with a live context has got is current. -/
structure Reads (Stored : ℤ → Str → Option (List Byte) → Prop) (s : Lookups) (c : Lookup) :
    Prop where
  began : c.beganAt ≤ s.clock
  stepped : c.steppedAt ≤ s.clock
  current : c.live = true → ∀ result, c.stage.result = some result →
    Current Stored s.cache.ttl c result

/-- What a GET that has not failed brought, was stored when it ended. -/
def Truthful (Stored : ℤ → Str → Option (List Byte) → Prop) (s : Lookups) : Prop :=
  ∀ g ∈ s.flights, ∀ a ∈ g.answer, a.reply ≠ .error →
    ∃ v, Stored a.time g.user v ∧ a.reply = .ofStored v

section Reads

variable {ttl : ℤ} {s s' : Lookups} {c : Lookup}

theorem Reads.later (h : s.Reads Stored c) (hclock : s.clock ≤ s'.clock)
    (httl : s'.cache.ttl = s.cache.ttl) : s'.Reads Stored c :=
  ⟨h.began.trans hclock, h.stepped.trans hclock, httl ▸ h.current⟩

theorem truthful_step (hf : s.Flying) (h : s.Truthful Stored) {e : Event} (he : Effect s e s')
    (hans : s.Answers Stored e) : s'.Truthful Stored := by
  cases he with
  | start hnow => exact h
  | cancel hc hrun => exact h
  | hit hnow hc hstage hhit => exact h
  | join hnow hc hstage hmiss hin => exact h
  | wake hc hstage hready => exact h
  | lead hnow hc hstage hmiss hin =>
    exact List.forall_mem_append.mpr ⟨h, List.forall_mem_singleton.mpr
      fun a ha => absurd ha (by simp)⟩
  | fetch hnow hc hstage =>
    obtain ⟨g, hg, -, -, hu, -⟩ := hf.flight_of_lead hc (by rw [hstage]; rfl)
    show ∀ g ∈ s.flights.modify _ _, _
    rw [modify_eq_set hg]
    refine forall_mem_set h fun a ha hne => ?_
    obtain rfl := Option.some.inj ha
    rcases hans _ hc with ⟨v, hv, hreply⟩ | ⟨-, herror⟩
    · exact ⟨v, hu ▸ hv, hreply⟩
    · exact absurd herror hne
  | publish hc hstage =>
    obtain ⟨g, hg, -⟩ := hf.flight_of_lead hc (by rw [hstage]; rfl)
    show ∀ g ∈ s.flights.modify _ _, _
    rw [modify_eq_set hg]
    exact forall_mem_set h (h g (List.mem_of_getElem? hg))

/-- What a call finds in the cache is current. -/
theorem current_of_hit (hd : s.Dated) (h : s.Truthful Stored) {now : ℤ} (hnow : s.clock ≤ now)
    {e : CacheEntry} (hhit : s.cache.hit c.user now = some e) (hbegan : c.beganAt ≤ now)
    (hstepped : c.steppedAt = now) (hchecked : c.checkedAt = now) :
    Current Stored s.cache.ttl c (e.limit, e.hasValue) := by
  obtain ⟨g, hg, hu, a, ha, ⟨hlimit, hhas⟩, hne, hle, hlt⟩ := hd.recent hnow hhit hchecked
  obtain ⟨v, hv, hreply⟩ := h g hg a ha hne
  refine ⟨a.time, v, hu ▸ hv, Or.inr ?_, ?_, ?_⟩
  · omega
  · omega
  · rw [← entry_ofStored s.cache.ttl hreply, hlimit, hhas]

/-- A step keeps what call `i` has got current, if its own wake is undisturbed. -/
theorem reads_step {i : ℕ} (hs : Sound ttl s) (ht : s.Truthful Stored)
    (h : ∀ c, s.calls[i]? = some c → s.Reads Stored c) {e : Event} (he : Effect s e s')
    (hans : s.Answers Stored e) (hund : e = .advance i .wake → s.Undisturbed e) :
    ∀ c, s'.calls[i]? = some c → s'.Reads Stored c := by
  have hgrown := grown_of_effect hs.flying he
  have hold : s.clock ≤ s'.clock → ∀ c, s.calls[i]? = some c → s'.Reads Stored c :=
    fun hclock c hc => (h c hc).later hclock hgrown.ttl
  cases he with
  | start hnow =>
    intro c hc
    rcases getElem?_concat_cases hc with hc | ⟨-, rfl⟩
    · exact hold hnow c hc
    refine ⟨le_rfl, le_rfl, fun _ result hres => ?_⟩
    dsimp only [OverrideCache.begin] at hres
    split at hres
    · rename_i e hhit
      obtain rfl := Option.some.inj hres
      exact current_of_hit hs.dated ht hnow hhit le_rfl rfl rfl
    · exact absurd hres (by simp [LookupStage.result])
  | cancel hc hrun =>
    refine forall_getElem?_set (hold le_rfl) fun hi => ?_
    have hcall := h _ (hi ▸ hc)
    exact ⟨hcall.began, hcall.stepped, fun hlive => absurd hlive Bool.false_ne_true⟩
  | hit hnow hc hstage hhit =>
    refine forall_getElem?_set (hold hnow) fun hi => ?_
    have hbegan := (h _ (hi ▸ hc)).began.trans hnow
    refine ⟨hbegan, le_rfl, fun _ result hres => ?_⟩
    obtain rfl := Option.some.inj hres
    exact current_of_hit hs.dated ht hnow (by exact hhit) (by exact hbegan) rfl rfl
  | join hnow hc hstage hmiss hin =>
    refine forall_getElem?_set (hold hnow) fun hi => ?_
    have hbegan := (h _ (hi ▸ hc)).began.trans hnow
    exact ⟨hbegan, le_rfl, fun _ result hres => absurd hres (by simp [LookupStage.result])⟩
  | lead hnow hc hstage hmiss hin =>
    refine forall_getElem?_set (hold hnow) fun hi => ?_
    have hbegan := (h _ (hi ▸ hc)).began.trans hnow
    exact ⟨hbegan, le_rfl, fun _ result hres => absurd hres (by simp [LookupStage.result])⟩
  | fetch hnow hc hstage =>
    refine forall_getElem?_set (hold hnow) fun hi => ?_
    have hbegan := (h _ (hi ▸ hc)).began.trans hnow
    refine ⟨hbegan, le_rfl, fun hlive result hres => ?_⟩
    obtain rfl := Option.some.inj hres
    -- the GET ran under the context of this call
    rcases hans _ hc with ⟨v, hv, hreply⟩ | ⟨hdead, -⟩
    · exact ⟨_, v, hv, Or.inl hbegan, le_rfl,
        (entry_ofStored s.cache.ttl (a := ⟨_, s.count, _⟩) hreply).symm⟩
    · exact absurd (hlive.symm.trans hdead) (by simp)
  | publish hc hstage =>
    refine forall_getElem?_set (hold le_rfl) fun hi => ?_
    have hcall := h _ (hi ▸ hc)
    refine ⟨hcall.began, le_rfl, fun hlive result hres => ?_⟩
    obtain ⟨t, v, hv, hbegan, hle, hval⟩ := hcall.current hlive result (hstage ▸ hres)
    exact ⟨t, v, hv, hbegan, hle.trans hcall.stepped, hval⟩
  | wake hc hstage hready =>
    refine forall_getElem?_set (hold le_rfl) fun hi => ?_
    have hcall := h _ (hi ▸ hc)
    refine ⟨hcall.began, le_rfl, fun hlive result hres => ?_⟩
    obtain rfl := Option.some.inj hres
    obtain ⟨g, hg, hu, -⟩ := (hs.served _ (List.mem_of_getElem? hc)).waiting _ hstage
    rw [hs.flying.shared, List.getElem?_map, hg, Option.map_some] at hready
    obtain ⟨k, hk, hmap⟩ := Option.bind_eq_some_iff.mp (Option.some.inj hready)
    obtain ⟨a, ha, rfl⟩ := Option.map_eq_some_iff.mp hmap
    have hmem := List.mem_of_getElem? hg
    obtain ⟨hne, hbegan⟩ := hund (by rw [hi]) _ hc hlive _ hstage g hg a ha
    obtain ⟨v, hv, hreply⟩ := ht g hmem a ha hne
    exact ⟨a.time, v, hu ▸ hv, hbegan, (hs.dated.answered g hmem a ha).2,
      (entry_ofStored s.cache.ttl hreply).symm⟩

/-- In a run in which Redis answers, what call `i` has got is current if its own wake is
undisturbed, whatever the others do. -/
theorem reads_of_run {t₀ : ℤ} {i : ℕ} {es : List Event}
    (h : Run (fun s e s' => s.step e = some s' ∧ s.Answers Stored e ∧
      (e = .advance i .wake → s.Undisturbed e)) (init ttl t₀) es s) :
    s.cache.ttl = ttl ∧ ∀ c, s.calls[i]? = some c → s.Reads Stored c := by
  have hI : Sound ttl s ∧ s.Truthful Stored ∧ ∀ c, s.calls[i]? = some c → s.Reads Stored c := by
    refine h.invariant (I := fun s => Sound ttl s ∧ s.Truthful Stored ∧
      ∀ c, s.calls[i]? = some c → s.Reads Stored c) ?_ ⟨sound_init ttl t₀,
        by simp [Truthful, init], by simp [init]⟩
    rintro s e s' ⟨hs, ht, hr⟩ ⟨hstep, hans, hund⟩
    have he := effect_of_step hstep
    exact ⟨hs.step he, truthful_step hs.flying ht he hans, reads_step hs ht hr he hans hund⟩
  exact ⟨hI.1.ttl, hI.2.2⟩

/-- **Cancellation.** In a run in which Redis answers, and in which no call with a live context
wakes on a flight whose GET has failed or had ended too long before, every call with a live
context returns an override that Redis held during the call or at most the time to live
before it. -/
theorem current_of_undisturbed {t₀ : ℤ} {es : List Event}
    (h : Run (fun s e s' => s.step e = some s' ∧ s.Answers Stored e ∧ s.Undisturbed e)
      (init ttl t₀) es s) :
    ∀ c ∈ s.calls, c.live = true → ∀ limit hasOverride, c.stage = .returned limit hasOverride →
      Current Stored ttl c (limit, hasOverride) := by
  intro c hc hlive limit has hret
  obtain ⟨i, hi⟩ := List.mem_iff_getElem?.mp hc
  obtain ⟨hsame, hreads⟩ := reads_of_run (i := i) (h.mono fun _ _ _ h =>
    ⟨h.1, h.2.1, fun _ => h.2.2⟩)
  exact hsame ▸ (hreads c hi).current hlive (limit, has) (by rw [hret]; rfl)

end Reads

/-- An override of 7 requests a minute. -/
def sampleRaw : List Byte := utf8Encode (str "\x7b\"limit_per_minute\": 7\x7d")

/-- Redis holds the same all the time. -/
def Always (v₀ : Option (List Byte)) (_ : ℤ) (_ : Str) (v : Option (List Byte)) : Prop := v = v₀

/-- The context of the leader is cancelled before its GET. The call that waits, and whose
context is live, returns that there is no override. -/
theorem not_current : ∃ es s,
    Run (fun s e s' => s.step e = some s' ∧ s.Answers (Always (some sampleRaw)) e)
      (init 5 0) es s ∧
    ∃ c ∈ s.calls, c.live = true ∧ c.stage = .returned 0 false ∧
      ¬ Current (Always (some sampleRaw)) 5 c (0, false) := by
  have hfails : Answers (Always (some sampleRaw)) ⟨0, 5, ⟨5, fun _ => none, fun u =>
      if u = str "u_1" then some 0 else none, [none]⟩,
      [⟨str "u_1", false, 0, 0, 0, 0, .leading 0⟩, ⟨str "u_1", true, 0, 1, 0, 0, .waiting 0⟩],
      [⟨str "u_1", 0, 0, none, none⟩]⟩ (.advance 0 (.fetch 1 .error)) := by
    intro c hc
    obtain rfl := Option.some.inj hc
    exact Or.inr ⟨rfl, rfl⟩
  refine ⟨[.start (str "u_1") 0, .start (str "u_1") 0, .advance 0 (.lock 0), .advance 1 (.lock 0),
    .cancel 0, .advance 0 (.fetch 1 .error), .advance 0 .publish, .advance 1 .wake], _,
    .cons ⟨rfl, trivial⟩ (.cons ⟨rfl, trivial⟩ (.cons ⟨rfl, trivial⟩ (.cons ⟨rfl, trivial⟩
      (.cons ⟨rfl, trivial⟩ (.cons ⟨rfl, hfails⟩ (.cons ⟨rfl, trivial⟩ (.cons ⟨rfl, trivial⟩
        (.nil _)))))))), _, List.mem_of_getElem? (i := 1) rfl, rfl, rfl, ?_⟩
  rintro ⟨t, v, rfl, -, -, hval⟩
  exact absurd hval (by decide +kernel)

/-- The context of the leader is cancelled behind its GET. The call that waits returns what
Redis holds. -/
theorem current_sample : ∃ s, (∃ es, Run (fun s e s' => s.step e = some s' ∧
      s.Answers (Always (some sampleRaw)) e ∧ s.Undisturbed e) (init 5 0) es s) ∧
    ∃ c ∈ s.calls, c.live = true ∧ Current (Always (some sampleRaw)) 5 c (7, true) := by
  have hrun : ∀ v, ∃ es s c, Run (fun s e s' => s.step e = some s' ∧ s.Answers (Always v) e ∧
      s.Undisturbed e) (init 5 0) es s ∧ s.calls[1]? = some c ∧ c.live = true ∧
      c.stage = .returned (storedOverride v).1 (storedOverride v).2 := by
    intro v
    have hentry := entry_ofStored 5 (a := ⟨1, 4, .ofStored v⟩) rfl
    generalize hE : Answer.entry 5 ⟨1, 4, .ofStored v⟩ = E at hentry
    -- the GET, with both calls on its flight
    have hfetch : step ⟨0, 4, ⟨5, fun _ => none, fun u =>
          if u = str "u_1" then some 0 else none, [none]⟩,
        [⟨str "u_1", true, 0, 0, 0, 0, .leading 0⟩, ⟨str "u_1", true, 0, 1, 0, 0, .waiting 0⟩],
        [⟨str "u_1", 0, 0, none, none⟩]⟩ (.advance 0 (.fetch 1 (.ofStored v))) =
        some ⟨1, 5, ⟨5, fun _ => none, fun u => if u = str "u_1" then some 0 else none, [none]⟩,
          [⟨str "u_1", true, 0, 0, 0, 1, .fetched 0 E⟩,
            ⟨str "u_1", true, 0, 1, 0, 0, .waiting 0⟩],
          [⟨str "u_1", 0, 0, some ⟨1, 4, .ofStored v⟩, none⟩]⟩ := by
      rw [← hE]
      rfl
    have hwake : ∀ clock count cache c₀, Undisturbed ⟨clock, count, cache,
        [c₀, ⟨str "u_1", true, 0, 1, 0, 0, .waiting 0⟩],
        [⟨str "u_1", 0, 0, some ⟨1, 4, .ofStored v⟩, some 6⟩]⟩ (.advance 1 .wake) := by
      intro clock count cache c₀ c hc _ f hf g hg a ha
      obtain rfl := Option.some.inj hc
      obtain rfl := LookupStage.waiting.inj hf
      obtain rfl := Option.some.inj hg
      obtain rfl := Option.some.inj ha
      exact ⟨by cases v <;> simp [GetReply.ofStored], Or.inl (by norm_num)⟩
    refine ⟨[.start (str "u_1") 0, .start (str "u_1") 0, .advance 0 (.lock 0),
      .advance 1 (.lock 0), .advance 0 (.fetch 1 (.ofStored v)), .cancel 0,
      .advance 0 .publish, .advance 1 .wake], _, _,
      .cons ⟨rfl, trivial, trivial⟩ (.cons ⟨rfl, trivial, trivial⟩ (.cons ⟨rfl, trivial, trivial⟩
        (.cons ⟨rfl, trivial, trivial⟩ (.cons ⟨hfetch, ?_, trivial⟩ (.cons ⟨rfl, trivial, trivial⟩
          (.cons ⟨rfl, trivial, trivial⟩ (.cons ⟨rfl, trivial, hwake _ _ _ _⟩
            (.nil _)))))))), rfl, rfl, ?_⟩
    · exact fun c hc => Or.inl ⟨v, rfl, rfl⟩
    · rw [← hentry]
  obtain ⟨es, s, c, hrun, hc, hlive, hret⟩ := hrun (some sampleRaw)
  have hval : storedOverride (some sampleRaw) = (7, true) := by decide +kernel
  rw [hval] at hret
  exact ⟨s, ⟨es, hrun⟩, c, List.mem_of_getElem? hc, hlive,
    current_of_undisturbed hrun c (List.mem_of_getElem? hc) hlive 7 true hret⟩

end Lookups

end Gdrl
