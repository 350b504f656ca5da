import Gdrl.Gateway

/-!
# Keys without expiry

`HINCRBY` creates a `rl:global` key and a later `EXPIRE`, under the same request context,
bounds its life; sync's script does both at once. A key that exists without an expiry is
awaited as long as some request has counted under it and not sent its `EXPIRE` yet
(`Kept`). A step breaks this exactly if the last such request fails to (`kept_step_iff`),
and then nothing removes the key.
-/

namespace Gdrl

/-- A key that exists and never expires. -/
def Hash.Lasts (h : Hash) : Prop := (∃ r, (h.slots r).isSome = true) ∧ h.expireAtMs = none

theorem GlobalRedis.exists_iff (m : GlobalRedis) (key : Str) :
    m.exists key = true ↔ ∃ r, ((m key).slots r).isSome = true := by
  simp [GlobalRedis.exists, Region.mem_all]

/-- The request has counted under the key and is about to set its expiry. -/
def Check.Awaits (c : Check) (q : Region) (k : Str) : Prop :=
  c.stage = .counted ∧ c.region = q ∧ c.key = k

instance (c : Check) (q : Region) (k : Str) : Decidable (c.Awaits q k) :=
  inferInstanceAs (Decidable (_ ∧ _))

/-- The response is out. -/
def Check.done (c : Check) : Bool :=
  match c.stage with
  | .answered _ => true
  | _ => false

namespace Cluster

/-- Some request other than `i` is about to set the expiry of a key. -/
def AwaitedBeside (s : Cluster) (i : ℕ) (q : Region) (k : Str) : Prop :=
  ∃ c ∈ s.checks.eraseIdx i, c.Awaits q k

/-- A request fails to set the expiry of a key that has none, and no other request is about
to : its `HINCRBY` took effect and the reply was lost, or its `EXPIRE` had no effect. -/
def Leaks (s : Cluster) : Event → Prop
  | .incr i unix out => out = .lost ∧ ∃ c ∈ s.checkAt i .decided,
      ((s.globals c.region (c.keyAt unix)).incr c.region).isSome = true ∧
      (s.globals c.region (c.keyAt unix)).expireAtMs = none ∧
      ¬ s.AwaitedBeside i c.region (c.keyAt unix)
  | .expire i _ out => out = .failed ∧ ∃ c ∈ s.checkAt i .counted,
      (s.globals c.region).exists c.key = true ∧
      (s.globals c.region c.key).expireAtMs = none ∧ ¬ s.AwaitedBeside i c.region c.key
  | _ => False

/-- Every key that never expires is awaited. -/
def Kept (s : Cluster) : Prop :=
  ∀ q k, (s.globals q k).Lasts → ∃ c ∈ s.checks, c.Awaits q k

/-! ## What a step does to the keys -/

/-- What a step leaves in a key's place. -/
inductive KeyEffect (s : Cluster) (q : Region) (k : Str) : Event → Hash → Prop
  | same {e} (he : ∀ i redisMs out c, e = .expire i redisMs out → s.checkAt i .counted = some c →
      c.Awaits q k → (s.globals q k).Lasts → out = .failed) : KeyEffect s q k e (s.globals q k)
  | incr {i unix out} (c : Check) (n : ℤ) (h : Hash) (hi : s.checkAt i .decided = some c)
    (hq : c.region = q) (hk : c.keyAt unix = k) (hout : out.applied = true)
    (hincr : (s.globals q k).incr q = some (n, h)) : KeyEffect s q k (.incr i unix out) h
  /-- The key has an expiry, or is gone. -/
  | bounded {e} (h : Hash) (hlasts : ¬ h.Lasts) : KeyEffect s q k e h

theorem not_lasts_of_expireAtMs {h : Hash} {ms : ℤ} (he : h.expireAtMs = some ms) :
    ¬ h.Lasts := by
  rintro ⟨-, hnone⟩
  rw [he] at hnone
  exact Option.some_ne_none _ hnone

/-- Every step, seen from one key. -/
theorem keyEffect {s s' : Cluster} {e : Event} (h : s.step e = some s') (q : Region) (k : Str) :
    KeyEffect s q k e (s'.globals q k) := by
  have hhash := hashEffect h q k
  generalize s'.globals q k = hash at hhash
  have hsame : ∀ {e}, e.isExpire = false → KeyEffect s q k e (s.globals q k) := by
    refine fun he => .same fun i redisMs out c heq => ?_
    rw [heq] at he
    exact absurd he.symm Bool.false_ne_true
  cases hhash with
  | same he => exact hsame he
  | incr c n _ hi hq hk hout hincr => exact .incr c n _ hi hq hk hout hincr
  | expire c hi hk => exact .bounded _ (not_lasts_of_expireAtMs rfl)
  | pass c hi hno =>
    rename_i i redisMs out
    refine .same fun j ms out' c' heq hj hawaits hlasts => ?_
    obtain ⟨rfl, -, rfl⟩ := Event.expire.inj heq
    obtain rfl := Option.some.inj (hi.symm.trans hj)
    have hfailed := hno hawaits.2.1 hawaits.2.2
    rw [((s.globals q).exists_iff k).mpr hlasts.1, Bool.and_true] at hfailed
    cases out with
    | failed => rfl
    | ok | lost => exact absurd hfailed.symm Bool.false_ne_true
  | merge hk =>
    unfold maxMerge
    dsimp only
    split_ifs
    · exact .bounded _ (not_lasts_of_expireAtMs rfl)
    · exact hsame rfl
  | evict =>
    refine .bounded _ fun hlasts => ?_
    obtain ⟨r, hr⟩ := hlasts.1
    exact Bool.false_ne_true hr

/-! ## Awaited keys -/

/-- The entries of a list with one replaced. -/
theorem mem_set_iff {α : Type*} {l : List α} {i : ℕ} {a b c : α} (h : l[i]? = some a) :
    c ∈ l.set i b ↔ c = b ∨ c ∈ l.eraseIdx i := by
  obtain ⟨hlt, -⟩ := List.getElem?_eq_some_iff.mp h
  rw [List.mem_iff_getElem?, List.mem_eraseIdx_iff_getElem?]
  constructor
  · rintro ⟨j, hj⟩
    by_cases hij : i = j
    · subst hij
      rw [List.getElem?_set_self hlt] at hj
      exact Or.inl (Option.some.inj hj).symm
    · rw [List.getElem?_set_ne hij] at hj
      exact Or.inr ⟨j, Ne.symm hij, hj⟩
  · rintro (rfl | ⟨j, hji, hj⟩)
    · exact ⟨i, List.getElem?_set_self hlt⟩
    · exact ⟨j, by rw [List.getElem?_set_ne (Ne.symm hji), hj]⟩

/-- A request goes on awaiting the expiry, unless the step is its own. -/
theorem Effect.awaits_cases {s s' : Cluster} {e : Event} (h : Effect s s' e) {q : Region}
    {k : Str} (ha : ∃ c ∈ s.checks, c.Awaits q k) : (∃ c ∈ s'.checks, c.Awaits q k) ∨
      ∃ i redisMs out c, e = .expire i redisMs out ∧ s.checkAt i .counted = some c ∧
        c.Awaits q k ∧ s'.checks = s.checks.set i { c with stage := .kept } := by
  obtain ⟨d, hd, hawaits⟩ := ha
  have hset : ∀ {i : ℕ} {c c' : Check}, s.checks[i]? = some c → c.stage ≠ .counted →
      s'.checks = s.checks.set i c' → ∃ c ∈ s'.checks, c.Awaits q k := by
    intro i c c' hi hstage hc
    obtain ⟨j, hj⟩ := List.mem_iff_getElem?.mp hd
    refine ⟨d, ?_, hawaits⟩
    rw [hc, mem_set_iff hi]
    refine Or.inr (List.mem_eraseIdx_iff_getElem?.mpr ⟨j, ?_, hj⟩)
    rintro rfl
    obtain rfl := Option.some.inj (hi.symm.trans hj)
    exact hstage hawaits.1
  cases h with
  | refresh hc hg => exact Or.inl ⟨d, hc ▸ hd, hawaits⟩
  | start c hslot hwindow hstage hc hg =>
    exact Or.inl ⟨d, hc ▸ List.mem_append_left _ hd, hawaits⟩
  | decide c reply stage hi hstage hnext hc hg =>
    exact Or.inl (hset hi (by rw [hstage]; exact nofun) hc)
  | skip c hunix hi hstage hfail hc hg =>
    exact Or.inl (hset hi (by rw [hstage]; exact nofun) hc)
  | incr c c' n hash stage hunix hi hstage hc' hincr hnext hc hg =>
    exact Or.inl (hset hi (by rw [hstage]; exact nofun) hc)
  | expire c hi hstage hc hg =>
    rename_i i redisMs out
    by_cases hdc : d ∈ s.checks.eraseIdx i
    · exact Or.inl ⟨d, hc ▸ (mem_set_iff hi).mpr (Or.inr hdc), hawaits⟩
    · obtain ⟨j, hj⟩ := List.mem_iff_getElem?.mp hd
      obtain rfl : j = i := by
        by_contra hji
        exact hdc (List.mem_eraseIdx_iff_getElem?.mpr ⟨j, hji, hj⟩)
      obtain rfl := Option.some.inj (hi.symm.trans hj)
      exact Or.inr ⟨j, redisMs, out, c, rfl, checkAt_eq_some.mpr ⟨hi, hstage⟩, hawaits, hc⟩
  | publish c hi hstage hts hc hg => exact Or.inl (hset hi (by rw [hstage]; exact nofun) hc)
  | read c resp hi hstage hresp hc hg => exact Or.inl (hset hi (by rw [hstage]; exact nofun) hc)
  | merge hne hc hg => exact Or.inl ⟨d, hc ▸ hd, hawaits⟩
  | evict hc hg => exact Or.inl ⟨d, hc ▸ hd, hawaits⟩

/-- `HINCRBY` creates the slot and leaves the expiry alone. -/
theorem incr_lasts_iff {h h' : Hash} {r : Region} {n : ℤ} (hi : h.incr r = some (n, h')) :
    h'.Lasts ↔ h.expireAtMs = none := by
  rw [Hash.Lasts, Hash.expireAtMs_of_incr hi]
  exact and_iff_right ⟨r, by rw [(Hash.incr_eq_some hi).2.2.1]; rfl⟩

theorem kept_of_not_leaks {s s' : Cluster} {e : Event} (hk : s.Kept) (h : s.step e = some s')
    (he : ¬ s.Leaks e) : s'.Kept := by
  have heffect := effect h
  intro q k hlasts
  have hkey := keyEffect h q k
  generalize s'.globals q k = hash at hkey hlasts
  cases hkey with
  | bounded _ hnot => exact absurd hlasts hnot
  | same hexpire =>
    rcases heffect.awaits_cases (hk q k hlasts) with hstays | ⟨i, redisMs, out, c, rfl, hi, ha, hc⟩
    · exact hstays
    · -- its own `EXPIRE` fails, so another request awaits the key
      obtain rfl := hexpire i redisMs out c rfl hi ha hlasts
      obtain ⟨hstage, rfl, rfl⟩ := ha
      by_contra hno
      refine he ⟨rfl, c, hi, (GlobalRedis.exists_iff _ _).mpr hlasts.1, hlasts.2, ?_⟩
      rintro ⟨d, hd, hawaits⟩
      exact hno ⟨d, hc ▸ (mem_set_iff (checkAt_eq_some.mp hi).1).mpr (Or.inr hd), hawaits⟩
  | incr c n _ hi hq hkc hout hincr =>
    rename_i i unix out
    subst hq hkc
    obtain ⟨hat, hdecided⟩ := checkAt_eq_some.mp hi
    cases heffect with
    | skip c₁ hunix hi₁ hstage hfail hc hg =>
      obtain rfl := Option.some.inj (hat.symm.trans hi₁)
      rw [hfail hout] at hincr
      exact absurd hincr.symm (Option.some_ne_none _)
    | incr c₁ c' m hash' stage hunix hi₁ hstage hc' hincr' hnext hc hg =>
      obtain rfl := Option.some.inj (hat.symm.trans hi₁)
      rcases hnext with ⟨rfl, rfl⟩ | ⟨rfl, rfl⟩
      · refine ⟨c', hc ▸ (mem_set_iff hi₁).mpr (Or.inl rfl), ?_⟩
        rw [hc']
        exact ⟨rfl, rfl, rfl⟩
      · -- the reply is lost, so another request awaits the key
        by_contra hno
        refine he ⟨rfl, c, hi, by rw [hincr]; rfl, (incr_lasts_iff hincr).mp hlasts, ?_⟩
        rintro ⟨d, hd, hawaits⟩
        exact hno ⟨d, hc ▸ (mem_set_iff hi₁).mpr (Or.inr hd), hawaits⟩

/-- A step that leaks leaves a key that never expires and that no request awaits. -/
theorem not_kept_of_leaks {s s' : Cluster} {e : Event} (h : s.step e = some s')
    (he : s.Leaks e) : ¬ s'.Kept := by
  intro hk
  have heffect := effect h
  cases e with
  | incr i unix out =>
    obtain ⟨rfl, c, hi, hsome, hnone, hno⟩ := he
    obtain ⟨hat, hdecided⟩ := checkAt_eq_some.mp hi
    cases heffect with
    | skip c₁ hunix hi₁ hstage hfail hc hg =>
      obtain rfl := Option.some.inj (hat.symm.trans hi₁)
      rw [hfail rfl] at hsome
      exact Bool.false_ne_true hsome
    | incr c₁ c' m hash' stage hunix hi₁ hstage hc' hincr' hnext hc hg =>
      obtain rfl := Option.some.inj (hat.symm.trans hi₁)
      obtain ⟨d, hd, hawaits⟩ := hk c.region (c.keyAt unix)
        (by rw [hg.self]; exact (incr_lasts_iff hincr').mpr hnone)
      rw [hc, mem_set_iff hi₁] at hd
      rcases hd with rfl | hd
      · rcases hnext with ⟨hok, -⟩ | ⟨-, rfl⟩
        · exact absurd hok nofun
        · rw [hc'] at hawaits
          exact absurd hawaits.1 nofun
      · exact hno ⟨d, hd, hawaits⟩
  | expire i redisMs out =>
    obtain ⟨rfl, c, hi, hexists, hnone, hno⟩ := he
    obtain ⟨c₁, hi₁, rfl⟩ := Option.map_eq_some_iff.mp h
    obtain rfl := Option.some.inj (hi.symm.trans hi₁)
    obtain ⟨d, hd, hawaits⟩ := hk c.region c.key
      ⟨((s.globals c.region).exists_iff c.key).mp hexists, hnone⟩
    have hat := (checkAt_eq_some.mp hi).1
    rcases (mem_set_iff hat).mp hd with rfl | hd
    · exact absurd hawaits.1 nofun
    · exact hno ⟨d, hd, hawaits⟩
  | refresh | start | decide | publish | read | merge | evict => exact he

/-- From a state in which every key that never expires is awaited, exactly the leaks lead
out. -/
theorem kept_step_iff {s s' : Cluster} {e : Event} (hk : s.Kept) (h : s.step e = some s') :
    s'.Kept ↔ ¬ s.Leaks e :=
  ⟨fun hk' he => not_kept_of_leaks h he hk', kept_of_not_leaks hk h⟩

theorem init_kept : init.Kept := by
  rintro q k ⟨⟨r, hr⟩, -⟩
  exact absurd hr Bool.false_ne_true

/-- **No key leaks, as long as.** In a run from the start that never leaks, every existing
key has an expiry whenever no request is underway. -/
theorem exists_expiry {s : Cluster} {es : List Event}
    (h : Run (fun s e s' => s.step e = some s' ∧ ¬ s.Leaks e) init es s)
    (hdone : ∀ c ∈ s.checks, c.done = true) (q : Region) (k : Str)
    (hexists : (s.globals q).exists k = true) : (s.globals q k).expireAtMs.isSome = true := by
  have hkept : s.Kept := h.invariant (I := Kept)
    (fun s e s' hk hstep => (kept_step_iff hk hstep.1).mpr hstep.2) init_kept
  by_contra hnone
  obtain ⟨c, hc, hstage, -⟩ := hkept q k
    ⟨((s.globals q).exists_iff k).mp hexists, Option.not_isSome_iff_eq_none.mp hnone⟩
  have := hdone c hc
  rw [Check.done, hstage] at this
  exact Bool.false_ne_true this

/-- The client goes away behind `HINCRBY`, and the commands of its request that follow fail. -/
def abandonedRequest : List Event :=
  [.start .us .free sampleUser none, .decide 0 .tokenBucket 60000 1 60000 .ok, .incr 0 60 .ok,
    .expire 0 60000 .failed, .publish 0 60000 .failed, .read 0 60000 .failed]

/-- A key of this user, with no request underway and no expiry. -/
theorem key_leaks : ∃ s, Run (Steps step) init abandonedRequest s ∧
    (∀ c ∈ s.checks, c.done = true) ∧ ∃ q k, (s.globals q).exists k = true ∧
      (s.globals q k).expireAtMs = none := by
  obtain ⟨s, hexec, hs⟩ := Option.map_eq_some_iff.mp
    (show (exec step init abandonedRequest).map (fun s => (s.checks.all Check.done,
      (s.globals .us).exists (globalKey (str "free") (str "u_1") 1),
      (s.globals .us (globalKey (str "free") (str "u_1") 1)).expireAtMs)) =
      some (true, true, none) by decide +kernel)
  obtain ⟨hdone, hkey⟩ := Prod.mk.inj hs
  obtain ⟨hexists, hexpire⟩ := Prod.mk.inj hkey
  exact ⟨s, run_of_exec hexec, List.all_eq_true.mp hdone, _, _, hexists, hexpire⟩

instance (s : Cluster) (e : Event) : Decidable (s.Leaks e) :=
  match e with
  | .incr i unix out => inferInstanceAs (Decidable (out = .lost ∧ ∃ c ∈ s.checkAt i .decided,
      ((s.globals c.region (c.keyAt unix)).incr c.region).isSome = true ∧
      (s.globals c.region (c.keyAt unix)).expireAtMs = none ∧
      ¬ ∃ d ∈ s.checks.eraseIdx i, d.Awaits c.region (c.keyAt unix)))
  | .expire i _ out => inferInstanceAs (Decidable (out = .failed ∧ ∃ c ∈ s.checkAt i .counted,
      (s.globals c.region).exists c.key = true ∧ (s.globals c.region c.key).expireAtMs = none ∧
      ¬ ∃ d ∈ s.checks.eraseIdx i, d.Awaits c.region c.key))
  | .refresh .. | .start .. | .decide .. | .publish .. | .read .. | .merge .. | .evict .. =>
    inferInstanceAs (Decidable False)

/-- Two requests that count under one key. The first sets its expiry, the second fails to. -/
def sharedKey : List Event :=
  [.start .us .free sampleUser none, .start .us .free sampleUser none,
    .decide 0 .tokenBucket 60000 1 60000 .ok, .decide 1 .tokenBucket 60000 2 60000 .ok,
    .incr 0 60 .ok, .incr 1 60 .ok, .expire 0 60000 .ok, .expire 1 60000 .failed,
    .publish 0 60000 .ok, .publish 1 60000 .failed, .read 0 60000 .ok, .read 1 60000 .failed]

theorem exists_expiry_sample : ∃ s, Run (Steps step) init sharedKey s ∧
    (s.globals .us).exists (globalKey (str "free") (str "u_1") 1) = true ∧
    (s.globals .us (globalKey (str "free") (str "u_1") 1)).expireAtMs.isSome = true := by
  obtain ⟨s, hexec, hs⟩ := Option.map_eq_some_iff.mp
    (show (exec (guarded step fun s e => ¬ s.Leaks e) init sharedKey).map (fun s =>
      (s.checks.all Check.done, (s.globals .us).exists (globalKey (str "free") (str "u_1") 1))) =
      some (true, true) by decide +kernel)
  obtain ⟨hdone, hexists⟩ := Prod.mk.inj hs
  have hrun := run_of_exec_guarded hexec
  exact ⟨s, hrun.mono fun _ _ _ h => h.1, hexists,
    exists_expiry hrun (List.all_eq_true.mp hdone) .us _ hexists⟩

end Cluster

end Gdrl
