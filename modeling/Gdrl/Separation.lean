import Gdrl.Lists
import Gdrl.Remaining
import Gdrl.Users

/-!
# Users do not interfere

A request works on its user's bucket and on its user's slots. Seen from the requests of one
user in one region and tier, a run of the gateways is therefore itself a run : the one that
is left without the requests of all others, and without what happens to keys of others.
`users_do_not_interfere` says that it gives the same answers.
-/

namespace Gdrl

namespace Check

variable (c : Check)

/-- What the keys of a user's windows start with. -/
def windowPrefix : Str := str "rl:global:" ++ (c.tier.name ++ 58 :: (c.userId.val ++ [58]))

/-- The key is one of the user's windows. -/
def owns (key : Str) : Bool :=
  c.windowPrefix.isPrefixOf key && !(key.drop c.windowPrefix.length).contains 58

variable {c}

theorem owns_iff {key : Str} : c.owns key = true ↔ ∃ text, 58 ∉ text ∧
    key = str "rl:global:" ++ (c.tier.name ++ 58 :: (c.userId.val ++ 58 :: text)) := by
  have hsplit : ∀ text, str "rl:global:" ++ (c.tier.name ++ 58 :: (c.userId.val ++ 58 :: text)) =
      c.windowPrefix ++ text := by simp [windowPrefix]
  simp only [owns, Bool.and_eq_true, Bool.not_eq_true', List.contains_eq_mem,
    decide_eq_false_iff_not, hsplit]
  constructor
  · rintro ⟨hstarts, hcolon⟩
    obtain ⟨text, rfl⟩ := List.isPrefixOf_iff_prefix.mp hstarts
    rw [List.drop_left] at hcolon
    exact ⟨text, hcolon, rfl⟩
  · rintro ⟨text, hcolon, rfl⟩
    rw [List.drop_left]
    exact ⟨List.isPrefixOf_iff_prefix.mpr (List.prefix_append _ _), hcolon⟩

theorem owns_windowKey (windowId : ℤ) : c.owns (c.windowKey windowId) = true :=
  owns_iff.mpr ⟨_, colon_notMem_intText windowId, rfl⟩

/-- A request that counts at one of the user's keys is the user's. -/
theorem sameUser_of_owns {d : Check} (hr : d.region = c.region) (h : c.owns d.key = true) :
    c.sameUser d = true := by
  obtain ⟨text, hcolon, hkey⟩ := owns_iff.mp h
  obtain ⟨htier, hrest⟩ := append_colon_inj d.tier.colon_notMem_name c.tier.colon_notMem_name
    (List.append_cancel_left hkey)
  obtain ⟨huser, -⟩ := append_colon_inj_right (colon_notMem_intText _) hcolon hrest
  exact sameUser_iff.mpr ⟨hr, Tier.name_injective htier, Subtype.ext huser⟩

theorem owns_key {d : Check} (h : c.sameUser d = true) : c.owns d.key = true := by
  rw [key_of_sameUser h rfl]
  exact owns_windowKey d.windowId

end Check

namespace Cluster

/-- The requests of one user go by their place among themselves. -/
def placeOf (c : Check) (s : Cluster) (i : ℕ) : Option ℕ :=
  if s.checks[i]?.any c.sameUser then some (place c.sameUser s.checks i) else none

/-- What one user's requests see of an event. -/
def seenBy (c : Check) (s : Cluster) : Event → Option Event
  | .refresh r get => if r = c.region then some (.refresh r get) else none
  | .start r tier userId override =>
    if r = c.region ∧ tier = c.tier ∧ userId = c.userId then some (.start r tier userId override)
    else none
  | .decide i fallback nowMs nonce redisMs out =>
    (s.placeOf c i).map fun j => .decide j fallback nowMs nonce redisMs out
  | .incr i unix out => (s.placeOf c i).map fun j => .incr j unix out
  | .expire i redisMs out => (s.placeOf c i).map fun j => .expire j redisMs out
  | .publish i tsMs out => (s.placeOf c i).map fun j => .publish j tsMs out
  | .read i nowMs out => (s.placeOf c i).map fun j => .read j nowMs out
  | .merge q w redisMs =>
    if q = c.region ∧ c.owns w.key = true then some (.merge q w redisMs) else none
  | .evict q key redisMs =>
    if q = c.region ∧ c.owns key = true then some (.evict q key redisMs) else none

/-- Two states that a user's requests cannot tell apart. The second has no others. -/
structure Alike (c : Check) (s t : Cluster) : Prop where
  store : t.stores c.region = s.stores c.region
  bucket : t.locals c.region c.localKey = s.locals c.region c.localKey
  hashes : ∀ k, c.owns k = true → t.globals c.region k = s.globals c.region k
  checks : t.checks = s.checks.filter c.sameUser

variable {c d : Check} {s s' t : Cluster}

theorem placeOf_of_sameUser {i : ℕ} (hi : s.checks[i]? = some d) (hd : c.sameUser d = true) :
    s.placeOf c i = some (place c.sameUser s.checks i) := by
  rw [placeOf, hi, Option.any_some, if_pos hd]

theorem placeOf_of_not_sameUser {i : ℕ} (hi : s.checks[i]? = some d)
    (hd : c.sameUser d = false) : s.placeOf c i = none := by
  rw [placeOf, hi, Option.any_some, hd, if_neg Bool.false_ne_true]

namespace Alike

/-! ## What others do -/

theorem setCheck_other (h : Alike c s t) {i : ℕ} {d' : Check} (hi : s.checks[i]? = some d)
    (hd : c.sameUser d = false) (hd' : c.sameUser d' = false) : Alike c (s.setCheck i d') t :=
  ⟨h.store, h.bucket, h.hashes, h.checks.trans (filter_set_of_neg hi hd hd').symm⟩

theorem setGlobal_other (h : Alike c s t) {q : Region} {key : Str} (hash : Hash)
    (hkey : q = c.region → c.owns key = false) :
    Alike c (s.setGlobal q ((s.globals q).set key hash)) t := by
  refine ⟨h.store, h.bucket, fun k hk => ?_, h.checks⟩
  rw [h.hashes k hk]
  refine ((writes_of_globals rfl).other c.region k ?_).symm
  rintro ⟨rfl, rfl⟩
  rw [hkey rfl] at hk
  cases hk

theorem not_owns_of_other (hd : c.sameUser d = false) (hr : d.region = c.region) :
    c.owns d.key = false := by
  by_contra howns
  exact absurd (Check.sameUser_of_owns hr (Bool.eq_true_of_not_eq_false howns))
    (Bool.eq_false_iff.mp hd)

theorem runIncr_other (h : Alike c s t) {i : ℕ} (hi : s.checks[i]? = some d)
    (hd : c.sameUser d = false) (unix : ℤ) (out : Outcome) :
    Alike c (s.runIncr i d unix out) t := by
  unfold Cluster.runIncr
  dsimp only
  split
  · refine (h.setGlobal_other _ fun hr => ?_).setCheck_other hi hd (by exact hd)
    exact not_owns_of_other (d := { d with windowId := unix.tdiv 60 }) hd hr
  · exact h.setCheck_other hi hd (by exact hd)

theorem runExpire_other (h : Alike c s t) {i : ℕ} (hi : s.checks[i]? = some d)
    (hd : c.sameUser d = false) (redisMs : ℤ) (out : Outcome) :
    Alike c (s.runExpire i d redisMs out) t := by
  unfold Cluster.runExpire
  dsimp only
  split_ifs
  · exact (h.setGlobal_other _ (not_owns_of_other hd)).setCheck_other hi hd (by exact hd)
  · exact h.setCheck_other hi hd (by exact hd)

/-! ## What the user's own requests do -/

theorem setCheck (h : Alike c s t) {i : ℕ} {d' : Check} (hi : s.checks[i]? = some d)
    (hd : c.sameUser d = true) (hd' : c.sameUser d' = true) :
    Alike c (s.setCheck i d') (t.setCheck (place c.sameUser s.checks i) d') := by
  refine ⟨h.store, h.bucket, h.hashes, ?_⟩
  show t.checks.set _ d' = (s.checks.set i d').filter c.sameUser
  rw [h.checks, filter_set_of_pos hi hd hd']

theorem setGlobal (h : Alike c s t) {q : Region} (hq : q = c.region) (key : Str) (hash : Hash) :
    Alike c (s.setGlobal q ((s.globals q).set key hash))
      (t.setGlobal q ((t.globals q).set key hash)) := by
  subst hq
  refine ⟨h.store, h.bucket, fun k hk => ?_, h.checks⟩
  have hs := @writes_of_globals s _ c.region key hash rfl
  have ht := @writes_of_globals t _ c.region key hash rfl
  by_cases hkey : k = key
  · subst hkey
    exact ht.self.trans hs.self.symm
  · rw [hs.other c.region k fun hqk => hkey hqk.2, ht.other c.region k fun hqk => hkey hqk.2,
      h.hashes k hk]

theorem checkAt (h : Alike c s t) {i : ℕ} {stage : Stage} (hi : s.checkAt i stage = some d)
    (hd : c.sameUser d = true) : t.checkAt (place c.sameUser s.checks i) stage = some d := by
  obtain ⟨hi, hstage⟩ := checkAt_eq_some.mp hi
  exact checkAt_eq_some.mpr ⟨h.checks ▸ getElem?_filter_place hi hd, hstage⟩

/-- A request that has a place is the user's. -/
theorem checkAt_place (h : Alike c s t) {i j : ℕ} {stage : Stage}
    (hd : s.checkAt i stage = some d) (hplace : s.placeOf c i = some j) :
    s.checks[i]? = some d ∧ c.sameUser d = true ∧ t.checkAt j stage = some d ∧
      j = place c.sameUser s.checks i := by
  have hi := (checkAt_eq_some.mp hd).1
  have hsame : c.sameUser d = true := by
    by_contra hne
    rw [placeOf_of_not_sameUser hi (Bool.eq_false_iff.mpr hne)] at hplace
    cases hplace
  rw [placeOf_of_sameUser hi hsame] at hplace
  obtain rfl := Option.some.inj hplace
  exact ⟨hi, hsame, h.checkAt hd hsame, rfl⟩

theorem hash_eq (h : Alike c s t) (hd : c.sameUser d = true) :
    t.globals d.region d.key = s.globals d.region d.key := by
  rw [(Check.sameUser_iff.mp hd).1]
  exact h.hashes _ (Check.owns_key hd)

/-- The limiter finds the same bucket, and so gives the same reply and leaves the same. -/
theorem decide (h : Alike c s t) {i j : ℕ} {fallback : Algorithm} {nowMs redisMs : ℤ} {nonce : ℕ}
    {out : Outcome} (hs : s.step (.decide i fallback nowMs nonce redisMs out) = some s')
    (hj : s.placeOf c i = some j) :
    ∃ t', t.step (.decide j fallback nowMs nonce redisMs out) = some t' ∧ Alike c s' t' := by
  obtain ⟨d, hd, -⟩ := Option.map_eq_some_iff.mp hs
  obtain ⟨hi, hsame, hat, rfl⟩ := h.checkAt_place hd hj
  have ht : t.step (.decide (place c.sameUser s.checks i) fallback nowMs nonce redisMs out) =
      some _ := congrArg (Option.map _) hat
  refine ⟨_, ht, ?_⟩
  have hreg := (Check.sameUser_iff.mp hsame).1
  have hkey : d.localKey = c.localKey := Check.localKey_of_sameUser hsame
  obtain ⟨d', hi', -, hglobals, hchecks, hlocals⟩ := decide_cases hs
  obtain rfl := Option.some.inj (hi.symm.trans hi')
  obtain ⟨d', hi', -, hglobals', hchecks', hlocals'⟩ := decide_cases ht
  obtain rfl := Option.some.inj ((checkAt_eq_some.mp hat).1.symm.trans hi')
  have hbucket : t.locals d.region d.localKey = s.locals d.region d.localKey := by
    rw [hreg, hkey, h.bucket]
  obtain ⟨hreply, hleft⟩ := @Limiter.check_congr (d.pol.selectLimiter fallback) _
    ⟨d.limit, d.pol.burst, nowMs, nonce, redisMs⟩ _ _ hbucket
  refine ⟨?_, ?_, fun k hk => ?_, ?_⟩
  · rw [(step_frame hs).1 (by simp), (step_frame ht).1 (by simp), h.store]
  · rw [hlocals, hlocals', ← hreg, ← hkey]
    split_ifs
    · simpa using hleft
    · exact hbucket
  · rw [hglobals, hglobals', h.hashes k hk]
  · rw [hchecks, hchecks', hreply, h.checks, filter_set_of_pos hi hsame (by exact hsame)]

theorem runIncr (h : Alike c s t) {i : ℕ} (hi : s.checks[i]? = some d) (hd : c.sameUser d = true)
    (unix : ℤ) (out : Outcome) :
    Alike c (s.runIncr i d unix out) (t.runIncr (place c.sameUser s.checks i) d unix out) := by
  have hhash := h.hash_eq (d := { d with windowId := unix.tdiv 60 }) hd
  dsimp only at hhash
  unfold Cluster.runIncr
  dsimp only
  rw [hhash]
  split
  · exact (h.setGlobal (Check.sameUser_iff.mp hd).1 _ _).setCheck hi hd (by exact hd)
  · exact h.setCheck hi hd (by exact hd)

theorem runExpire (h : Alike c s t) {i : ℕ} (hi : s.checks[i]? = some d)
    (hd : c.sameUser d = true) (redisMs : ℤ) (out : Outcome) :
    Alike c (s.runExpire i d redisMs out)
      (t.runExpire (place c.sameUser s.checks i) d redisMs out) := by
  unfold Cluster.runExpire GlobalRedis.exists
  dsimp only
  rw [h.hash_eq hd]
  split_ifs
  · exact (h.setGlobal (Check.sameUser_iff.mp hd).1 _ _).setCheck hi hd (by exact hd)
  · exact h.setCheck hi hd (by exact hd)

theorem runRead (h : Alike c s t) {i : ℕ} (hi : s.checks[i]? = some d) (hd : c.sameUser d = true)
    (nowMs : ℤ) (out : Outcome) :
    Alike c (s.runRead i d nowMs out) (t.runRead (place c.sameUser s.checks i) d nowMs out) := by
  unfold Cluster.runRead
  rw [h.hash_eq hd]
  exact h.setCheck hi hd (by exact hd)

end Alike

theorem setGlobal_self (s : Cluster) (q : Region) : s.setGlobal q (s.globals q) = s := by
  have hglobals : (fun r => if r = q then s.globals q else s.globals r) = s.globals := by
    funext r
    split_ifs with hr
    · rw [hr]
    · rfl
  show { s with globals := fun r => if r = q then s.globals q else s.globals r } = s
  rw [hglobals]

theorem sameUser_false_of_placeOf {i : ℕ} (h : s.placeOf c i = none) (hi : s.checks[i]? = some d) :
    c.sameUser d = false := by
  by_contra hd
  rw [placeOf_of_sameUser hi (Bool.eq_true_of_not_eq_false hd)] at h
  cases h

/-- A user's requests do not see what others do. -/
theorem Alike.skip {e : Event} (h : Alike c s t) (hs : s.step e = some s')
    (he : s.seenBy c e = none) : Alike c s' t := by
  have hother : ∀ {i stage d}, s.checkAt i stage = some d → s.placeOf c i = none →
      s.checks[i]? = some d ∧ c.sameUser d = false := fun hd hplace =>
    ⟨(checkAt_eq_some.mp hd).1, sameUser_false_of_placeOf hplace (checkAt_eq_some.mp hd).1⟩
  cases e with
  | refresh r get =>
    obtain rfl := Option.some.inj hs
    have hr : c.region ≠ r := by
      rintro rfl
      simp [seenBy] at he
    exact ⟨h.store.trans (if_neg hr).symm, h.bucket, h.hashes, h.checks⟩
  | start r tier userId override =>
    obtain rfl := Option.some.inj hs
    refine ⟨h.store, h.bucket, h.hashes, ?_⟩
    rw [h.checks, List.filter_append, List.filter_cons_of_neg, List.filter_nil, List.append_nil]
    rw [Check.sameUser_iff]
    intro hsame
    rw [seenBy, if_pos hsame] at he
    cases he
  | decide i fallback nowMs nonce redisMs out =>
    obtain ⟨d, hi, hstage, hglobals, hchecks, -⟩ := decide_cases hs
    have hd := sameUser_false_of_placeOf (Option.map_eq_none_iff.mp he) hi
    refine ⟨?_, h.bucket.trans (locals_of_decide hs hi hd).symm, ?_, ?_⟩
    · rw [(step_frame hs).1 (by simp), h.store]
    · rw [hglobals]
      exact h.hashes
    · rw [hchecks, filter_set_of_neg hi hd (by exact hd), h.checks]
  | incr i unix out =>
    rw [step] at hs
    split_ifs at hs with hunix
    obtain ⟨d, hd, rfl⟩ := Option.map_eq_some_iff.mp hs
    obtain ⟨hi, hd⟩ := hother hd (Option.map_eq_none_iff.mp he)
    exact h.runIncr_other hi hd unix out
  | expire i redisMs out =>
    obtain ⟨d, hd, rfl⟩ := Option.map_eq_some_iff.mp hs
    obtain ⟨hi, hd⟩ := hother hd (Option.map_eq_none_iff.mp he)
    exact h.runExpire_other hi hd redisMs out
  | publish i tsMs out =>
    rw [step] at hs
    split_ifs at hs with hts
    obtain ⟨d, hd, rfl⟩ := Option.map_eq_some_iff.mp hs
    obtain ⟨hi, hd⟩ := hother hd (Option.map_eq_none_iff.mp he)
    exact h.setCheck_other hi hd (by exact hd)
  | read i nowMs out =>
    obtain ⟨d, hd, rfl⟩ := Option.map_eq_some_iff.mp hs
    obtain ⟨hi, hd⟩ := hother hd (Option.map_eq_none_iff.mp he)
    exact h.setCheck_other hi hd (by exact hd)
  | merge q w redisMs =>
    rw [step] at hs
    split_ifs at hs with hne
    obtain rfl := Option.some.inj hs
    rw [applyRemoteSlot_redis]
    split_ifs
    · refine h.setGlobal_other _ fun hq => Bool.eq_false_iff.mpr fun howns => ?_
      simp [seenBy, hq, howns] at he
    · rwa [setGlobal_self]
  | evict q key redisMs =>
    rw [step] at hs
    split_ifs at hs
    obtain rfl := Option.some.inj hs
    refine h.setGlobal_other _ fun hq => Bool.eq_false_iff.mpr fun howns => ?_
    simp [seenBy, hq, howns] at he

/-- What they see, they do on their own. -/
theorem Alike.keep {e e' : Event} (h : Alike c s t) (hs : s.step e = some s')
    (he : s.seenBy c e = some e') : ∃ t', t.step e' = some t' ∧ Alike c s' t' := by
  cases e with
  | refresh r get =>
    obtain rfl := Option.some.inj hs
    simp only [seenBy, Option.ite_none_right_eq_some] at he
    obtain ⟨rfl, he⟩ := he
    obtain rfl := Option.some.inj he
    refine ⟨_, rfl, ?_, h.bucket, h.hashes, h.checks⟩
    simp [h.store]
  | start r tier userId override =>
    obtain rfl := Option.some.inj hs
    simp only [seenBy, Option.ite_none_right_eq_some] at he
    obtain ⟨hsame, he⟩ := he
    obtain rfl := Option.some.inj he
    refine ⟨_, rfl, h.store, h.bucket, h.hashes, ?_⟩
    have hstore : t.stores r = s.stores r := by rw [hsame.1, h.store]
    dsimp only
    rw [hstore, h.checks, List.filter_append, List.filter_cons_of_pos, List.filter_nil]
    exact Check.sameUser_iff.mpr hsame
  | decide i fallback nowMs nonce redisMs out =>
    obtain ⟨j, hj, rfl⟩ := Option.map_eq_some_iff.mp he
    exact h.decide hs hj
  | incr i unix out =>
    obtain ⟨j, hj, rfl⟩ := Option.map_eq_some_iff.mp he
    rw [step] at hs
    split_ifs at hs with hunix
    obtain ⟨d, hd, rfl⟩ := Option.map_eq_some_iff.mp hs
    obtain ⟨hi, hsame, hat, rfl⟩ := h.checkAt_place hd hj
    refine ⟨_, ?_, h.runIncr hi hsame unix out⟩
    rw [step, if_pos hunix, hat, Option.map_some]
  | expire i redisMs out =>
    obtain ⟨j, hj, rfl⟩ := Option.map_eq_some_iff.mp he
    obtain ⟨d, hd, rfl⟩ := Option.map_eq_some_iff.mp hs
    obtain ⟨hi, hsame, hat, rfl⟩ := h.checkAt_place hd hj
    refine ⟨_, ?_, h.runExpire hi hsame redisMs out⟩
    rw [step, hat, Option.map_some]
  | publish i tsMs out =>
    obtain ⟨j, hj, rfl⟩ := Option.map_eq_some_iff.mp he
    rw [step] at hs
    split_ifs at hs with hts
    obtain ⟨d, hd, rfl⟩ := Option.map_eq_some_iff.mp hs
    obtain ⟨hi, hsame, hat, rfl⟩ := h.checkAt_place hd hj
    refine ⟨t.setCheck (place c.sameUser s.checks i) { d with stage := .published }, ?_, ?_⟩
    · rw [step, if_pos hts, hat, Option.map_some]
    · exact h.setCheck hi hsame (by exact hsame)
  | read i nowMs out =>
    obtain ⟨j, hj, rfl⟩ := Option.map_eq_some_iff.mp he
    obtain ⟨d, hd, rfl⟩ := Option.map_eq_some_iff.mp hs
    obtain ⟨hi, hsame, hat, rfl⟩ := h.checkAt_place hd hj
    refine ⟨_, ?_, h.runRead hi hsame nowMs out⟩
    rw [step, hat, Option.map_some]
  | merge q w redisMs =>
    simp only [seenBy, Option.ite_none_right_eq_some] at he
    obtain ⟨⟨rfl, howns⟩, he⟩ := he
    obtain rfl := Option.some.inj he
    rw [step] at hs
    split_ifs at hs with hne
    obtain rfl := Option.some.inj hs
    refine ⟨_, if_neg hne, ?_⟩
    rw [applyRemoteSlot_redis, applyRemoteSlot_redis, h.hashes _ howns]
    split_ifs
    · exact h.setGlobal rfl _ _
    · rwa [setGlobal_self, setGlobal_self]
  | evict q key redisMs =>
    simp only [seenBy, Option.ite_none_right_eq_some] at he
    obtain ⟨⟨rfl, howns⟩, he⟩ := he
    obtain rfl := Option.some.inj he
    rw [step] at hs
    split_ifs at hs with hgone
    obtain rfl := Option.some.inj hs
    rw [← h.hashes _ howns] at hgone
    exact ⟨_, if_pos hgone, h.setGlobal rfl _ _⟩

theorem Alike.init : Alike c init init := ⟨rfl, rfl, fun _ _ => rfl, rfl⟩

/-- The part of a run that the requests of one user see. -/
def userRun (c : Check) (es : List Event) : List Event := project step (seenBy c) Cluster.init es

/-- **Users do not interfere.** In every run, the requests of one user in one region and
tier go through the same stages to the same answers as in the run that is left without the
requests of other users, tiers and regions and without what sync and expiry do to other keys,
and find the same bucket and the same slots behind it. -/
theorem users_do_not_interfere (c : Check) {es : List Event} {s : Cluster}
    (h : Run (Steps step) Cluster.init es s) :
    ∃ t, Run (Steps step) Cluster.init (userRun c es) t ∧
      t.checks = s.checks.filter c.sameUser ∧
      t.locals c.region c.localKey = s.locals c.region c.localKey ∧
      ∀ windowId, t.globals c.region (c.windowKey windowId) =
        s.globals c.region (c.windowKey windowId) := by
  obtain ⟨t, ht, halike⟩ := run_project (fun _ _ _ _ hR => hR.skip) (fun _ _ _ _ _ hR => hR.keep) h
    (Alike.init : Alike c _ _)
  exact ⟨t, ht, halike.checks, halike.bucket, fun windowId =>
    halike.hashes _ (Check.owns_windowKey windowId)⟩

/-- A request of the sample user, with a neighbour's request around it. -/
def crowdedRun : List Event :=
  let neighbour := handling 0 .us .free ⟨str "u_7", by decide, by decide⟩ 0
  neighbour.take 3 ++ handling 1 .us .free sampleUser 0 ++ neighbour.drop 3

def sampleCheck : Check :=
  ⟨.us, .free, sampleUser, Policy.lookup .free, 10, none, 0, none, .resolved⟩

theorem users_do_not_interfere_sample : ∃ s, Run (Steps step) Cluster.init crowdedRun s ∧
    (s.checks.map Check.allowed, (userRun sampleCheck crowdedRun).length) = ([true, true], 6) ∧
    ∃ t, Run (Steps step) Cluster.init (userRun sampleCheck crowdedRun) t ∧
      t.checks = s.checks.filter sampleCheck.sameUser ∧
      t.locals .us sampleCheck.localKey = s.locals .us sampleCheck.localKey ∧
      ∀ windowId, t.globals .us (sampleCheck.windowKey windowId) =
        s.globals .us (sampleCheck.windowKey windowId) := by
  have hend : (exec step Cluster.init crowdedRun).map (fun s =>
      (s.checks.map Check.allowed, (userRun sampleCheck crowdedRun).length)) =
        some ([true, true], 6) := by decide +kernel
  obtain ⟨s, hs, hend⟩ := Option.map_eq_some_iff.mp hend
  have hrun := run_of_exec hs
  exact ⟨s, hrun, hend, users_do_not_interfere sampleCheck hrun⟩

end Cluster

end Gdrl
