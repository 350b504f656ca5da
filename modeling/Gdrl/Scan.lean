import Gdrl.Reconciler

/-!
# The scan of a window

`scanWindowKeys` is `RegionalCounter.scan_window_keys` : it asks Redis for the keys that
match the window's pattern and splits each into five parts. The pattern takes the keys of
the window and no others (`window_eq_of_glob`). The split loses the keys of a user with a
colon, so the scan inverts the building of keys exactly where there is no such user
(`inverts_iff`).
-/

namespace Gdrl

/-! ## Patterns -/

/-- Text in a pattern takes itself only. -/
theorem eq_append_of_glob {l p s : Str} (hl : l.all (fun c => c ≠ 42) = true)
    (h : glob (l ++ p) s = true) : ∃ t, s = l ++ t ∧ glob p t = true := by
  induction l generalizing s with
  | nil => exact ⟨s, rfl, h⟩
  | cons c l ih =>
    obtain ⟨hc, hl⟩ := Bool.and_eq_true_iff.mp hl
    rw [List.cons_append, glob.eq_def] at h
    dsimp only at h
    rw [if_neg (of_decide_eq_true hc)] at h
    cases s with
    | nil => exact absurd h Bool.false_ne_true
    | cons d s =>
      obtain ⟨hcd, h⟩ := Bool.and_eq_true_iff.mp h
      obtain ⟨t, rfl, ht⟩ := ih hl h
      exact ⟨t, by rw [of_decide_eq_true hcd, List.cons_append], ht⟩

/-- A star takes some text. -/
theorem eq_append_of_glob_star {p s : Str} (h : glob (42 :: p) s = true) :
    ∃ a t, s = a ++ t ∧ glob p t = true := by
  rw [glob.eq_def] at h
  dsimp only at h
  rw [if_pos rfl, List.any_eq_true] at h
  obtain ⟨t, ht, hp⟩ := h
  obtain ⟨a, rfl⟩ := (List.mem_tails _ _).mp ht
  exact ⟨a, t, rfl, hp⟩

/-- The pattern of a window takes keys that end in the window. -/
theorem eq_append_of_glob_scanPattern {w : ℤ} {key : Str} (h : glob (scanPattern w) key = true) :
    ∃ a, key = str "rl:global:" ++ (a ++ 58 :: intText w) := by
  have hprefix : glob (str "rl:global:" ++ 42 :: 58 :: 42 :: 58 :: intText w) key = true := h
  obtain ⟨s, rfl, htier⟩ := eq_append_of_glob rfl hprefix
  obtain ⟨a, s, rfl, hcolon⟩ := eq_append_of_glob_star htier
  have hcolon : glob ([58] ++ 42 :: 58 :: intText w) s = true := hcolon
  obtain ⟨s, rfl, huser⟩ := eq_append_of_glob rfl hcolon
  obtain ⟨b, s, rfl, hwindow⟩ := eq_append_of_glob_star huser
  have hwindow : glob ((58 :: intText w) ++ []) s = true := by rwa [List.append_nil]
  obtain ⟨s, rfl, hend⟩ := eq_append_of_glob (no_star_window w) hwindow
  obtain rfl := List.isEmpty_iff.mp (show s.isEmpty = true from hend)
  exact ⟨a ++ 58 :: b, by simp⟩

/-- So it takes a built key only if the key is of the window. -/
theorem window_eq_of_glob {tier user : Str} {w w' : ℤ}
    (h : glob (scanPattern w) (globalKey tier user w') = true) : w' = w := by
  obtain ⟨a, ha⟩ := eq_append_of_glob_scanPattern h
  exact window_of_globalKey ha

/-! ## The scan -/

/-- `RegionalCounter.scan_window_keys` on the keys that `SCAN` returns : every key of the
Redis, in any order, any of them more than once. -/
def scanWindowKeys (keys : List Str) (w : ℤ) : List (Str × Str) :=
  (keys.filter (glob (scanPattern w))).filterMap scanned

/-- A key of `rl:global` as gateway and sync build it. -/
def Built (key : Str) : Prop :=
  ∃ (t : Tier) (u : UserId) (w : ℤ), key = globalKey t.name u.val w

/-- The scan yields the pairs that have a key for the window, and no others. -/
def Inverts (keys : List Str) (w : ℤ) : Prop :=
  ∀ tier user, (tier, user) ∈ scanWindowKeys keys w ↔
    ∃ (t : Tier) (u : UserId), tier = t.name ∧ user = u.val ∧ globalKey t.name u.val w ∈ keys

theorem mem_scanWindowKeys {keys : List Str} {w : ℤ} {p : Str × Str} :
    p ∈ scanWindowKeys keys w ↔
      ∃ key ∈ keys, glob (scanPattern w) key = true ∧ scanned key = some p := by
  simp only [scanWindowKeys, List.mem_filterMap, List.mem_filter, and_assoc]

/-- **Scan and key.** Where every key of `rl:global` is built, the scan of a window yields
what has a key there exactly if no user with a key there has a colon. -/
theorem inverts_iff {keys : List Str}
    (hbuilt : ∀ key ∈ keys, str "rl:global:" <+: key → Built key) (w : ℤ) :
    Inverts keys w ↔
      ∀ (t : Tier) (u : UserId), globalKey t.name u.val w ∈ keys → 58 ∉ u.val := by
  constructor
  · intro h t u hkey
    obtain ⟨key, -, -, hscan⟩ := mem_scanWindowKeys.mp
      ((h t.name u.val).mpr ⟨t, u, rfl, rfl, hkey⟩)
    exact (colon_notMem_of_scanned hscan).2
  · intro h tier user
    rw [mem_scanWindowKeys]
    constructor
    · rintro ⟨key, hkey, hglob, hscan⟩
      obtain ⟨a, ha⟩ := eq_append_of_glob_scanPattern hglob
      obtain ⟨t, u, w', rfl⟩ := hbuilt key hkey ⟨_, ha.symm⟩
      obtain rfl := window_eq_of_glob hglob
      rw [scanned_globalKey t.colon_notMem_name (h t u hkey)] at hscan
      obtain ⟨rfl, rfl⟩ := Prod.mk.inj (Option.some.inj hscan)
      exact ⟨t, u, rfl, rfl, hkey⟩
    · rintro ⟨t, u, rfl, rfl, hkey⟩
      exact ⟨_, hkey, glob_globalKey _ _ _, scanned_globalKey t.colon_notMem_name (h t u hkey) w⟩

/-- A user with a colon is not yielded. -/
theorem not_inverts : scanWindowKeys [globalKey (str "free") (str "a:b") 7] 7 = [] ∧
    ¬ Inverts [globalKey (str "free") (str "a:b") 7] 7 := by
  have hnil : scanWindowKeys [globalKey (str "free") (str "a:b") 7] 7 = [] := by decide +kernel
  refine ⟨hnil, fun h => ?_⟩
  have hmem := (h (str "free") (str "a:b")).mpr
    ⟨.free, ⟨str "a:b", by decide, by decide⟩, rfl, rfl, List.mem_singleton_self _⟩
  rw [hnil] at hmem
  exact List.not_mem_nil hmem

/-- Keys of two windows and of another kind. -/
theorem inverts_sample : Inverts [globalKey (str "free") (str "u_1") 7,
    globalKey (str "free") (str "u_1") 17, str "policy:us:free"] 7 := by
  have hbuilt : ∀ w, Built (globalKey (str "free") (str "u_1") w) := fun w =>
    ⟨.free, Cluster.sampleUser, w, rfl⟩
  have hpolicy : ∀ k, str "policy:us:free" ≠ str "rl:global:" ++ k := fun k h =>
    absurd (congrArg List.head? h) (by decide : some (112 : CodePoint) ≠ some 114)
  have hplain : ∀ {t : Tier} {u : UserId} {w : ℤ},
      globalKey t.name u.val 7 = globalKey (str "free") (str "u_1") w → 58 ∉ u.val := by
    intro t u w h
    rw [(globalKey_inj t.colon_notMem_name (by decide) h).2.1]
    decide
  refine (inverts_iff (fun key hkey hprefix => ?_) 7).mpr fun t u hkey => ?_
  · rcases List.mem_cons.mp hkey with rfl | hkey
    · exact hbuilt 7
    · rcases List.mem_cons.mp hkey with rfl | hkey
      · exact hbuilt 17
      · obtain ⟨k, hk⟩ := hprefix
        exact absurd (List.mem_singleton.mp hkey ▸ hk.symm) (hpolicy k)
  · rcases List.mem_cons.mp hkey with h | hkey
    · exact hplain h
    · rcases List.mem_cons.mp hkey with h | hkey
      · exact hplain h
      · exact absurd (List.mem_singleton.mp hkey).symm (hpolicy _)

end Gdrl
