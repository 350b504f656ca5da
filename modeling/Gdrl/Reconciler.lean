import Gdrl.Counted
import Mathlib.Data.List.Infix

/-!
# The reconciler

`Reconciler.reconcile_once` walks the keys of one window, reads its own region's slot at
each, and publishes the slots in chunks. `Pass` is such a walk between two of its Redis
commands : `scan` takes in one key that `SCAN` has returned, and a chunk is published when
it is `full` and at the end.

A pass that starts from an empty chunk only ever holds slots that read back
(`Pass.Plain`), and it takes in every key of a user without a colon (`scan_globalKey`).
-/

namespace Gdrl

/-! ## Keys of a window -/

/-- A Redis pattern of characters and stars. -/
def glob : Str → Str → Bool
  | [], s => s.isEmpty
  | c :: p, s =>
    if c = 42 then s.tails.any (glob p)
    else match s with
      | [] => false
      | d :: t => c = d && glob p t

/-- The pattern of `scan_window_keys`. -/
def scanPattern (window : ℤ) : Str := str "rl:global:*:*:" ++ intText window

/-- Tier and user of a key that `SCAN` returns, `none` where it has not five parts. -/
def scanned (key : Str) : Option (Str × Str) :=
  match key.splitOn 58 with
  | [_, _, tier, user, _] => some (tier, user)
  | _ => none

/-- Text without a star takes itself. -/
theorem glob_append {l : Str} (hl : l.all (fun c => c ≠ 42) = true) (p s : Str) :
    glob (l ++ p) (l ++ s) = glob p s := by
  induction l with
  | nil => rfl
  | cons c l ih =>
    obtain ⟨hc, hl⟩ := Bool.and_eq_true_iff.mp hl
    rw [List.cons_append, List.cons_append, ← ih hl]
    simp [glob, of_decide_eq_true hc]

/-- A star takes any text. -/
theorem glob_star {p t : Str} (h : glob p t = true) (s : Str) : glob (42 :: p) (s ++ t) = true := by
  rw [glob.eq_def]
  dsimp only
  rw [if_pos rfl, List.any_eq_true]
  exact ⟨t, (List.mem_tails _ _).mpr (List.suffix_append s t), h⟩

/-- The end of a key of a window has no star. -/
theorem no_star_window (w : ℤ) : (58 :: intText w).all (fun c => c ≠ 42) = true := by
  refine List.all_eq_true.mpr fun c hc => decide_eq_true ?_
  rintro rfl
  rcases List.mem_cons.mp hc with h | h
  · exact absurd h (by decide)
  · rcases isDigit_of_mem_intText h with h | h <;> exact absurd h (by decide)

/-- The pattern of a window takes the window's keys. -/
theorem glob_globalKey (tier user : Str) (w : ℤ) :
    glob (scanPattern w) (globalKey tier user w) = true := by
  have hwindow : glob (58 :: intText w) (58 :: intText w) = true := by
    have h := glob_append (no_star_window w) [] []
    rwa [List.append_nil] at h
  have huser : glob (58 :: 42 :: 58 :: intText w) (58 :: (user ++ 58 :: intText w)) = true :=
    (@glob_append [58] rfl _ _).trans (glob_star hwindow user)
  exact (@glob_append (str "rl:global:") rfl _ _).trans (glob_star huser tier)

/-- A key of names without colons splits back into them. -/
theorem scanned_globalKey {tier user : Str} (ht : 58 ∉ tier) (hu : 58 ∉ user) (w : ℤ) :
    scanned (globalKey tier user w) = some (tier, user) := by
  have hsplit : (globalKey tier user w).splitOn 58 =
      [str "rl", str "global", tier, user, intText w] := by
    show (str "rl" ++ 58 :: (str "global" ++ 58 :: (tier ++ 58 ::
      (user ++ 58 :: intText w)))).splitOn 58 = _
    rw [List.splitOn_append_cons_self_of_not_mem (by decide),
      List.splitOn_append_cons_self_of_not_mem (by decide),
      List.splitOn_append_cons_self_of_not_mem ht, List.splitOn_append_cons_self_of_not_mem hu,
      List.splitOn_eq_singleton (colon_notMem_intText w)]
  rw [scanned, hsplit]

/-- What comes out of a split is made of the text's characters, without the separator. -/
theorem mem_of_mem_splitOn {c : CodePoint} {s p : Str} (h : p ∈ s.splitOn c) {x : CodePoint}
    (hx : x ∈ p) : x ∈ s ∧ x ≠ c := by
  induction s generalizing p with
  | nil =>
    rw [List.splitOn_nil, List.mem_singleton] at h
    rw [h] at hx
    exact absurd hx List.not_mem_nil
  | cons d s ih =>
    rw [List.splitOn_cons_eq_if_modifyHead] at h
    split_ifs at h with hd
    · rcases List.mem_cons.mp h with rfl | h
      · exact absurd hx List.not_mem_nil
      · exact (ih h hx).imp_left (List.mem_cons_of_mem d)
    · cases hs : s.splitOn c with
      | nil => exact absurd hs (List.splitOn_ne_nil c s)
      | cons q qs =>
        rw [hs] at h ih
        rcases List.mem_cons.mp h with rfl | h
        · rcases List.mem_cons.mp hx with rfl | hx
          · exact ⟨List.mem_cons_self, by simpa using hd⟩
          · exact (ih List.mem_cons_self hx).imp_left (List.mem_cons_of_mem d)
        · exact (ih (List.mem_cons_of_mem q h) hx).imp_left (List.mem_cons_of_mem d)

/-- Tier and user are parts of the key. -/
theorem mem_splitOn_of_scanned {key : Str} {p : Str × Str} (h : scanned key = some p) :
    p.1 ∈ key.splitOn 58 ∧ p.2 ∈ key.splitOn 58 := by
  unfold scanned at h
  split at h
  · rename_i a b tier user c hs
    obtain rfl := Option.some.inj h
    rw [hs]
    simp
  · exact absurd h (by simp)

theorem colon_notMem_of_scanned {key : Str} {p : Str × Str} (h : scanned key = some p) :
    58 ∉ p.1 ∧ 58 ∉ p.2 := by
  obtain ⟨htier, huser⟩ := mem_splitOn_of_scanned h
  exact ⟨fun hx => (mem_of_mem_splitOn htier hx).2 rfl,
    fun hx => (mem_of_mem_splitOn huser hx).2 rfl⟩

theorem scanned_plain {key : Str} (hkey : Scalar key) {p : Str × Str} (h : scanned key = some p) :
    58 ∉ p.1 ∧ Scalar p.1 ∧ Scalar p.2 := by
  obtain ⟨htier, huser⟩ := mem_splitOn_of_scanned h
  exact ⟨(colon_notMem_of_scanned h).1, fun c hc => hkey c (mem_of_mem_splitOn htier hc).1,
    fun c hc => hkey c (mem_of_mem_splitOn huser hc).1⟩

/-! ## One pass -/

/-- A pass : its window, the chunk so far, and whether the scan is over. -/
structure Pass where
  window : ℤ
  chunk : Dict (Str × Str) SlotValue
  ending : Bool

namespace Pass

/-- Every integer of the hash prints in at most 4300 digits, and so is read by `int`. -/
def legible (h : Hash) : Bool := Region.all.all fun q => (h.slots q).all fun n => Printable n

/-- The region's own slot as `get_global` returns it, where it is there and not negative. -/
def ownValue (r : Region) (h : Hash) : Except PyError (Option SlotValue) :=
  if legible h then
    .ok ((h.slots r).bind fun n => if hn : 0 ≤ n then some ⟨.int n, hn⟩ else none)
  else .error .value

/-- One key of the scan. -/
def scan (r : Region) (m : GlobalRedis) (p : Pass) (key : Str) : Except PyError Pass :=
  match scanned key with
  | none => .ok p
  | some k =>
    (ownValue r (m (globalKey k.1 k.2 p.window))).map fun
      | none => p
      | some v => { p with chunk := p.chunk.set k v }

/-- `len(chunk) >= chunk_size`, which is asked of chunks that have just grown. -/
def full (chunkSize : ℤ) (p : Pass) : Bool := p.chunk.size ≠ 0 && chunkSize ≤ p.chunk.size

/-- The envelope of `_publish_chunk`. -/
def envelope (r : Region) (p : Pass) (tsMs : ℤ) : ReconcileEnvelope :=
  ⟨r, p.window, tsMs, p.chunk, .int⟩

/-- The pass behind its last key : what is left goes out. -/
def scannedAll (p : Pass) : Option Pass :=
  if p.chunk.size = 0 then none else some { p with ending := true }

/-- The pass behind a chunk that is published. -/
def flushed (p : Pass) : Option Pass :=
  if p.ending then none else some { p with chunk := Dict.empty }

theorem eq_of_scannedAll {p p' : Pass} (h : p.scannedAll = some p') :
    p' = { p with ending := true } := by
  unfold scannedAll at h
  split_ifs at h
  exact (Option.some.inj h).symm

theorem eq_of_flushed {p p' : Pass} (h : p.flushed = some p') :
    p' = { p with chunk := Dict.empty } := by
  unfold flushed at h
  split_ifs at h
  exact (Option.some.inj h).symm

/-- A pass whose chunk reads back. -/
structure Plain (p : Pass) : Prop where
  window : Printable p.window
  slots : PlainSlots p.chunk

theorem Plain.envelope {p : Pass} (h : p.Plain) (r : Region) {tsMs : ℤ}
    (hts : fits64 tsMs = true) : (p.envelope r tsMs).Plain := ⟨rfl, h.window, hts, h.slots⟩

theorem plainSlots_empty : PlainSlots Dict.empty :=
  ⟨fun _ h => absurd h List.not_mem_nil, fun _ h => absurd h List.not_mem_nil,
    fun _ h => absurd h List.not_mem_nil⟩

/-- What one key does to a pass : nothing, or its slot goes into the chunk. -/
theorem scan_cases {r : Region} {m : GlobalRedis} {p p' : Pass} {key : Str}
    (h : p.scan r m key = .ok p') :
    p' = p ∨ ∃ k n, ∃ hn : 0 ≤ n, scanned key = some k ∧
      (m (globalKey k.1 k.2 p.window)).slots r = some n ∧ Printable n ∧
      p' = { p with chunk := p.chunk.set k ⟨.int n, hn⟩ } := by
  unfold scan at h
  split at h
  · exact Or.inl (Except.ok.inj h).symm
  · rename_i k hk
    unfold ownValue at h
    by_cases hleg : legible (m (globalKey k.1 k.2 p.window)) = true
    swap
    · rw [if_neg hleg] at h
      exact absurd h (by simp [Except.map])
    rw [if_pos hleg] at h
    cases hs : (m (globalKey k.1 k.2 p.window)).slots r with
    | none =>
      rw [hs] at h
      exact Or.inl (Except.ok.inj h).symm
    | some n =>
      rw [hs] at h
      by_cases hn : 0 ≤ n
      · have hprint : Printable n := by
          have := List.all_eq_true.mp hleg r r.mem_all
          rw [hs] at this
          exact of_decide_eq_true this
        refine Or.inr ⟨k, n, hn, hk, hs, hprint, ?_⟩
        rw [Option.bind_some, dif_pos hn] at h
        exact (Except.ok.inj h).symm
      · rw [Option.bind_some, dif_neg hn] at h
        exact Or.inl (Except.ok.inj h).symm

theorem scan_window {r : Region} {m : GlobalRedis} {p p' : Pass} {key : Str}
    (h : p.scan r m key = .ok p') : p'.window = p.window ∧ p'.ending = p.ending := by
  rcases scan_cases h with rfl | ⟨k, n, hn, -, -, -, rfl⟩ <;> exact ⟨rfl, rfl⟩

theorem Plain.scan {r : Region} {m : GlobalRedis} {p p' : Pass} {key : Str} (hp : p.Plain)
    (hkey : Scalar key) (h : p.scan r m key = .ok p') : p'.Plain := by
  rcases scan_cases h with rfl | ⟨k, n, hn, hk, -, hprint, rfl⟩
  · exact hp
  · obtain ⟨hcolon, hscalar⟩ := scanned_plain hkey hk
    refine ⟨hp.window, ⟨fun e he => ?_, fun e he => ?_, fun e he => ?_⟩⟩
    · rcases Dict.mem_entries_set he with rfl | he
      · exact hcolon
      · exact hp.slots.colon e he
    · rcases Dict.mem_entries_set he with rfl | he
      · exact hscalar
      · exact hp.slots.scalar e he
    · rcases Dict.mem_entries_set he with rfl | he
      · exact ⟨n, rfl, hprint⟩
      · exact hp.slots.int e he

/-- A key of a user without a colon is taken in with its own slot. -/
theorem scan_globalKey {r : Region} {m : GlobalRedis} {p : Pass} {tier user : Str}
    (ht : 58 ∉ tier) (hu : 58 ∉ user) (hleg : legible (m (globalKey tier user p.window)) = true)
    {n : ℤ} (hn : 0 ≤ n) (hs : (m (globalKey tier user p.window)).slots r = some n) :
    p.scan r m (globalKey tier user p.window) =
      .ok { p with chunk := p.chunk.set (tier, user) ⟨.int n, hn⟩ } := by
  rw [scan, scanned_globalKey ht hu]
  dsimp only
  rw [ownValue, if_pos hleg, hs, Option.bind_some, dif_pos hn]
  rfl

/-- A key does not fail where all integers print. -/
theorem scan_ok {r : Region} {m : GlobalRedis} (hleg : ∀ k, legible (m k) = true) (p : Pass)
    (key : Str) : ∃ p', p.scan r m key = .ok p' := by
  unfold scan
  split
  · exact ⟨p, rfl⟩
  · rw [ownValue, if_pos (hleg _)]
    exact ⟨_, rfl⟩

end Pass

end Gdrl
