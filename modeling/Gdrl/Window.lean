import Gdrl.Limiter
import Gdrl.Run

/-!
# The sliding window over runs

`Window` is one key of the sliding window with all calls so far. The script counts in a
log that it prunes as it goes and that Redis drops two minutes behind the last call. The
specification counts in the record of the calls.

Where the clock readings come in order the two agree (`answer_iff`), since the log is
what a later call still counts of the record (`Mirrors`). This is about the script with its
own numbers, and holds up to limits of `2 ^ 53`; the other results here and in later modules
are about the script over the integers.

`Races` is the system in which a call reads its clock first and its script runs at any later
point. A script with a newer clock then prunes what a delayed one should still count, so that
the bound of the limiter holds only as long as no entry is missed (`Complete`).
-/

namespace Gdrl

namespace SlidingWindow

/-- One key : its log with the moment of Redis's clock after which it is gone, and the
calls on it with their replies. -/
structure Window where
  kept : Option (Log × ℤ)
  calls : List (Call × Reply)

namespace Window

/-- Before the first call. -/
def empty : Window := ⟨none, []⟩

/-- What a script finds at the key. -/
def read (w : Window) (redisMs : ℤ) : Option Log :=
  w.kept.bind fun e => if e.2 < redisMs then none else some e.1

/-- What a call is answered. -/
def answer (w : Window) (c : Call) (redisMs : ℤ) : Reply := (call c (w.read redisMs)).1

/-- The key behind a call. -/
def serve (w : Window) (c : Call) (redisMs : ℤ) : Window :=
  ⟨(call c (w.read redisMs)).2.map fun log => (log, redisMs + localTtlMs),
    w.calls ++ [(c, w.answer c redisMs)]⟩

/-- What a call is answered by the script with its own numbers. -/
def scriptAnswer (w : Window) (c : Call) (redisMs : ℤ) : Reply := (script c (w.read redisMs)).1

/-- The key behind a call of the script with its own numbers. -/
def scriptServe (w : Window) (c : Call) (redisMs : ℤ) : Window :=
  ⟨(script c (w.read redisMs)).2.map fun log => (log, redisMs + localTtlMs),
    w.calls ++ [(c, w.scriptAnswer c redisMs)]⟩

/-- The allowed calls. -/
def allowed (w : Window) : List Call := (w.calls.filter fun e => e.2.allowed).map Prod.fst

/-- The allowed calls with a time behind `s`, up to `t`. -/
def allowedIn (w : Window) (s t : ℤ) : List Call :=
  w.allowed.filter fun c => s < c.nowMs && c.nowMs ≤ t

/-- `Limiter.check` of the sliding window is a call on one key. -/
theorem check_eq {w : Window} {m : LocalRedis} {key : Str}
    (hm : m key = w.kept.map fun e => ⟨.window e.1, e.2⟩) (c : Limiter.Call) :
    let d : Call := ⟨c.limit, c.nowMs, natText c.nonce⟩
    (Limiter.check .slidingWindow key c m).1 = some (w.answer d c.redisMs) ∧
      (Limiter.check .slidingWindow key c m).2 key =
        (w.serve d c.redisMs).kept.map fun e => ⟨.window e.1, e.2⟩ := by
  have hread : m.read key c.redisMs = (w.read c.redisMs).map .window := by
    rw [LocalRedis.read, hm, read]
    cases w.kept with
    | none => rfl
    | some e =>
      simp only [Option.map_some, Option.bind_some]
      split_ifs <;> rfl
  unfold Limiter.check
  rw [hread]
  unfold Window.serve Window.answer
  cases w.read c.redisMs with
  | none =>
    simp only [Option.map_none, Limiter.script, if_true, Option.map_map, true_and]
    rfl
  | some log =>
    simp only [Option.map_some, Limiter.script, if_true, Option.map_map, true_and]
    rfl

end Window

/-! ## One call -/

/-- The entry of a call in the log. -/
def entry (c : Call) : Str × ℤ := (member c, c.nowMs)

theorem nonce_eq_of_member {c d : Call} (h : member c = member d) : c.nonce = d.nonce :=
  (append_colon_inj (colon_notMem_intText _) (colon_notMem_intText _) h).2

theorem getD_stored (log : Log) : (stored log).getD Dict.empty = log := by
  unfold stored
  split_ifs with h
  · obtain ⟨l, hl⟩ := log
    obtain rfl := List.isEmpty_iff.mp h
    rfl
  · rfl

/-- The log that a call counts. -/
def counted (c : Call) (data : Option Log) : Log := prune c.nowMs (data.getD Dict.empty)

theorem call_allowed (c : Call) (data : Option Log) :
    (call c data).1.allowed = decide (((counted c data).size : ℤ) < c.limit) := by
  unfold call counted
  dsimp only
  split_ifs with h
  · exact (decide_eq_false (not_lt.mpr h)).symm
  · exact (decide_eq_true (not_le.mp h)).symm

theorem call_remaining {c : Call} {data : Option Log} (h : (call c data).1.allowed = true) :
    (call c data).1.remaining = c.limit - ((counted c data).size + 1) := by
  unfold call counted at *
  dsimp only at *
  split_ifs at h ⊢ with hfull
  ring

/-- What a call leaves : the log that it counted, with its own entry if it is allowed. -/
theorem getD_call (c : Call) (data : Option Log) :
    (call c data).2.getD Dict.empty = if (call c data).1.allowed then
      (counted c data).set (member c) c.nowMs else counted c data := by
  rw [call_allowed]
  unfold call counted
  dsimp only
  split_ifs with h h' h'
  · exact absurd (of_decide_eq_true h') (not_lt.mpr h)
  · exact getD_stored _
  · exact getD_stored _
  · exact absurd (decide_eq_true (not_le.mp h)) h'

/-- The same of the script with its own numbers, whichever way they let it decide. -/
theorem getD_script (c : Call) (data : Option Log) :
    (script c data).2.getD Dict.empty = if (script c data).1.allowed then
      (counted c data).set (member c) c.nowMs else counted c data := by
  unfold script counted
  dsimp only
  by_cases h : luaNumber c.limit ≤ luaNumber (prune c.nowMs (data.getD Dict.empty)).size
  · rw [if_pos h]
    exact getD_stored _
  · rw [if_neg h]
    exact getD_stored _

theorem script_allowed {c : Call} {data : Option Log}
    (h : ((counted c data).size : ℤ) < 2 ^ 53 ∨ c.limit ≤ 2 ^ 53) :
    (script c data).1.allowed = decide (((counted c data).size : ℤ) < c.limit) := by
  have hiff := luaNumber_le_iff (Int.natCast_nonneg (counted c data).size) h
  unfold script
  dsimp only
  rw [← counted]
  split_ifs with hfull
  · exact (decide_eq_false (not_lt.mpr (hiff.mp hfull))).symm
  · exact (decide_eq_true (not_le.mp (mt hiff.mpr hfull))).symm

namespace Window

variable {w : Window} {c : Call}

theorem allowed_append (w : Window) (kept : Option (Log × ℤ)) (c : Call) (r : Reply) :
    (⟨kept, w.calls ++ [(c, r)]⟩ : Window).allowed =
      w.allowed ++ if r.allowed then [c] else [] := by
  rw [allowed, List.filter_append, List.map_append, ← allowed]
  congr 1
  by_cases h : r.allowed = true
  · simp [h]
  · simp [h]

theorem read_kept (log : Option Log) (calls : List (Call × Reply)) (redisMs u : ℤ) :
    ((⟨log.map fun log => (log, redisMs + localTtlMs), calls⟩ : Window).read u).getD Dict.empty =
      if redisMs + localTtlMs < u then Dict.empty else log.getD Dict.empty := by
  rw [read]
  cases log with
  | none => split_ifs <;> rfl
  | some log =>
    simp only [Option.map_some, Option.bind_some]
    split_ifs <;> rfl

theorem allowed_serve (w : Window) (c : Call) (redisMs : ℤ) :
    (w.serve c redisMs).allowed =
      w.allowed ++ if (w.answer c redisMs).allowed then [c] else [] :=
  w.allowed_append _ c _

theorem read_serve (w : Window) (c : Call) (redisMs u : ℤ) :
    ((w.serve c redisMs).read u).getD Dict.empty = if redisMs + localTtlMs < u then Dict.empty
      else (call c (w.read redisMs)).2.getD Dict.empty :=
  read_kept _ _ redisMs u

theorem allowed_scriptServe (w : Window) (c : Call) (redisMs : ℤ) :
    (w.scriptServe c redisMs).allowed =
      w.allowed ++ if (w.scriptAnswer c redisMs).allowed then [c] else [] :=
  w.allowed_append _ c _

theorem read_scriptServe (w : Window) (c : Call) (redisMs u : ℤ) :
    ((w.scriptServe c redisMs).read u).getD Dict.empty =
      if redisMs + localTtlMs < u then Dict.empty
      else (script c (w.read redisMs)).2.getD Dict.empty :=
  read_kept _ _ redisMs u

/-! ## Clocks in order -/

/-- The log is what any call from `t` on still counts of the record. -/
def Mirrors (w : Window) (t : ℤ) : Prop := ∀ u, t ≤ u →
  (prune u ((w.read u).getD Dict.empty)).entries =
    (w.allowed.filter fun c => u - windowMs < c.nowMs).map entry

theorem Mirrors.mono {t t' : ℤ} (h : w.Mirrors t) (ht : t ≤ t') : w.Mirrors t' :=
  fun u hu => h u (ht.trans hu)

theorem Mirrors.counted {t : ℤ} (h : w.Mirrors t) (ht : t ≤ c.nowMs) :
    (counted c (w.read c.nowMs)).entries =
      (w.allowed.filter fun d => c.nowMs - windowMs < d.nowMs).map entry := h c.nowMs ht

/-- A call behind all others keeps it so. -/
theorem Mirrors.scriptServe {t : ℤ} (h : w.Mirrors t) (hle : ∀ d ∈ w.allowed, d.nowMs ≤ t)
    (ht : t ≤ c.nowMs) (hnonce : ∀ d ∈ w.allowed, d.nonce ≠ c.nonce) :
    (w.scriptServe c c.nowMs).Mirrors c.nowMs := by
  have hlog := h.counted ht
  have hnew : member c ∉ (SlidingWindow.counted c (w.read c.nowMs)).entries.map Prod.fst := by
    rw [hlog, List.map_map]
    intro hmem
    obtain ⟨d, hd, heq⟩ := List.mem_map.mp hmem
    exact hnonce d (List.mem_filter.mp hd).1 (nonce_eq_of_member heq)
  have hafter : ((script c (w.read c.nowMs)).2.getD Dict.empty).entries =
      ((w.scriptServe c c.nowMs).allowed.filter fun d => c.nowMs - windowMs < d.nowMs).map
        entry := by
    rw [getD_script, allowed_scriptServe, scriptAnswer]
    split_ifs
    · rw [Dict.entries_set_of_notMem hnew, hlog, List.filter_append, List.map_append]
      simp [entry, windowMs]
    · rw [List.append_nil, hlog]
  intro u hu
  rw [read_scriptServe]
  split_ifs with hgone
  · -- two minutes behind the last call no call counts any more
    have hold : ∀ d ∈ (w.scriptServe c c.nowMs).allowed, d.nowMs ≤ c.nowMs := by
      intro d hd
      rw [allowed_scriptServe] at hd
      rcases List.mem_append.mp hd with hd | hd
      · exact (hle d hd).trans ht
      · split_ifs at hd
        · rw [List.mem_singleton.mp hd]
        · exact absurd hd List.not_mem_nil
    rw [List.filter_eq_nil_iff.mpr fun d hd => ?_]
    · rfl
    · intro hlate
      have hlate := of_decide_eq_true hlate
      have hd := hold d hd
      unfold windowMs at hlate
      unfold localTtlMs at hgone
      omega
  · rw [prune, Dict.filter]
    dsimp only
    rw [hafter, List.filter_map, List.filter_filter]
    congr 1
    refine List.filter_congr fun d _ => Bool.eq_iff_iff.mpr ?_
    rw [Bool.and_eq_true, decide_eq_true_iff, decide_eq_true_iff]
    constructor
    · exact fun h => of_decide_eq_true h.1
    · exact fun h => ⟨decide_eq_true h, by omega⟩

/-- Calls one after the other, on one clock. -/
def run (cs : List Call) : Window := cs.foldl (fun w c => w.serve c c.nowMs) empty

/-- The same calls of the script with its own numbers. -/
def scriptRun (cs : List Call) : Window := cs.foldl (fun w c => w.scriptServe c c.nowMs) empty

theorem run_snoc (cs : List Call) (c : Call) : run (cs ++ [c]) = (run cs).serve c c.nowMs := by
  rw [run, List.foldl_append]
  rfl

theorem scriptRun_snoc (cs : List Call) (c : Call) :
    scriptRun (cs ++ [c]) = (scriptRun cs).scriptServe c c.nowMs := List.foldl_concat _ _ _ _

theorem mirrors_scriptRun {cs : List Call} (htime : cs.Pairwise fun d e => d.nowMs ≤ e.nowMs)
    (hnonce : (cs.map Call.nonce).Nodup) {t : ℤ} (hle : ∀ d ∈ cs, d.nowMs ≤ t) :
    (scriptRun cs).Mirrors t ∧ ∀ d ∈ (scriptRun cs).allowed, d ∈ cs := by
  induction cs using List.reverseRecOn generalizing t with
  | nil => exact ⟨fun _ _ => rfl, fun _ hd => absurd hd List.not_mem_nil⟩
  | append_singleton cs c ih =>
    rw [List.pairwise_append] at htime
    rw [List.map_append, List.nodup_append] at hnonce
    have hbefore : ∀ d ∈ cs, d.nowMs ≤ c.nowMs := fun d hd =>
      htime.2.2 d hd c (List.mem_singleton_self c)
    obtain ⟨hmirrors, hmem⟩ := ih htime.1 hnonce.1 hbefore
    have hnew : ∀ d ∈ (scriptRun cs).allowed, d.nonce ≠ c.nonce := fun d hd =>
      hnonce.2.2 _ (List.mem_map_of_mem (hmem d hd)) _ (by simp)
    rw [scriptRun_snoc]
    refine ⟨(hmirrors.scriptServe (fun d hd => hbefore d (hmem d hd)) le_rfl hnew).mono
      (hle c (by simp)), fun d hd => ?_⟩
    rw [allowed_scriptServe] at hd
    rcases List.mem_append.mp hd with hd | hd
    · exact List.mem_append_left _ (hmem d hd)
    · split_ifs at hd
      · exact List.mem_append_right _ hd
      · exact absurd hd List.not_mem_nil

/-- What a call behind a run counts : the allowed calls of the last minute. -/
theorem size_counted {cs : List Call} (htime : (cs ++ [c]).Pairwise fun d e => d.nowMs ≤ e.nowMs)
    (hnonce : ((cs ++ [c]).map Call.nonce).Nodup) :
    (SlidingWindow.counted c ((scriptRun cs).read c.nowMs)).size =
      ((scriptRun cs).allowedIn (c.nowMs - windowMs) c.nowMs).length := by
  rw [List.pairwise_append] at htime
  rw [List.map_append, List.nodup_append] at hnonce
  have hbefore : ∀ d ∈ cs, d.nowMs ≤ c.nowMs := fun d hd =>
    htime.2.2 d hd c (List.mem_singleton_self c)
  obtain ⟨hmirrors, hmem⟩ := mirrors_scriptRun htime.1 hnonce.1 hbefore
  have hin : (scriptRun cs).allowedIn (c.nowMs - windowMs) c.nowMs =
      (scriptRun cs).allowed.filter fun d => c.nowMs - windowMs < d.nowMs := by
    refine List.filter_congr fun d hd => ?_
    rw [decide_eq_true (hbefore d (hmem d hd)), Bool.and_true]
  rw [Dict.size, hmirrors.counted le_rfl, List.length_map, hin]

/-- **The sliding window.** With clock readings in order and distinct nonces a call is
denied exactly if the allowed calls of the last minute reach its limit, and an allowed one
is told what is left of it, for limits up to `2 ^ 53`. The limits of the other calls do not
matter, and a larger limit is kept as long as the calls of the last minute are not as many. -/
theorem answer_iff {cs : List Call} {c : Call}
    (htime : (cs ++ [c]).Pairwise fun d e => d.nowMs ≤ e.nowMs)
    (hnonce : ((cs ++ [c]).map Call.nonce).Nodup) :
    let r := (scriptRun cs).scriptAnswer c c.nowMs
    let n : ℤ := ((scriptRun cs).allowedIn (c.nowMs - windowMs) c.nowMs).length
    (n < 2 ^ 53 ∨ c.limit ≤ 2 ^ 53 → (r.allowed = false ↔ c.limit ≤ n)) ∧
      (c.limit ≤ 2 ^ 53 → r.allowed = true → r.remaining = c.limit - (n + 1)) := by
  intro r n
  have hn : ((SlidingWindow.counted c ((scriptRun cs).read c.nowMs)).size : ℤ) = n :=
    congrArg Nat.cast (size_counted htime hnonce)
  refine ⟨fun h => ?_, fun hl hallowed => ?_⟩
  · rw [show r.allowed = _ from script_allowed (hn ▸ h), hn, decide_eq_false_iff_not, not_lt]
  · have hcall : r = (call c ((scriptRun cs).read c.nowMs)).1 :=
      congrArg Prod.fst (script_eq_call hl _)
    rw [hcall] at hallowed ⊢
    rw [call_remaining hallowed, hn]

/-- A call a minute behind another one, to the millisecond. -/
theorem answer_iff_sample :
    let cs : List Call := [⟨1, 0, str "1"⟩, ⟨1, 59999, str "2"⟩]
    ((scriptRun cs).scriptAnswer ⟨1, 60000, str "3"⟩ 60000).allowed = true ∧
      ((scriptRun cs).scriptAnswer ⟨1, 60000, str "3"⟩ 60000).remaining =
        1 - (((scriptRun cs).allowedIn 0 60000).length + 1) := by
  have hallowed : ((scriptRun [⟨1, 0, str "1"⟩, ⟨1, 59999, str "2"⟩]).scriptAnswer
      ⟨1, 60000, str "3"⟩ 60000).allowed = true := by decide +kernel
  exact ⟨hallowed, (answer_iff (by decide) (by decide)).2 (by decide) hallowed⟩

/-- A limit beyond `2 ^ 53` is rounded, and so is what remains of it : a first call is told one
less than there is. -/
theorem remaining_rounded :
    let c : Call := ⟨2 ^ 53 + 1, 0, str "1"⟩
    (scriptRun []).scriptAnswer c 0 = ⟨true, 2 ^ 53 - 1, 0⟩ ∧
      ((scriptRun []).scriptAnswer c 0).remaining ≠
        c.limit - (((scriptRun []).allowedIn (0 - windowMs) 0).length + 1) := by
  decide +kernel

end Window

/-! ## Scripts in any order -/

/-- A limiter with the calls of `Check` on one key : those that have read their clock and
taken their nonce and whose scripts are still to run, and the key itself. -/
structure Races where
  clock : ℤ
  seq : ℕ
  waiting : List Call
  window : Window

namespace Races

inductive Event
  /-- `Check` reads the clock and takes a nonce. -/
  | check (nowMs : ℤ)
  /-- The script of a waiting call runs. -/
  | script (i : ℕ) (redisMs : ℤ)

/-- One step under a fixed limit, `none` where the clock would go back or no such call
waits. -/
def step (limit : ℤ) (s : Races) : Event → Option Races
  | .check nowMs =>
    if s.clock ≤ nowMs then
      some { s with
        clock := nowMs
        seq := s.seq + 1
        waiting := s.waiting ++ [⟨limit, nowMs, natText (s.seq + 1)⟩] }
    else none
  | .script i redisMs =>
    if s.clock ≤ redisMs then s.waiting[i]?.map fun c =>
      { s with
        clock := redisMs
        waiting := s.waiting.eraseIdx i
        window := s.window.serve c redisMs }
    else none

def init (t₀ : ℤ) : Races := ⟨t₀, 0, [], .empty⟩

/-- The script finds the entries of all allowed calls less than a minute from its call. -/
def Complete (s : Races) : Event → Prop
  | .check _ => True
  | .script i redisMs => ∀ c ∈ s.waiting[i]?, ∀ d ∈ s.window.allowed,
      c.nowMs - windowMs < d.nowMs → d.nowMs < c.nowMs + windowMs →
      entry d ∈ ((s.window.read redisMs).getD Dict.empty).entries

instance (s : Races) (e : Event) : Decidable (s.Complete e) :=
  match e with
  | .check _ => inferInstanceAs (Decidable True)
  | .script i redisMs => inferInstanceAs (Decidable (∀ c ∈ s.waiting[i]?, ∀ d ∈ s.window.allowed,
      c.nowMs - windowMs < d.nowMs → d.nowMs < c.nowMs + windowMs →
      entry d ∈ ((s.window.read redisMs).getD Dict.empty).entries))

/-- No minute has more than `limit` allowed calls. -/
def Bounded (limit : ℤ) (w : Window) : Prop :=
  ∀ t, ((w.allowedIn t (t + windowMs)).length : ℤ) ≤ limit

/-- A call that finds all entries it should count keeps the bound. -/
theorem Bounded.serve {limit : ℤ} {w : Window} (h : Bounded limit w) {c : Call}
    (hc : c.limit = limit) {redisMs : ℤ}
    (hnonce : (w.allowed.map Call.nonce).Nodup)
    (hcomplete : ∀ d ∈ w.allowed, c.nowMs - windowMs < d.nowMs → d.nowMs < c.nowMs + windowMs →
      entry d ∈ ((w.read redisMs).getD Dict.empty).entries) :
    Bounded limit (w.serve c redisMs) := by
  intro t
  rw [Window.allowedIn, Window.allowed_serve]
  split_ifs with hallowed
  swap
  · rw [List.append_nil]
    exact h t
  rw [List.filter_append, List.length_append]
  by_cases hin : t < c.nowMs ∧ c.nowMs ≤ t + windowMs
  swap
  · have hout : [c].filter (fun d => t < d.nowMs && d.nowMs ≤ t + windowMs) = [] := by
      simpa using hin
    rw [hout, List.length_nil, Nat.add_zero]
    exact h t
  -- all calls of that minute are entries that the script has counted
  have hsub : (w.allowedIn t (t + windowMs)).map entry ⊆ (counted c (w.read redisMs)).entries := by
    intro e he
    obtain ⟨d, hd, rfl⟩ := List.mem_map.mp he
    obtain ⟨hd, hmin⟩ := List.mem_filter.mp hd
    rw [Bool.and_eq_true, decide_eq_true_iff, decide_eq_true_iff] at hmin
    refine List.mem_filter.mpr ⟨hcomplete d hd (by omega) (by omega), decide_eq_true ?_⟩
    show c.nowMs - windowMs < d.nowMs
    omega
  have hnodup : ((w.allowedIn t (t + windowMs)).map entry).Nodup := by
    have hfilter : ((w.allowedIn t (t + windowMs)).map Call.nonce).Nodup :=
      hnonce.sublist (List.filter_sublist.map _)
    refine (List.Nodup.of_map _ hfilter).map_on fun d hd e he heq => ?_
    exact List.inj_on_of_nodup_map hfilter hd he (nonce_eq_of_member (Prod.mk.inj heq).1)
  have hle := (hnodup.subperm hsub).length_le
  rw [List.length_map] at hle
  have hroom := of_decide_eq_true ((call_allowed c (w.read redisMs)).symm.trans hallowed)
  have hone : ([c].filter fun d => t < d.nowMs && d.nowMs ≤ t + windowMs).length ≤ 1 :=
    List.length_filter_le _ _
  rw [Dict.size, hc] at hroom
  push_cast
  have hle' : ((w.allowedIn t (t + windowMs)).length : ℤ) ≤
    ((counted c (w.read redisMs)).entries.length : ℤ) := by exact_mod_cast hle
  have hone' : (([c].filter fun d => t < d.nowMs && d.nowMs ≤ t + windowMs).length : ℤ) ≤ 1 := by
    exact_mod_cast hone
  unfold Window.allowedIn at hle'
  omega

/-- The calls that wait or are allowed have nonces of their own. -/
structure Sane (limit : ℤ) (s : Races) : Prop where
  limit : ∀ c ∈ s.waiting, c.limit = limit
  issued : ∀ c ∈ s.waiting ++ s.window.allowed, ∃ k ≤ s.seq, c.nonce = natText k
  nonces : ((s.waiting ++ s.window.allowed).map Call.nonce).Nodup

theorem Sane.step {limit : ℤ} {s s' : Races} {e : Event} (hs : s.Sane limit)
    (h : s.step limit e = some s') : s'.Sane limit := by
  cases e with
  | check nowMs =>
    rw [Races.step] at h
    split_ifs at h
    obtain rfl := Option.some.inj h
    have hnew : ∀ c ∈ s.waiting ++ s.window.allowed, c.nonce ≠ natText (s.seq + 1) := by
      intro c hc heq
      obtain ⟨k, hk, hck⟩ := hs.issued c hc
      have := natText_injective (hck.symm.trans heq)
      omega
    obtain ⟨d, hd⟩ : ∃ d : Call, d = ⟨limit, nowMs, natText (s.seq + 1)⟩ := ⟨_, rfl⟩
    rw [← hd]
    have hperm : (s.waiting ++ [d] ++ s.window.allowed).Perm
        (d :: (s.waiting ++ s.window.allowed)) := by
      rw [List.append_assoc, List.singleton_append]
      exact List.perm_middle
    refine ⟨fun c hc => ?_, fun c hc => ?_, ?_⟩
    · rcases List.mem_append.mp hc with hc | hc
      · exact hs.limit c hc
      · rw [List.mem_singleton.mp hc, hd]
    · rcases List.mem_cons.mp (hperm.mem_iff.mp hc) with rfl | hc
      · exact ⟨s.seq + 1, le_rfl, by rw [hd]⟩
      · obtain ⟨k, hk, hck⟩ := hs.issued c hc
        exact ⟨k, hk.trans (Nat.le_succ _), hck⟩
    · refine (hperm.map Call.nonce).nodup_iff.mpr (List.nodup_cons.mpr ⟨fun hmem => ?_, hs.nonces⟩)
      obtain ⟨c, hc, heq⟩ := List.mem_map.mp hmem
      exact hnew c hc (heq.trans (by rw [hd]))
  | script i redisMs =>
    rw [Races.step] at h
    split_ifs at h
    obtain ⟨c, hi, rfl⟩ := Option.map_eq_some_iff.mp h
    have hperm : (c :: s.waiting.eraseIdx i ++ s.window.allowed).Perm
        (s.waiting ++ s.window.allowed) := by
      obtain ⟨hlt, rfl⟩ := List.getElem?_eq_some_iff.mp hi
      exact (List.getElem_cons_eraseIdx_perm hlt).append_right _
    -- an allowed call goes from the one list to the other, a denied one is gone
    obtain ⟨l, hl, hsub⟩ : ∃ l,
        (s.waiting.eraseIdx i ++ (s.window.serve c redisMs).allowed).Perm l ∧
        l.Sublist (c :: s.waiting.eraseIdx i ++ s.window.allowed) := by
      rw [Window.allowed_serve]
      split_ifs
      · refine ⟨_, ?_, List.Sublist.refl _⟩
        rw [← List.append_assoc]
        exact List.perm_append_singleton _ _
      · rw [List.append_nil]
        exact ⟨_, .refl _, List.sublist_cons_self _ _⟩
    refine ⟨fun d hd => hs.limit d (List.mem_of_mem_eraseIdx hd), fun d hd => hs.issued d ?_, ?_⟩
    · exact hperm.mem_iff.mp (hsub.subset (hl.mem_iff.mp hd))
    · have hnodup := (hperm.map Call.nonce).nodup_iff.mpr hs.nonces
      exact (hl.map Call.nonce).nodup_iff.mpr (hnodup.sublist (hsub.map _))

/-- **Races.** As long as every script finds the entries of all allowed calls less than a
minute from its own, no minute has more than `limit` allowed calls, in whatever order the
scripts run. -/
theorem bounded_of_complete {limit : ℤ} (hl : 1 ≤ limit) {t₀ : ℤ} {es : List Event} {s : Races}
    (h : Run (fun s e s' => step limit s e = some s' ∧ s.Complete e) (init t₀) es s) :
    Bounded limit s.window := by
  refine (h.invariant (I := fun s => s.Sane limit ∧ Bounded limit s.window) ?_ ?_).2
  · rintro s e s' ⟨hs, hb⟩ ⟨hstep, hcomplete⟩
    refine ⟨hs.step hstep, ?_⟩
    cases e with
    | check nowMs =>
      rw [step] at hstep
      split_ifs at hstep
      obtain rfl := Option.some.inj hstep
      exact hb
    | script i redisMs =>
      rw [step] at hstep
      split_ifs at hstep
      obtain ⟨c, hi, rfl⟩ := Option.map_eq_some_iff.mp hstep
      have hnonces := hs.nonces
      rw [List.map_append, List.nodup_append] at hnonces
      exact hb.serve (hs.limit c (List.mem_of_getElem? hi)) hnonces.2.1 (hcomplete c hi)
  · refine ⟨⟨fun _ hc => absurd hc List.not_mem_nil, fun _ hc => absurd hc List.not_mem_nil,
      List.nodup_nil⟩, fun t => ?_⟩
    have hzero : ((Window.empty.allowedIn t (t + windowMs)).length : ℤ) = 0 := rfl
    show ((Window.empty.allowedIn t (t + windowMs)).length : ℤ) ≤ limit
    omega

/-- Two calls at once. The next one reads its clock, is overtaken by one that is a
millisecond newer and prunes both, and is allowed. -/
def overtaken : List Event :=
  [.check 0, .script 0 0, .check 0, .script 0 0, .check 59999, .check 60000, .script 1 60000,
    .script 0 60001]

/-- Three calls within a minute under a limit of two. -/
theorem not_bounded : ∃ s, Run (Steps (step 2)) (init 0) overtaken s ∧
    (s.window.allowedIn (-1) 59999).length = 3 ∧ ¬ Bounded 2 s.window := by
  have hend : (exec (step 2) (init 0) overtaken).map
      (fun s => (s.window.allowedIn (-1) 59999).length) = some 3 := by decide +kernel
  obtain ⟨s, hs, hthree⟩ := Option.map_eq_some_iff.mp hend
  refine ⟨s, run_of_exec hs, hthree, fun hb => ?_⟩
  have hle := hb (-1)
  rw [show (-1 : ℤ) + windowMs = 59999 from rfl, hthree] at hle
  exact absurd hle (by decide)

/-- The same calls with their scripts in order. -/
theorem bounded_of_complete_sample : ∃ s, Run (Steps (step 2)) (init 0)
    [.check 0, .script 0 0, .check 0, .script 0 0, .check 59999, .check 60000, .script 0 60000,
      .script 0 60001] s ∧ Bounded 2 s.window := by
  obtain ⟨s, hexec⟩ := Option.isSome_iff_exists.mp (show (exec (guarded (step 2) Complete)
    (init 0) [.check 0, .script 0 0, .check 0, .script 0 0, .check 59999, .check 60000,
      .script 0 60000, .script 0 60001]).isSome = true by decide +kernel)
  have hrun := run_of_exec_guarded hexec
  exact ⟨s, hrun.mono fun _ _ _ h => h.1, bounded_of_complete (by decide) hrun⟩

end Races

end SlidingWindow

end Gdrl
