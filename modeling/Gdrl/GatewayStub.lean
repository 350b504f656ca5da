import Gdrl.Counted
import Gdrl.Lists
import Gdrl.World

/-!
# The gateway of the demo

`GatewayStub.allow_request` does what sync sees of a request that the gateway counts : `HINCRBY`,
`EXPIRE` and a message. The message is printed by Python without spaces where the gateway's is
printed by Go, and the two differ as texts in a name that is not ASCII. Every relay makes
the same of them (`stub_as_gateway`).
-/

namespace Gdrl

namespace GatewayStub

/-- The `envelope` dictionary. -/
def envelope (own : Region) (tier user : Str) (window value tsMs : ℤ) : Json :=
  .obj [(str "tier", .str tier),
    (str "user_id", .str user),
    (str "window_id", .int window),
    (str "region", .str own.name),
    (str "value", .int value),
    (str "ts_ms", .int tsMs)]

/-- `GatewayStub.allow_request` with Redis up : the value it returns and the message it
publishes, and what it leaves in Redis. -/
def allowRequest (py : Python) (own : Region) (tier user : Str) (window redisMs tsMs : ℤ)
    (m : GlobalRedis) : Except PyError (ℤ × List Byte) × GlobalRedis :=
  let key := globalKey tier user window
  if ¬ (Scalar tier ∧ Scalar user) then (.error .unicodeEncode, m)
  else
    match (m key).incr own with
    | none => (.error .redis, m)
    | some (n, h) =>
      ((dumps (compactStyle py) (envelope own tier user window n tsMs)).map fun text =>
          (n, utf8Encode text),
        m.set key { h with expireAtMs := some (redisMs + 120000) })

section Messages

variable {py : Python} {c : Check} {n tsMs : ℤ}

theorem reads_envelope (py : Python) (hc : fits64 c.windowId = true) (hn : fits64 n = true)
    (hts : fits64 tsMs = true) :
    Reads (pyDialect py) (compactStyle py) 0 (c.syncMessage n tsMs) (c.syncMessage n tsMs) := by
  have hst : Faithful (compactStyle py) := faithful_pyStyle _ _
  have hstr : ∀ {s : Str}, Scalar s → Reads (pyDialect py) (compactStyle py) 1 (.str s) (.str s) :=
    fun hs => reads_str hst hs 1
  have hint : ∀ {k : ℤ}, fits64 k = true →
      Reads (pyDialect py) (compactStyle py) 1 (.int k) (.int k) :=
    fun hk => reads_int (printable_of_fits hk) 1
  refine reads_obj (two_pos.trans_le py.two_le_maxDepth) (nodup_syncMessage rfl) ?_
  refine readsMembers_cons (hst _ (by decide)) (hstr c.tier.scalar_name) ?_
  refine readsMembers_cons (hst _ (by decide)) (hstr c.userId.property.2) ?_
  refine readsMembers_cons (hst _ (by decide)) (hint hc) ?_
  refine readsMembers_cons (hst _ (by decide)) (hstr c.region.scalar_name) ?_
  refine readsMembers_cons (hst _ (by decide)) (hint hn) ?_
  exact readsMembers_cons (hst _ (by decide)) (hint hts) .nil

/-- Both messages are read as the same value. -/
theorem parse_envelope (py : Python) (hc : fits64 c.windowId = true) (hn : fits64 n = true)
    (hts : fits64 tsMs = true) : ∃ text,
    dumps (compactStyle py) (c.syncMessage n tsMs) = .ok text ∧
      parse py (utf8Encode text) = parse py (c.payload n tsMs) := by
  have hprint : (c.syncMessage n tsMs).printable = true := by
    simp [Check.syncMessage, Json.printable, Json.printableMembers, printable_of_fits hc,
      printable_of_fits hn, printable_of_fits hts]
  refine ⟨_, if_pos hprint, ?_⟩
  have hstub : loads py (utf8Encode ((compactStyle py).print (c.syncMessage n tsMs))) =
      .ok (c.syncMessage n tsMs) := loads_print (reads_envelope py hc hn hts)
  have hgateway : loads py (c.payload n tsMs) = .ok (c.syncMessage n tsMs) :=
    loads_print (reads_syncMessage py hc hn hts)
  rw [parse, parse, hstub, hgateway]

theorem receive_congr {raw raw' : List Byte} (h : parse py raw = parse py raw') (q : Region)
    (table : PartitionTable) : Relay.receive py q table raw = Relay.receive py q table raw' := by
  rw [Relay.receive, Relay.receive, h]

end Messages

theorem set_set (m : GlobalRedis) (key : Str) (h h' : Hash) :
    (m.set key h).set key h' = m.set key h' := by
  funext k
  by_cases hk : k = key
  · rw [hk, GlobalRedis.set_self, GlobalRedis.set_self]
  · rw [GlobalRedis.set_of_ne _ _ hk, GlobalRedis.set_of_ne _ _ hk, GlobalRedis.set_of_ne _ _ hk]

theorem globals_setGlobal (s : Cluster) (q : Region) (m : GlobalRedis) :
    (s.setGlobal q m).globals q = m := if_pos rfl

theorem checkAt_setCheck {s : Cluster} {i : ℕ} {stage : Stage} {c : Check}
    (hi : s.checkAt i stage = some c) (c' : Check) :
    (s.setCheck i c').checkAt i c'.stage = some c' := by
  have hc := (Cluster.checkAt_eq_some.mp hi).1
  exact Cluster.checkAt_eq_some.mpr ⟨getElem?_set_of_getElem? hc c', rfl⟩

theorem exists_set {m : GlobalRedis} {key : Str} {h : Hash} {r : Region} {n : ℤ}
    (hn : h.slots r = some n) : (m.set key h).exists key = true := by
  rw [GlobalRedis.exists, List.any_eq_true]
  exact ⟨r, r.mem_all, by rw [GlobalRedis.set_self, hn]; rfl⟩

/-- A request that is counted, at its next stage. -/
def counted (c : Check) (unix n : ℤ) (stage : Stage) : Check :=
  { c with windowId := unix.tdiv 60, slot := some n, stage }

theorem step_incr {s : Cluster} {i : ℕ} {c : Check} {unix n : ℤ} {h : Hash}
    (hi : s.checkAt i .decided = some c) (hunix : fits64 unix = true)
    (hincr : (s.globals c.region (c.keyAt unix)).incr c.region = some (n, h)) :
    s.step (.incr i unix .ok) =
      some ((s.setGlobal c.region ((s.globals c.region).set (c.keyAt unix) h)).setCheck i
        (counted c unix n .counted)) := by
  have hincr' : (s.globals c.region { c with windowId := unix.tdiv 60 }.key).incr c.region =
      some (n, h) := hincr
  rw [Cluster.step, if_pos hunix, hi, Option.map_some, Cluster.runIncr]
  simp only [hincr']
  rfl

theorem step_expire {s : Cluster} {i : ℕ} {c : Check} (hi : s.checkAt i .counted = some c)
    (hexists : (s.globals c.region).exists c.key = true) (redisMs : ℤ) :
    s.step (.expire i redisMs .ok) =
      some ((s.setGlobal c.region ((s.globals c.region).set c.key
        { s.globals c.region c.key with expireAtMs := some (redisMs + 120000) })).setCheck i
          { c with stage := .kept }) := by
  rw [Cluster.step, hi, Option.map_some, Cluster.runExpire]
  dsimp only
  rw [hexists]
  rfl

/-- The two commands of the gateway with Redis up. -/
theorem exists_counted {s : Cluster} {i : ℕ} {c : Check} {unix n : ℤ} {h : Hash}
    (hi : s.checkAt i .decided = some c) (hunix : fits64 unix = true)
    (hincr : (s.globals c.region (c.keyAt unix)).incr c.region = some (n, h)) (redisMs : ℤ) :
    ∃ s', Run (Steps Cluster.step) s [.incr i unix .ok, .expire i redisMs .ok] s' ∧
      s'.globals c.region = (s.globals c.region).set (c.keyAt unix)
        { h with expireAtMs := some (redisMs + 120000) } ∧
      s'.checkAt i .kept = some (counted c unix n .kept) := by
  have hstep := step_incr hi hunix hincr
  have hcheck := @checkAt_setCheck
    (s.setGlobal c.region ((s.globals c.region).set (c.keyAt unix) h)) i .decided c hi
    (counted c unix n .counted)
  have hglobals : ((s.setGlobal c.region ((s.globals c.region).set (c.keyAt unix) h)).setCheck i
      (counted c unix n .counted)).globals c.region = (s.globals c.region).set (c.keyAt unix) h :=
    globals_setGlobal s c.region _
  generalize (s.setGlobal c.region ((s.globals c.region).set (c.keyAt unix) h)).setCheck i
    (counted c unix n .counted) = u at hstep hcheck hglobals
  have hkey : (counted c unix n .counted).key = c.keyAt unix := rfl
  have hregion : (counted c unix n .counted).region = c.region := rfl
  have hexpire := step_expire hcheck (by
    rw [hregion, hkey, hglobals]
    exact exists_set (Hash.incr_eq_some hincr).2.2.1) redisMs
  rw [hregion, hkey, hglobals, GlobalRedis.set_self, set_set] at hexpire
  exact ⟨_, .cons hstep (.cons hexpire (.nil _)), globals_setGlobal u c.region _,
    @checkAt_setCheck (u.setGlobal c.region _) i .counted _ hcheck (counted c unix n .kept)⟩

/-- **The stub stands in for the gateway.** Where the gateway counts a request, the stub leaves
the same hash, and every relay with any partition table makes of the stub's message what it
makes of the gateway's. Where `HINCRBY` fails, neither writes. -/
theorem stub_as_gateway (py : Python) {s : Cluster} {i : ℕ} {c : Check} {unix redisMs tsMs : ℤ}
    (hi : s.checkAt i .decided = some c) (hunix : fits64 unix = true) (hts : fits64 tsMs = true) :
    (∀ n h, (s.globals c.region (c.keyAt unix)).incr c.region = some (n, h) →
      ∃ s' raw message,
        Run (Steps Cluster.step) s [.incr i unix .ok, .expire i redisMs .ok] s' ∧
        allowRequest py c.region c.tier.name c.userId.val (unix.tdiv 60) redisMs tsMs
          (s.globals c.region) = (.ok (n, raw), s'.globals c.region) ∧
        World.published s' (.publish i tsMs .ok) = [message] ∧
        ∀ q table, Relay.receive py q table raw = Relay.receive py q table message) ∧
    ((s.globals c.region (c.keyAt unix)).incr c.region = none →
      ∃ s', s.step (.incr i unix .ok) = some s' ∧
        allowRequest py c.region c.tier.name c.userId.val (unix.tdiv 60) redisMs tsMs
          (s.globals c.region) = (.error .redis, s'.globals c.region)) := by
  have hscalar : ¬ ¬ (Scalar c.tier.name ∧ Scalar c.userId.val) :=
    not_not.mpr ⟨c.tier.scalar_name, c.userId.property.2⟩
  constructor
  · intro n h hincr
    obtain ⟨s', hrun, hglobals, hcheck⟩ := exists_counted hi hunix hincr redisMs
    have hfit : fits64 n = true := by
      unfold Hash.incr at hincr
      dsimp only at hincr
      split_ifs at hincr with hfits
      obtain ⟨rfl, -⟩ := Prod.mk.inj (Option.some.inj hincr)
      exact (Bool.and_eq_true_iff.mp hfits).2
    obtain ⟨text, hdumps, hparse⟩ := @parse_envelope (counted c unix n .kept) n tsMs py
      (Cluster.fits_tdiv hunix) hfit hts
    refine ⟨s', utf8Encode text, _, hrun, ?_, ?_, receive_congr hparse⟩
    · have hkey : globalKey c.tier.name c.userId.val (unix.tdiv 60) = c.keyAt unix := rfl
      rw [allowRequest, hglobals, if_neg hscalar, hkey, hincr]
      dsimp only
      rw [show envelope c.region c.tier.name c.userId.val (unix.tdiv 60) n tsMs =
        (counted c unix n .kept).syncMessage n tsMs from rfl, hdumps]
      rfl
    · rw [World.published, hcheck]
      rfl
  · intro hincr
    refine ⟨s.runIncr i c unix .ok, ?_, ?_⟩
    · rw [Cluster.step, if_pos hunix, hi, Option.map_some]
    · have hincr' : (s.globals c.region { c with windowId := unix.tdiv 60 }.key).incr c.region =
          none := hincr
      rw [allowRequest, if_neg hscalar, show globalKey c.tier.name c.userId.val (unix.tdiv 60) =
        c.keyAt unix from rfl, hincr, Cluster.runIncr]
      simp only [hincr']
      rfl

/-- The first request of a user. -/
theorem stub_as_gateway_sample : ∃ s c n h, s.checkAt 0 .decided = some c ∧
    (s.globals c.region (c.keyAt 60)).incr c.region = some (n, h) ∧
    ∃ s' raw message, Run (Steps Cluster.step) s [.incr 0 60 .ok, .expire 0 60000 .ok] s' ∧
      allowRequest samplePython c.region c.tier.name c.userId.val (Int.tdiv 60 60) 60000 60000
        (s.globals c.region) = (.ok (n, raw), s'.globals c.region) ∧
      World.published s' (.publish 0 60000 .ok) = [message] ∧
      ∀ q table, Relay.receive samplePython q table raw =
        Relay.receive samplePython q table message := by
  have hend : (exec Cluster.step .init [.start .us .free Cluster.sampleUser none,
      .decide 0 .tokenBucket 60000 1 60000 .ok]).any (fun s => (s.checkAt 0 .decided).any fun c =>
        ((s.globals c.region (c.keyAt 60)).incr c.region).isSome) = true := by decide +kernel
  obtain ⟨s, -, hs⟩ := (Option.any_eq_true _ _).mp hend
  obtain ⟨c, hc, hsome⟩ := (Option.any_eq_true _ _).mp hs
  obtain ⟨⟨n, h⟩, hincr⟩ := Option.isSome_iff_exists.mp hsome
  exact ⟨s, c, n, h, hc, hincr,
    (stub_as_gateway samplePython hc (by decide) (by decide)).1 n h hincr⟩

end GatewayStub

end Gdrl
