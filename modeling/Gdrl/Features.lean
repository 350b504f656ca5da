import Gdrl.Policy
import Mathlib.Data.Rat.Defs
import Mathlib.Algebra.Order.Ring.Rat
import Mathlib.Tactic.Linarith

/-!
# The agent's features

`FeatureExtractor.extract` queries Prometheus twice. It takes what comes of it for fresh
if any query of the client has succeeded within 15 s, keeps it, and falls back to what it
kept, for at most 120 s, and then to zeros. A query of the request rates that fails is
answered with made-up rates. All of this takes time, and an `Extraction` has the clock at
each of its points.

Every rate here carries where it is from (`Source`), which no function looks at. The
rates are honest if none is made up or too old when it is returned (`Honest`). They are
exactly where no failed query of the rates hides behind another query's success (`Masked`),
and no rates grow too old between their query and the stamp that their age is counted from,
or on their way back (`Overdue`).
-/

namespace Gdrl

/-- The tier a name stands for. -/
def Tier.ofName (s : Str) : Option Tier := Tier.all.find? fun t => t.name = s

/-! ## Prometheus -/

/-- A row of a query's result : two labels, and what `float` makes of its value, `none`
where it raises. -/
structure Row where
  region : Option Str
  tier : Option Str
  value : Option Float64

/-- `_fval` -/
def Row.fval (row : Row) : Float64 := row.value.getD (.finite false 0 0)

/-- Where a rate is from : the zero it starts from, a row of a successful query, or the
client's own making. -/
inductive Source
  | default
  | query (now : ℚ) (row : Row)
  | synthetic

structure Reading where
  value : Float64
  source : Source

/-- `PrometheusClient` with its `_last_success`, which is zero before the first. -/
structure PrometheusClient where
  lastSuccess : ℚ

namespace PrometheusClient

/-- `PrometheusClient._query`. `result` is `none` where the query raises. -/
def query (c : PrometheusClient) (now : ℚ) (result : Option (List Row)) : PrometheusClient :=
  if result.isSome then ⟨now⟩ else c

/-- `PrometheusClient.seconds_since_live`, `none` for infinity. -/
def secondsSinceLive (c : PrometheusClient) (now : ℚ) : Option ℚ :=
  if c.lastSuccess = 0 then none else some (now - c.lastSuccess)

/-- Rates drawn at random. -/
abbrev Draw := Region → Tier → Float64

/-- `_synthetic_request_rate`, and `_synthetic_rejection_rate`. -/
def synthetic (draw : Draw) : List Row :=
  Region.all.flatMap fun r => Tier.all.map fun t => ⟨some r.name, some t.name, some (draw r t)⟩

/-- `PrometheusClient.request_rate`, the rows with their sources. -/
def requestRate (now : ℚ) (result : Option (List Row)) (draw : Draw) : List (Row × Source) :=
  match result with
  | some rows => rows.map fun row => (row, .query now row)
  | none => (synthetic draw).map fun row => (row, .synthetic)

/-- `PrometheusClient.rejection_rate` -/
def rejectionRate (result : Option (List Row)) (draw : Draw) : List Row :=
  result.getD (synthetic draw)

end PrometheusClient

/-! ## Features -/

structure Features where
  rps : Region → Tier → Reading
  rejectionRate : Region → Float64

namespace Features

/-- `_STATIC_DEFAULTS` -/
def static : Features where
  rps _ _ := ⟨.finite false 0 0, .default⟩
  rejectionRate _ := .finite false 0 0

/-- One row of the request rates. Rows of other regions and tiers are passed over. -/
def setRow (f : Features) (row : Row × Source) : Features :=
  match row.1.region.bind Region.ofName, row.1.tier.bind Tier.ofName with
  | some r, some t =>
    { f with
      rps := fun r' t' => if r' = r ∧ t' = t then ⟨row.1.fval, row.2⟩ else f.rps r' t' }
  | _, _ => f

/-- The rejection rates of a region. -/
def rejections (rows : List Row) (r : Region) : List Float64 :=
  (rows.filter fun row => row.region = some r.name).map Row.fval

/-- `_do_extract`. `mean` is Python's mean of floats, rounded to four digits. -/
def doExtract (mean : List Float64 → Float64) (rates : List (Row × Source))
    (rejected : List Row) : Features :=
  { rates.foldl setRow static with
    rejectionRate := fun r =>
      if rejections rejected r = [] then .finite false 0 0 else mean (rejections rejected r) }

end Features

/-- `FeatureExtractor` -/
structure FeatureExtractor where
  cache : Option Features
  cacheAt : ℚ

namespace FeatureExtractor

/-- `FeatureExtractor.extract` behind its queries. `tested` is the time at which
`seconds_since_live` reads the clock, `stamped` the time at which `extract` reads it. -/
def extract (x : FeatureExtractor) (client : PrometheusClient) (tested stamped : ℚ)
    (features : Features) : Features × FeatureExtractor :=
  if (client.secondsSinceLive tested).any (· < 15) then (features, ⟨some features, stamped⟩)
  else if stamped - x.cacheAt ≤ 120 then (x.cache.getD .static, x)
  else (.static, x)

end FeatureExtractor

/-! ## The agent's queries -/

namespace Features

/-- A call of `extract`. The query of the rates is made at `made` and has ended at `rated`, the
other query has ended at `rejected`, and the call returns at `returned`. The result of a query
is `none` where it raises. -/
structure Extraction where
  made : ℚ
  rated : ℚ
  rejected : ℚ
  tested : ℚ
  stamped : ℚ
  returned : ℚ
  rate : Option (List Row)
  rejection : Option (List Row)
  draw : PrometheusClient.Draw
  draw' : PrometheusClient.Draw

/-- What the agent does with its client : an extraction with its two queries, or another query,
with the time of its end. -/
inductive Event
  | extract (y : Extraction)
  | query (now : ℚ) (result : Option (List Row))

/-- The client, the extractor, and what has been returned, with the time. -/
structure State where
  client : PrometheusClient
  extractor : FeatureExtractor
  returned : List (ℚ × Features)

/-- Before the first query. -/
def init : State := ⟨⟨0⟩, ⟨none, 0⟩, []⟩

/-- The client behind the queries of an event. -/
def Event.client (c : PrometheusClient) : Event → PrometheusClient
  | .extract y => (c.query y.rated y.rate).query y.rejected y.rejection
  | .query now result => c.query now result

variable (mean : List Float64 → Float64)

/-- What `_do_extract` makes of the two queries. -/
def Extraction.features (y : Extraction) : Features :=
  doExtract mean (PrometheusClient.requestRate y.made y.rate y.draw)
    (PrometheusClient.rejectionRate y.rejection y.draw')

def step (s : State) (e : Event) : State :=
  let client := e.client s.client
  match e with
  | .extract y =>
    let (f, x) := s.extractor.extract client y.tested y.stamped (y.features mean)
    ⟨client, x, s.returned ++ [(y.returned, f)]⟩
  | .query .. => { s with client }

def run (es : List Event) : State := es.foldl (step mean) init

/-- The value of a row that a query of the rates made at `made` returned. -/
def FromQuery (es : List Event) (made : ℚ) (x : Reading) : Prop :=
  ∃ y rows row, .extract y ∈ es ∧ y.made = made ∧ y.rate = some rows ∧ row ∈ rows ∧
    x = ⟨row.fval, .query made row⟩

/-- A rate at time `t` that is the zero default, or from a query made at most 120 s before. -/
def Genuine (es : List Event) (t : ℚ) (x : Reading) : Prop :=
  x = ⟨.finite false 0 0, .default⟩ ∨ ∃ made, FromQuery es made x ∧ made ≤ t ∧ t - made ≤ 120

/-- All rates that the extractor returns are genuine. -/
def Honest (es : List Event) : Prop :=
  ∀ y ∈ (run mean es).returned, ∀ r t, Genuine es y.1 (y.2.rps r t)

/-! ## When rates are honest -/

/-- When the last of an event's queries succeeds. -/
def Event.success : Event → Option ℚ
  | .extract y =>
    if y.rejection.isSome then some y.rejected else if y.rate.isSome then some y.rated else none
  | .query now result => if result.isSome then some now else none

/-- Behind the events so far, an extraction has a success less than 15 s before its test. -/
def Live (es : List Event) (y : Extraction) : Prop :=
  ∃ e ∈ es ++ [.extract y], ∃ t ∈ e.success, y.tested - t < 15

/-- The last extraction that was live, which is the one the extractor has kept. -/
inductive LastLive : List Event → Extraction → Prop
  | live {es : List Event} {y : Extraction} (h : Live es y) : LastLive (es ++ [.extract y]) y
  | idle {es : List Event} {x y : Extraction} (hx : LastLive es x) (h : ¬ Live es y) :
    LastLive (es ++ [.extract y]) x
  | query {es : List Event} {x : Extraction} (hx : LastLive es x) (now : ℚ)
    (result : Option (List Row)) : LastLive (es ++ [.query now result]) x

/-- The extraction whose features another one returns behind the events so far. -/
inductive Serves (es : List Event) (y : Extraction) : Extraction → Prop
  | fresh (h : Live es y) : Serves es y y
  | kept {x : Extraction} (h : ¬ Live es y) (hx : LastLive es x)
    (hage : y.stamped - x.stamped ≤ 120) : Serves es y x

/-- The row is about one of the regions and one of the tiers. -/
def Known (row : Row) (r : Region) (t : Tier) : Prop :=
  row.region.bind Region.ofName = some r ∧ row.tier.bind Tier.ofName = some t

/-- The query of the rates succeeds with a row that sets a rate. -/
def Extraction.Informs (y : Extraction) : Prop :=
  ∃ rows, y.rate = some rows ∧ ∃ row ∈ rows, ∃ r t, Known row r t

/-- Some extraction has the property, behind the events before it. -/
def Somewhere (p : List Event → Extraction → Prop) (es : List Event) : Prop :=
  ∃ pre y post, es = pre ++ .extract y :: post ∧ p pre y

/-- A query of the rates that fails while its extraction is live. -/
def Masked : List Event → Prop := Somewhere fun pre y => y.rate = none ∧ Live pre y

/-- Rates returned more than 120 s after the query they are from. -/
def Overdue : List Event → Prop :=
  Somewhere fun pre y => ∃ x, Serves pre y x ∧ x.Informs ∧ 120 < y.returned - x.made

/-- When an event begins. -/
def Event.first : Event → ℚ
  | .extract y => y.made
  | .query now _ => now

/-- When an event has ended. -/
def Event.last : Event → ℚ
  | .extract y => y.returned
  | .query now _ => now

/-- The order in which a call of `extract` reads the clock. -/
structure Extraction.Ordered (y : Extraction) : Prop where
  made : y.made ≤ y.rated
  rated : y.rated ≤ y.rejected
  rejected : y.rejected ≤ y.tested
  tested : y.tested ≤ y.stamped
  stamped : y.stamped ≤ y.returned

/-- Times of a clock that started long ago and does not go back. -/
structure Timed (es : List Event) : Prop where
  pos : ∀ e ∈ es, 0 < e.first
  ordered : ∀ y, .extract y ∈ es → y.Ordered
  sorted : es.Pairwise fun e e' => e.last ≤ e'.first

/-- A steady load. -/
def sampleDraw : PrometheusClient.Draw := fun _ _ => .ofInt 45

def sampleMean : List Float64 → Float64 := fun _ => .ofInt 0

/-- An extraction of three seconds. -/
def sampleExtraction (now : ℚ) (rate rejection : Option (List Row)) : Extraction where
  made := now
  rated := now + 1
  rejected := now + 2
  tested := now + 2
  stamped := now + 2
  returned := now + 3
  rate := rate
  rejection := rejection
  draw := sampleDraw
  draw' := sampleDraw

/-- Prometheus answers, is gone for good, and the kept features are served until they are
too old. -/
def sampleEvents : List Event :=
  [.extract (sampleExtraction 1000
      (some [⟨some (str "us"), some (str "free"), some (.ofInt 7)⟩]) (some [])),
    .extract (sampleExtraction 1030 none none), .extract (sampleExtraction 1200 none none)]

/-! ## One extraction -/

/-- A rate is what it was, or set from a row about its region and tier. -/
theorem foldl_setRow_cases (rates : List (Row × Source)) (f : Features) (r : Region) (t : Tier) :
    (rates.foldl setRow f).rps r t = f.rps r t ∧ (∀ x ∈ rates, ¬ Known x.1 r t) ∨
      ∃ x ∈ rates, Known x.1 r t ∧ (rates.foldl setRow f).rps r t = ⟨x.1.fval, x.2⟩ := by
  induction rates using List.reverseRecOn with
  | nil => exact Or.inl ⟨rfl, by simp⟩
  | append_singleton rates x ih =>
    rw [List.foldl_concat]
    by_cases hx : Known x.1 r t
    · refine Or.inr ⟨x, by simp, hx, ?_⟩
      simp [setRow, hx.1, hx.2]
    · have hset : ((rates.foldl setRow f).setRow x).rps r t = (rates.foldl setRow f).rps r t := by
        unfold setRow
        split
        · rename_i r' t' hr ht
          refine if_neg ?_
          rintro ⟨rfl, rfl⟩
          exact hx ⟨hr, ht⟩
        · rfl
      rw [hset]
      rcases ih with ⟨heq, hnone⟩ | ⟨x', hx', hk, heq⟩
      · refine Or.inl ⟨heq, fun y hy => ?_⟩
        rcases List.mem_append.mp hy with hy | hy
        · exact hnone y hy
        · rwa [List.mem_singleton.mp hy]
      · exact Or.inr ⟨x', List.mem_append_left _ hx', hk, heq⟩

/-- Rates of a query that succeeds are rows of its result, or zero where it has no row. -/
theorem Extraction.features_some {y : Extraction} {rows : List Row} (hy : y.rate = some rows)
    (r : Region) (t : Tier) :
    (y.features mean).rps r t = ⟨.finite false 0 0, .default⟩ ∧ (∀ row ∈ rows, ¬ Known row r t) ∨
      ∃ row ∈ rows, Known row r t ∧
        (y.features mean).rps r t = ⟨row.fval, .query y.made row⟩ := by
  have hrates : PrometheusClient.requestRate y.made y.rate y.draw =
      rows.map fun row => (row, .query y.made row) := by
    rw [hy]
    rfl
  rw [features, hrates]
  rcases foldl_setRow_cases (rows.map fun row => (row, .query y.made row)) static r t with
    ⟨heq, hnone⟩ | ⟨x, hx, hk, heq⟩
  · exact Or.inl ⟨heq, fun row hrow => hnone _ (List.mem_map_of_mem hrow)⟩
  · obtain ⟨row, hrow, rfl⟩ := List.mem_map.mp hx
    exact Or.inr ⟨row, hrow, hk, heq⟩

/-- Rates of a query that fails are made up, all of them. -/
theorem Extraction.features_none {y : Extraction} (hy : y.rate = none) (r : Region) (t : Tier) :
    (y.features mean).rps r t = ⟨y.draw r t, .synthetic⟩ := by
  rw [features, hy]
  cases r <;> cases t <;> rfl

/-- A query that informs sets some rate. -/
theorem Extraction.Informs.exists_source {y : Extraction} (h : y.Informs) :
    ∃ r t row, ((y.features mean).rps r t).source = .query y.made row := by
  obtain ⟨rows, hy, row, hrow, r, t, hk⟩ := h
  rcases y.features_some mean hy r t with ⟨-, hnone⟩ | ⟨row', -, -, heq⟩
  · exact absurd hk (hnone row hrow)
  · exact ⟨r, t, row', by rw [heq]⟩

/-! ## The times of a run -/

theorem run_snoc (es : List Event) (e : Event) : run mean (es ++ [e]) = step mean (run mean es) e :=
  List.foldl_concat _ _ _ _

theorem Extraction.Ordered.le {y : Extraction} (h : y.Ordered) : y.made ≤ y.returned := by
  linarith [h.made, h.rated, h.rejected, h.tested, h.stamped]

theorem Event.success_extract {y : Extraction} {t : ℚ} (h : t ∈ (Event.extract y).success) :
    t = y.rejected ∨ t = y.rated := by
  simp only [success, Option.mem_def] at h
  split_ifs at h
  · exact Or.inl (Option.some.inj h).symm
  · exact Or.inr (Option.some.inj h).symm

theorem Event.success_query {now t : ℚ} {result : Option (List Row)}
    (h : t ∈ (Event.query now result).success) : t = now := by
  simp only [success, Option.mem_def] at h
  split_ifs at h
  exact (Option.some.inj h).symm

theorem Timed.success {es : List Event} (h : Timed es) {e : Event} (he : e ∈ es) {t : ℚ}
    (ht : t ∈ e.success) : e.first ≤ t ∧ t ≤ e.last := by
  cases e with
  | extract y =>
    obtain ⟨h1, h2, h3, h4, h5⟩ := h.ordered y he
    change y.made ≤ t ∧ t ≤ y.returned
    rcases Event.success_extract ht with rfl | rfl
    · exact ⟨h1.trans h2, by linarith⟩
    · exact ⟨h1, by linarith⟩
  | query now result =>
    obtain rfl := Event.success_query ht
    exact ⟨le_rfl, le_rfl⟩

theorem Timed.of_snoc {es : List Event} {e : Event} (h : Timed (es ++ [e])) :
    Timed es ∧ ∀ e' ∈ es, e'.last ≤ e.first := by
  obtain ⟨hes, -, hle⟩ := List.pairwise_append.mp h.sorted
  exact ⟨⟨fun e' he' => h.pos e' (List.mem_append_left _ he'),
      fun y hy => h.ordered y (List.mem_append_left _ hy), hes⟩,
    fun e' he' => hle e' he' e List.mem_cons_self⟩

theorem somewhere_snoc {p : List Event → Extraction → Prop} {es : List Event} {e : Event} :
    Somewhere p (es ++ [e]) ↔ Somewhere p es ∨ ∃ y, e = .extract y ∧ p es y := by
  constructor
  · rintro ⟨pre, y, post, heq, h⟩
    rcases List.eq_nil_or_concat post with rfl | ⟨post', e', rfl⟩
    · obtain ⟨rfl, h2⟩ := List.append_inj' heq rfl
      exact Or.inr ⟨y, List.singleton_inj.mp h2, h⟩
    · have heq' : es ++ [e] = (pre ++ .extract y :: post') ++ [e'] := by simpa using heq
      obtain ⟨rfl, -⟩ := List.append_inj' heq' rfl
      exact Or.inl ⟨pre, y, post', rfl, h⟩
  · rintro (⟨pre, y, post, rfl, h⟩ | ⟨y, rfl, h⟩)
    · exact ⟨pre, y, post ++ [e], by simp, h⟩
    · exact ⟨es, y, [], rfl, h⟩

theorem not_somewhere_nil (p : List Event → Extraction → Prop) : ¬ Somewhere p [] := by
  rintro ⟨pre, y, post, heq, -⟩
  exact absurd heq (by simp)

/-! ## Liveness -/

/-- `lastSuccess` is the time of the last success. -/
def LastSuccess (es : List Event) (t : ℚ) : Prop :=
  (t = 0 ∧ ∀ e ∈ es, e.success = none) ∨
    ((∃ e ∈ es, e.success = some t) ∧ ∀ e ∈ es, ∀ t' ∈ e.success, t' ≤ t)

theorem Event.client_lastSuccess (c : PrometheusClient) (e : Event) :
    (e.client c).lastSuccess = e.success.getD c.lastSuccess := by
  cases e with
  | extract y =>
    simp only [client, success, PrometheusClient.query]
    split_ifs <;> rfl
  | query now result =>
    simp only [client, success, PrometheusClient.query]
    split_ifs <;> rfl

theorem LastSuccess.snoc {es : List Event} {e : Event} {c : PrometheusClient}
    (h : LastSuccess es c.lastSuccess) (ht : Timed (es ++ [e])) :
    LastSuccess (es ++ [e]) (e.client c).lastSuccess := by
  obtain ⟨hes, hle⟩ := ht.of_snoc
  rw [e.client_lastSuccess]
  cases he : e.success with
  | some t =>
    have hlt := (ht.success (List.mem_append_right es List.mem_cons_self) he).1
    refine Or.inr ⟨⟨e, by simp, he⟩, fun e' he' t' ht' => ?_⟩
    rcases List.mem_append.mp he' with he' | he'
    · exact (hes.success he' ht').2.trans ((hle e' he').trans hlt)
    · rw [List.mem_singleton.mp he', he] at ht'
      exact (Option.some.inj ht').ge
  | none =>
    rcases h with ⟨h0, hnone⟩ | ⟨⟨e', he', hs⟩, hlast⟩
    · refine Or.inl ⟨h0, fun e' he' => ?_⟩
      rcases List.mem_append.mp he' with he' | he'
      · exact hnone e' he'
      · rwa [List.mem_singleton.mp he']
    · refine Or.inr ⟨⟨e', List.mem_append_left _ he', hs⟩, fun e'' he'' t' ht' => ?_⟩
      rcases List.mem_append.mp he'' with he'' | he''
      · exact hlast e'' he'' t' ht'
      · rw [List.mem_singleton.mp he'', he] at ht'
        exact absurd ht' (by simp)

/-- The client's test is for a success less than 15 s before. -/
theorem LastSuccess.any_iff {es : List Event} {c : PrometheusClient}
    (h : LastSuccess es c.lastSuccess) (ht : Timed es) (now : ℚ) :
    (c.secondsSinceLive now).any (· < 15) = true ↔ ∃ e ∈ es, ∃ t ∈ e.success, now - t < 15 := by
  rw [PrometheusClient.secondsSinceLive]
  rcases h with ⟨h0, hnone⟩ | ⟨⟨e, he, hs⟩, hlast⟩
  · rw [if_pos h0]
    refine ⟨fun h => absurd h (by simp), ?_⟩
    rintro ⟨e, he, t, hs, -⟩
    rw [hnone e he] at hs
    exact absurd hs (by simp)
  · have hpos := (ht.pos e he).trans_le (ht.success he hs).1
    rw [if_neg hpos.ne', Option.any_some, decide_eq_true_iff]
    refine ⟨fun hlt => ⟨e, he, _, hs, hlt⟩, ?_⟩
    rintro ⟨e', he', t', hs', hlt⟩
    linarith [hlast e' he' t' hs']

/-- A test at an extraction tells whether it is live. -/
theorem live_iff {es : List Event} {y : Extraction} {c : PrometheusClient}
    (h : LastSuccess es c.lastSuccess) (ht : Timed (es ++ [.extract y])) :
    (((Event.extract y).client c).secondsSinceLive y.tested).any (· < 15) = true ↔ Live es y :=
  (h.snoc ht).any_iff ht y.tested

/-! ## What is kept -/

theorem lastLive_extract {es : List Event} {x y : Extraction} :
    LastLive (es ++ [.extract y]) x ↔ Live es y ∧ x = y ∨ ¬ Live es y ∧ LastLive es x := by
  constructor
  · intro h
    generalize heq : es ++ [Event.extract y] = es' at h
    cases h with
    | live hl =>
      obtain ⟨rfl, h2⟩ := List.append_inj' heq rfl
      obtain rfl := Event.extract.inj (List.singleton_inj.mp h2)
      exact Or.inl ⟨hl, rfl⟩
    | idle hx hl =>
      obtain ⟨rfl, h2⟩ := List.append_inj' heq rfl
      obtain rfl := Event.extract.inj (List.singleton_inj.mp h2)
      exact Or.inr ⟨hl, hx⟩
    | query hx now result =>
      obtain ⟨-, h2⟩ := List.append_inj' heq rfl
      exact absurd (List.singleton_inj.mp h2) (by simp)
  · rintro (⟨hl, rfl⟩ | ⟨hl, hx⟩)
    · exact .live hl
    · exact .idle hx hl

theorem lastLive_query {es : List Event} {x : Extraction} {now : ℚ} {result : Option (List Row)} :
    LastLive (es ++ [.query now result]) x ↔ LastLive es x := by
  refine ⟨fun h => ?_, fun h => h.query now result⟩
  generalize heq : es ++ [Event.query now result] = es' at h
  cases h with
  | live hl => exact absurd (List.singleton_inj.mp (List.append_inj' heq rfl).2) (by simp)
  | idle hx hl => exact absurd (List.singleton_inj.mp (List.append_inj' heq rfl).2) (by simp)
  | query hx =>
    obtain ⟨rfl, -⟩ := List.append_inj' heq rfl
    exact hx

theorem not_lastLive_nil (x : Extraction) : ¬ LastLive [] x := by
  intro h
  generalize heq : ([] : List Event) = es at h
  cases h <;> exact absurd heq (by simp)

/-- A kept extraction was live in its place. -/
theorem LastLive.somewhere {es : List Event} {x : Extraction} (h : LastLive es x) :
    Somewhere (fun pre y => y = x ∧ Live pre y) es := by
  induction h with
  | live hl => exact somewhere_snoc.mpr (Or.inr ⟨_, rfl, rfl, hl⟩)
  | idle hx hl ih => exact somewhere_snoc.mpr (Or.inl ih)
  | query hx now result ih => exact somewhere_snoc.mpr (Or.inl ih)

/-- What the extractor has kept : the features of the last live extraction. -/
structure Keeps (es : List Event) (x : FeatureExtractor) : Prop where
  kept : ∀ y, LastLive es y → x = ⟨some (y.features mean), y.stamped⟩
  empty : (∀ y, ¬ LastLive es y) → x.cache = none

/-- What an extraction returns : the features of the one that it serves, or zeros. -/
structure Returns (es : List Event) (y : Extraction) (f : Features) : Prop where
  served : ∀ x, Serves es y x → f = x.features mean
  static : (∀ x, ¬ Serves es y x) → f = .static

section Extraction

variable {es : List Event} {x : FeatureExtractor} {c : PrometheusClient} {y : Extraction}

theorem Keeps.live (hl : Live es y) :
    Keeps mean (es ++ [.extract y]) ⟨some (y.features mean), y.stamped⟩ := by
  refine ⟨fun z hz => ?_, fun hnone => absurd (.live hl) (hnone y)⟩
  rcases lastLive_extract.mp hz with ⟨-, rfl⟩ | ⟨hn, -⟩
  · rfl
  · exact absurd hl hn

theorem Keeps.idle (h : Keeps mean es x) (hl : ¬ Live es y) :
    Keeps mean (es ++ [.extract y]) x := by
  refine ⟨fun z hz => ?_, fun hnone => h.empty fun z hz => hnone z (.idle hz hl)⟩
  rcases lastLive_extract.mp hz with ⟨hy, -⟩ | ⟨-, hz⟩
  · exact absurd hy hl
  · exact h.kept z hz

theorem Keeps.query (h : Keeps mean es x) (now : ℚ) (result : Option (List Row)) :
    Keeps mean (es ++ [.query now result]) x :=
  ⟨fun z hz => h.kept z (lastLive_query.mp hz),
    fun hnone => h.empty fun z hz => hnone z (lastLive_query.mpr hz)⟩

theorem Returns.live (hl : Live es y) : Returns mean es y (y.features mean) := by
  refine ⟨fun z hz => ?_, fun hnone => absurd (.fresh hl) (hnone y)⟩
  cases hz with
  | fresh => rfl
  | kept hn => exact absurd hl hn

/-- Behind an extraction that is not live, the age of what is kept decides. -/
theorem Returns.idle (h : Keeps mean es x) (hl : ¬ Live es y) :
    Returns mean es y
      (if y.stamped - x.cacheAt ≤ 120 then x.cache.getD .static else .static) := by
  refine ⟨fun z hz => ?_, fun hnone => ?_⟩
  · cases hz with
    | fresh hy => exact absurd hy hl
    | kept hn hz hage =>
      obtain rfl := h.kept z hz
      exact if_pos hage
  · by_cases hex : ∃ z, LastLive es z
    · obtain ⟨z, hz⟩ := hex
      obtain rfl := h.kept z hz
      exact if_neg fun hage => hnone z (.kept hl hz hage)
    · rw [h.empty fun z hz => hex ⟨z, hz⟩]
      exact ite_self _

/-- One extraction : what it returns, and what the extractor keeps behind it. -/
theorem extract_spec (h : Keeps mean es x) (hc : LastSuccess es c.lastSuccess)
    (ht : Timed (es ++ [.extract y])) :
    Returns mean es y (x.extract ((Event.extract y).client c) y.tested y.stamped
        (y.features mean)).1 ∧
      Keeps mean (es ++ [.extract y]) (x.extract ((Event.extract y).client c) y.tested y.stamped
        (y.features mean)).2 := by
  rw [FeatureExtractor.extract]
  by_cases hl : Live es y
  · rw [if_pos ((live_iff hc ht).mpr hl)]
    exact ⟨.live mean hl, .live mean hl⟩
  · rw [if_neg (mt (live_iff hc ht).mp hl)]
    have hidle := Returns.idle mean h hl
    split_ifs at hidle ⊢
    · exact ⟨hidle, h.idle mean hl⟩
    · exact ⟨hidle, h.idle mean hl⟩

end Extraction

/-! ## Runs -/

/-- What holds behind the events so far. -/
structure Inv (es : List Event) (s : State) : Prop where
  client : LastSuccess es s.client.lastSuccess
  extractor : Keeps mean es s.extractor
  returned : ∀ p ∈ s.returned,
    Somewhere (fun pre y => p.1 = y.returned ∧ Returns mean pre y p.2) es
  covered : ∀ q, Somewhere q es →
    ∃ p ∈ s.returned, Somewhere (fun pre y => q pre y ∧ p.1 = y.returned ∧
      Returns mean pre y p.2) es

theorem Inv.extract {es : List Event} {s : State} (h : Inv mean es s) {y : Extraction}
    (ht : Timed (es ++ [.extract y])) :
    Inv mean (es ++ [.extract y]) (step mean s (.extract y)) := by
  obtain ⟨hret, hkeep⟩ := extract_spec mean h.extractor h.client ht
  refine ⟨h.client.snoc ht, hkeep, fun p hp => ?_, fun q hq => ?_⟩
  · rcases List.mem_append.mp hp with hp | hp
    · exact somewhere_snoc.mpr (Or.inl (h.returned p hp))
    · rw [List.mem_singleton.mp hp]
      exact somewhere_snoc.mpr (Or.inr ⟨y, rfl, rfl, hret⟩)
  · rcases somewhere_snoc.mp hq with hq | ⟨y', heq, hq⟩
    · obtain ⟨p, hp, hs⟩ := h.covered q hq
      exact ⟨p, List.mem_append_left _ hp, somewhere_snoc.mpr (Or.inl hs)⟩
    · obtain rfl := Event.extract.inj heq
      exact ⟨_, List.mem_append_right _ List.mem_cons_self,
        somewhere_snoc.mpr (Or.inr ⟨y, rfl, hq, rfl, hret⟩)⟩

theorem Inv.query {es : List Event} {s : State} (h : Inv mean es s) {now : ℚ}
    {result : Option (List Row)} (ht : Timed (es ++ [.query now result])) :
    Inv mean (es ++ [.query now result]) (step mean s (.query now result)) := by
  refine ⟨h.client.snoc ht, h.extractor.query mean now result,
    fun p hp => somewhere_snoc.mpr (Or.inl (h.returned p hp)), fun q hq => ?_⟩
  rcases somewhere_snoc.mp hq with hq | ⟨y, heq, -⟩
  · obtain ⟨p, hp, hs⟩ := h.covered q hq
    exact ⟨p, hp, somewhere_snoc.mpr (Or.inl hs)⟩
  · exact absurd heq (by simp)

theorem inv_run {es : List Event} (ht : Timed es) : Inv mean es (run mean es) := by
  induction es using List.reverseRecOn with
  | nil =>
    exact ⟨Or.inl ⟨rfl, by simp⟩, ⟨fun y hy => absurd hy (not_lastLive_nil y), fun _ => rfl⟩,
      fun p hp => absurd hp List.not_mem_nil, fun q hq => absurd hq (not_somewhere_nil q)⟩
  | append_singleton es e ih =>
    rw [run_snoc]
    have hinv := ih ht.of_snoc.1
    cases e with
    | extract y => exact hinv.extract mean ht
    | query now result => exact hinv.query mean ht

/-! ## Honesty -/

/-- What an extraction serves was itself live in the run, no later than it. -/
theorem Serves.somewhere {pre post : List Event} {y x : Extraction} (h : Serves pre y x)
    (ht : Timed (pre ++ .extract y :: post)) :
    Somewhere (fun pre' x' => x' = x ∧ Live pre' x') (pre ++ .extract y :: post) ∧
      x.made ≤ y.returned := by
  have hy : y.made ≤ y.returned := (ht.ordered y (by simp)).le
  cases h with
  | fresh hl => exact ⟨⟨pre, y, post, rfl, rfl, hl⟩, hy⟩
  | kept hn hx hage =>
    obtain ⟨a, x', b, rfl, rfl, hl⟩ := hx.somewhere
    have hx' : x'.made ≤ x'.returned := (ht.ordered x' (by simp)).le
    have hle : x'.returned ≤ y.made :=
      (List.pairwise_append.mp ht.sorted).2.2 (.extract x') (by simp) (.extract y) (by simp)
    exact ⟨⟨a, x', b ++ .extract y :: post, by simp, rfl, hl⟩, hx'.trans (hle.trans hy)⟩

/-- Rates of a query that has succeeded in time are genuine. -/
theorem genuine_of_rate {es : List Event} {x : Extraction} (hx : .extract x ∈ es)
    {rows : List Row} (hrate : x.rate = some rows) {t : ℚ} (hle : x.made ≤ t)
    (hage : x.Informs → t - x.made ≤ 120) (r : Region) (u : Tier) :
    Genuine es t ((x.features mean).rps r u) := by
  rcases x.features_some mean hrate r u with ⟨heq, -⟩ | ⟨row, hrow, hk, heq⟩
  · exact Or.inl heq
  · exact Or.inr ⟨x.made, ⟨x, rows, row, hx, rfl, hrate, hrow, heq⟩, hle,
      hage ⟨rows, hrate, row, hrow, r, u, hk⟩⟩

theorem honest_of_not {es : List Event} (ht : Timed es) (hm : ¬ Masked es) (ho : ¬ Overdue es) :
    Honest mean es := by
  intro p hp r u
  obtain ⟨pre, y, post, rfl, hat, hret⟩ := (inv_run mean ht).returned p hp
  by_cases hex : ∃ x, Serves pre y x
  · obtain ⟨x, hx⟩ := hex
    obtain ⟨⟨a, x', b, heq, rfl, hl⟩, hle⟩ := hx.somewhere ht
    rw [hret.served x' hx, hat]
    cases hrate : x'.rate with
    | none => exact absurd ⟨a, x', b, heq, hrate, hl⟩ hm
    | some rows =>
      refine genuine_of_rate mean (heq ▸ by simp) hrate hle (fun hi => ?_) r u
      exact not_lt.mp fun hlt => ho ⟨pre, y, post, rfl, x', hx, hi, hlt⟩
  · rw [hret.static fun x hx => hex ⟨x, hx⟩]
    exact Or.inl rfl

/-- A rate that is genuine is not made up, and not too old. -/
theorem Genuine.source {es : List Event} {t : ℚ} {x : Reading} (h : Genuine es t x) :
    x.source ≠ .synthetic ∧ ∀ made row, x.source = .query made row → t - made ≤ 120 := by
  rcases h with rfl | ⟨made, ⟨-, -, row, -, -, -, -, rfl⟩, -, hage⟩
  · exact ⟨by simp, by simp⟩
  · refine ⟨by simp, fun made' row' heq => ?_⟩
    obtain ⟨rfl, -⟩ := Source.query.inj heq
    exact hage

theorem not_masked_of_honest {es : List Event} (ht : Timed es) (h : Honest mean es) :
    ¬ Masked es := by
  intro hm
  obtain ⟨p, hp, pre, y, post, -, ⟨hrate, hl⟩, -, hret⟩ := (inv_run mean ht).covered _ hm
  have hg := h p hp .us .free
  rw [hret.served y (.fresh hl), y.features_none mean hrate] at hg
  exact hg.source.1 rfl

theorem not_overdue_of_honest {es : List Event} (ht : Timed es) (h : Honest mean es) :
    ¬ Overdue es := by
  intro ho
  obtain ⟨p, hp, pre, y, post, -, ⟨x, hx, hi, hlt⟩, hat, hret⟩ := (inv_run mean ht).covered _ ho
  obtain ⟨r, u, row, hsrc⟩ := hi.exists_source mean
  have hg := h p hp r u
  rw [hret.served x hx, hat] at hg
  exact absurd (hg.source.2 _ _ hsrc) (not_le.mpr hlt)

/-- **No made-up rates, no old ones.** The rates that the extractor returns in a run are all
genuine exactly if no failed query of the rates is masked and none of the rates is overdue. -/
theorem honest_iff {es : List Event} (ht : Timed es) :
    Honest mean es ↔ ¬ Masked es ∧ ¬ Overdue es :=
  ⟨fun h => ⟨not_masked_of_honest mean ht h, not_overdue_of_honest mean ht h⟩,
    fun h => honest_of_not mean ht h.1 h.2⟩

theorem sampleExtraction_ordered (now : ℚ) (rate rejection : Option (List Row)) :
    (sampleExtraction now rate rejection).Ordered := by
  constructor <;> simp only [sampleExtraction] <;> linarith

/-- An extraction that fails is not live 15 s behind the last success. -/
theorem not_live_sampleExtraction {es : List Event} {now : ℚ}
    (hes : ∀ e ∈ es, ∀ t ∈ e.success, 15 ≤ now + 2 - t) :
    ¬ Live es (sampleExtraction now none none) := by
  rintro ⟨e, he, t, hs, hlt⟩
  rcases List.mem_append.mp he with he | he
  · exact absurd hlt (not_lt.mpr (hes e he t hs))
  · rw [List.mem_singleton.mp he] at hs
    exact absurd hs (by simp [Event.success, sampleExtraction])

theorem lastLive_singleton {x y : Extraction} (h : LastLive ([] ++ [.extract y]) x) :
    x = y := by
  rcases lastLive_extract.mp h with ⟨-, rfl⟩ | ⟨-, h⟩
  · rfl
  · exact absurd h (not_lastLive_nil x)

theorem honest_sample : Timed sampleEvents ∧ (¬ Masked sampleEvents ∧ ¬ Overdue sampleEvents) ∧
    Honest sampleMean sampleEvents := by
  let y₁ := sampleExtraction 1000 (some [⟨some (str "us"), some (str "free"), some (.ofInt 7)⟩])
    (some [])
  let y₂ := sampleExtraction 1030 none none
  let y₃ := sampleExtraction 1200 none none
  have ht : Timed sampleEvents := by
    refine ⟨?_, ?_, ?_⟩
    · simp [sampleEvents, Event.first, sampleExtraction]
    · simp [sampleEvents, sampleExtraction_ordered]
    · norm_num [sampleEvents, Event.first, Event.last, sampleExtraction]
  have h₂ : ¬ Live [.extract y₁] y₂ := not_live_sampleExtraction (by
    norm_num [Event.success, sampleExtraction, y₁])
  have h₃ : ¬ Live ([.extract y₁] ++ [.extract y₂]) y₃ := not_live_sampleExtraction (by
    norm_num [Event.success, sampleExtraction, y₁, y₂]
    exact fun t h => absurd h (by simp))
  have hm : ¬ Masked sampleEvents := by
    change ¬ Masked (([] ++ [.extract y₁] ++ [.extract y₂]) ++ [.extract y₃])
    rw [Masked, somewhere_snoc, somewhere_snoc, somewhere_snoc]
    rintro (((h | ⟨y, heq, hr, -⟩) | ⟨y, heq, -, hl⟩) | ⟨y, heq, -, hl⟩)
    · exact not_somewhere_nil _ h
    · obtain rfl := Event.extract.inj heq
      exact absurd hr (by simp [y₁, sampleExtraction])
    · obtain rfl := Event.extract.inj heq
      exact h₂ hl
    · obtain rfl := Event.extract.inj heq
      exact h₃ hl
  have ho : ¬ Overdue sampleEvents := by
    change ¬ Overdue (([] ++ [.extract y₁] ++ [.extract y₂]) ++ [.extract y₃])
    rw [Overdue, somewhere_snoc, somewhere_snoc, somewhere_snoc]
    rintro (((h | ⟨y, heq, x, hs, -, hlt⟩) | ⟨y, heq, x, hs, -, hlt⟩) | ⟨y, heq, x, hs, -, hlt⟩)
    · exact not_somewhere_nil _ h
    · obtain rfl := Event.extract.inj heq
      cases hs with
      | fresh => norm_num [y₁, sampleExtraction] at hlt
      | kept hn hx => exact not_lastLive_nil x hx
    · obtain rfl := Event.extract.inj heq
      cases hs with
      | fresh hl => exact h₂ hl
      | kept hn hx =>
        rw [lastLive_singleton hx] at hlt
        norm_num [y₁, y₂, sampleExtraction] at hlt
    · obtain rfl := Event.extract.inj heq
      cases hs with
      | fresh hl => exact h₃ hl
      | kept hn hx hage =>
        rcases lastLive_extract.mp hx with ⟨hl, -⟩ | ⟨-, hx⟩
        · exact h₂ hl
        · rw [lastLive_singleton hx] at hage
          norm_num [y₁, y₃, sampleExtraction] at hage
  exact ⟨ht, ⟨hm, ho⟩, (honest_iff _ ht).mpr ⟨hm, ho⟩⟩

/-- The query of the rates times out and the next one succeeds. The extractor returns, and
keeps, what the client has made up. -/
theorem honest_fails :
    Timed [.extract (sampleExtraction 1000 none (some []))] ∧
      ¬ Honest sampleMean [.extract (sampleExtraction 1000 none (some []))] := by
  have ht : Timed [.extract (sampleExtraction 1000 none (some []))] :=
    ⟨by simp [Event.first, sampleExtraction], by simp [sampleExtraction_ordered],
      List.pairwise_singleton _ _⟩
  have hl : Live [] (sampleExtraction 1000 none (some [])) :=
    ⟨_, List.mem_singleton_self _, 1000 + 2, rfl, by norm_num [sampleExtraction]⟩
  exact ⟨ht, fun h => not_masked_of_honest _ ht h ⟨[], _, [], rfl, rfl, hl⟩⟩

end Features

end Gdrl
