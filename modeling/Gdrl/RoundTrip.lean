import Gdrl.Coercion
import Gdrl.Messages

/-!
# Reconcile envelopes there and back

`serialize_reconcile` joins tier and user by a colon, and `parse` splits at the first one.
So an envelope comes back from its bytes where its tiers have no colon, whatever its users
are, and an envelope that `parse` has made has such tiers (`round_trip`). That `json.loads`
reads back what `json.dumps` prints is `Python.Inverts` of the one object.
-/

namespace Gdrl

/-- Tiers of accepted slots have no colon. -/
theorem colon_of_parseSlots {items : List (Str × Json)} {slots d : Dict (Str × Str) SlotValue}
    (hslots : ∀ e ∈ slots.entries, 58 ∉ e.1.1) (h : parseSlots slots items = .ok d) :
    ∀ e ∈ d.entries, 58 ∉ e.1.1 := by
  induction items generalizing slots with
  | nil =>
    obtain rfl := Except.ok.inj h
    exact hslots
  | cons item items ih =>
    obtain ⟨key, v⟩ := item
    rw [parseSlots] at h
    cases hsplit : splitKey key with
    | none =>
      rw [hsplit] at h
      exact absurd h (raiseEnvelope_ne_ok _ d)
    | some p =>
      rw [hsplit] at h
      cases hvalue : asSlotValue v with
      | none =>
        simp only [hvalue] at h
        exact absurd h (raiseEnvelope_ne_ok _ d)
      | some value =>
        simp only [hvalue] at h
        refine ih (fun e he => ?_) h
        rcases Dict.mem_entries_set he with rfl | he
        · exact (splitKey_some hsplit).1
        · exact hslots e he

/-- Tiers of a parsed envelope have no colon. -/
theorem colon_of_parse {py : Python} {raw : List Byte} {env : ReconcileEnvelope}
    (h : parse py raw = .ok (.reconcile env)) : ∀ e ∈ env.slots.entries, 58 ∉ e.1.1 := by
  obtain ⟨obj, hloads⟩ := loads_of_parse h
  cases hkind : isReconcile obj with
  | false =>
    rw [parse_of_counter hloads hkind] at h
    obtain ⟨_, _, hne⟩ := map_eq_ok h
    exact absurd hne nofun
  | true =>
    rw [parse_of_reconcile hloads hkind] at h
    obtain ⟨env', henv, heq⟩ := map_eq_ok h
    obtain rfl := Envelope.reconcile.inj heq
    obtain ⟨-, -, -, ⟨items, -, hslots⟩, -⟩ := parseReconcile_eq_ok_iff.mp henv
    exact colon_of_parseSlots (fun _ he => absurd he List.not_mem_nil) hslots

/-- **There and back.** Where Python's JSON returns what it has printed, an envelope whose
tiers have no colon comes back from its bytes, and so does every envelope that `parse` has
accepted. -/
theorem round_trip (py : Python) :
    (∀ env : ReconcileEnvelope, (∀ e ∈ env.slots.entries, 58 ∉ e.1.1) →
      py.Inverts env.toJson → env.RoundTrips py) ∧
    ∀ raw env, parse py raw = .ok (.reconcile env) → py.Inverts env.toJson →
      env.RoundTrips py :=
  ⟨fun _ hcolon hjson => ReconcileEnvelope.roundTrips hcolon hjson,
    fun _ _ hparse hjson => ReconcileEnvelope.roundTrips (colon_of_parse hparse) hjson⟩

/-- A user with a colon, and a tier and a user without a name. -/
def oddUsers : ReconcileEnvelope where
  origin := .eu
  windowId := 7
  tsMs := 420000
  slots := ⟨[((str "free", str "a:b"), ⟨.int 6, by decide⟩), (([], []), ⟨.int 0, by decide⟩)],
    by decide⟩
  version := .int

theorem round_trip_sample : oddUsers.RoundTrips samplePython ∧
    ∃ raw, parse samplePython raw = .ok (.reconcile oddUsers) ∧
      oddUsers.RoundTrips samplePython := by
  have hslots : PlainSlots oddUsers.slots := by
    refine ⟨by decide, by decide, fun e he => ?_⟩
    simp only [oddUsers, List.mem_cons, List.not_mem_nil, or_false] at he
    rcases he with rfl | rfl
    · exact ⟨6, rfl, by decide⟩
    · exact ⟨0, rfl, by decide⟩
  have hjson := @inverts_toJson samplePython oddUsers ⟨rfl, by decide, by decide, hslots⟩
  obtain ⟨raw, hserialize, hparse⟩ := (round_trip samplePython).1 oddUsers hslots.colon hjson
  exact ⟨⟨raw, hserialize, hparse⟩, raw, hparse,
    (round_trip samplePython).2 raw oddUsers hparse hjson⟩

end Gdrl
