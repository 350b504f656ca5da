import Gdrl.Decider
import Gdrl.Chunks
import Gdrl.Overrides

/-!
# The decision log

`DecisionLog.append` puts every decision of the agent as a line of JSON at the end of a file.
`write_policy` appends when `SETEX` has returned, or when the region has no client, and
`write_override` appends in any case. So the lines of the file are the decisions that were
returned, and what the agent has put into a Redis is a line of the file, but for a policy whose
`SETEX` took effect and raised (`trail_of_run`).
-/

namespace Gdrl

/-! ## Printed text has no newline -/

namespace Style

variable (st : Style) (hesc : ∀ c, (10 : CodePoint) ∉ st.esc c) (hgap : (10 : CodePoint) ∉ st.gap)

include hesc in
theorem newline_notMem_printString (s : Str) : 10 ∉ st.printString s := by
  simp only [printString, List.mem_cons, List.mem_append, List.mem_flatMap, List.not_mem_nil,
    or_false, not_or, not_exists, not_and]
  exact ⟨by decide, fun c _ => hesc c, by decide⟩

include hesc hgap

set_option linter.unusedSectionVars false in
mutual

/-- A style that neither escapes to a newline nor pads with one prints none. -/
theorem newline_notMem_print : ∀ v : Json, 10 ∉ st.print v
  | .null => (by decide : 10 ∉ Gdrl.str "null")
  | .bool true => (by decide : 10 ∉ Gdrl.str "true")
  | .bool false => (by decide : 10 ∉ Gdrl.str "false")
  | .int n => fun h => by
    rcases isDigit_of_mem_intText h with h | h
    · exact absurd h (by decide)
    · exact absurd h (by decide)
  | .float x => fun h => absurd ((st.float_word x).2 10 h) (by decide)
  | .str s => st.newline_notMem_printString hesc s
  | .arr [] => by
    rw [print]
    decide
  | .arr (v :: vs) => by
    have hv := newline_notMem_print v
    have hvs := newline_notMem_printElems vs
    rw [print]
    simp only [List.mem_cons, List.mem_append, hv, hvs, List.not_mem_nil, or_false, false_or]
    decide
  | .obj [] => by
    rw [print]
    decide
  | .obj ((k, v) :: kvs) => by
    have hk := st.newline_notMem_printString hesc k
    have hv := newline_notMem_print v
    have hkvs := newline_notMem_printMembers kvs
    rw [print]
    simp only [List.mem_cons, List.mem_append, hk, hv, hkvs, hgap, List.not_mem_nil, or_false,
      false_or]
    decide

theorem newline_notMem_printElems : ∀ vs : List Json, 10 ∉ st.printElems vs
  | [] => List.not_mem_nil
  | v :: vs => by
    have hv := newline_notMem_print v
    have hvs := newline_notMem_printElems vs
    rw [printElems]
    simp only [List.mem_cons, List.mem_append, hv, hvs, hgap, or_false]
    decide

theorem newline_notMem_printMembers : ∀ kvs : List (Str × Json), 10 ∉ st.printMembers kvs
  | [] => List.not_mem_nil
  | (k, v) :: kvs => by
    have hk := st.newline_notMem_printString hesc k
    have hv := newline_notMem_print v
    have hkvs := newline_notMem_printMembers kvs
    rw [printMembers]
    simp only [List.mem_cons, List.mem_append, hk, hv, hkvs, hgap, or_false, false_or]
    decide

end

end Style

theorem newline_notMem_hexEscape (n : ℕ) : 10 ∉ hexEscape n := by
  have hdigit : ∀ k, 10 ≠ hexDigit (k % 16) := by
    intro k h
    have hval := congrArg Fin.val h
    rw [hexDigit, codePoint_val] at hval
    split_ifs at hval
    · exact absurd hval (by simp; omega)
    · exact absurd hval (by simp; omega)
  simp only [hexEscape, List.mem_cons, hdigit, List.not_mem_nil, or_false]
  decide

theorem newline_notMem_pyEsc (c : CodePoint) : 10 ∉ pyEsc c := by
  unfold pyEsc
  cases he : escapeLetter c with
  | some l =>
    unfold escapeLetter at he
    split_ifs at he
    all_goals
      obtain rfl := Option.some.inj he
      dsimp only
      decide
  | none =>
    dsimp only
    split_ifs with h1 h2
    · intro h
      obtain rfl := List.mem_singleton.mp h
      exact absurd he (by decide)
    · exact newline_notMem_hexEscape _
    · simp only [List.mem_append, newline_notMem_hexEscape, or_self, not_false_eq_true]

/-! ## Files of lines -/

/-- The lines of a file, as iterating over it yields them, less the newlines. -/
def lines : List Byte → List (List Byte)
  | [] => []
  | b :: bs =>
    if b = 10 then [] :: lines bs
    else match lines bs with
      | [] => [[b]]
      | l :: ls => (b :: l) :: ls

theorem lines_line {l : List Byte} (hl : 10 ∉ l) (rest : List Byte) :
    lines (l ++ 10 :: rest) = l :: lines rest := by
  induction l with
  | nil => rw [List.nil_append, lines, if_pos rfl]
  | cons b l ih =>
    rw [List.mem_cons, not_or] at hl
    rw [List.cons_append, lines, if_neg (Ne.symm hl.1), ih hl.2]

/-- A file of lines is read line by line. -/
theorem lines_flatMap {α : Type*} {f : α → List Byte} (hf : ∀ x, 10 ∉ f x) (xs : List α) :
    lines (xs.flatMap fun x => f x ++ [10]) = xs.map f := by
  induction xs with
  | nil => rfl
  | cons x xs ih =>
    rw [List.flatMap_cons, List.append_assoc, List.singleton_append, lines_line (hf x), ih,
      List.map_cons]

theorem newline_notMem_utf8Encode {s : Str} (hs : Ascii s) (h : 10 ∉ s) : 10 ∉ utf8Encode s := by
  rw [utf8Encode, List.mem_flatMap]
  rintro ⟨c, hc, hb⟩
  rw [utf8Char, if_pos (hs c hc), List.mem_singleton] at hb
  have hval : c.val = 10 := by
    have hbyte := congrArg Fin.val hb
    have hlt := hs c hc
    rw [byte_val, Nat.mod_eq_of_lt (by omega)] at hbyte
    exact hbyte.symm
  exact h ((Fin.ext hval : c = 10) ▸ hc)

/-- A dictionary that the agent logs. -/
abbrev DecisionDict := List (Str × Json)

/-- `json.dumps(decision)`, as the bytes it takes. -/
def DecisionDict.text (py : Python) (d : DecisionDict) : List Byte :=
  utf8Encode ((PolicyWriter.defaultStyle py).print (.obj d))

theorem DecisionDict.newline_notMem_text (py : Python) (d : DecisionDict) : 10 ∉ d.text py :=
  newline_notMem_utf8Encode (ascii_pyStyle py _ _)
    (Style.newline_notMem_print _ newline_notMem_pyEsc
      (show (10 : CodePoint) ∉ ([32] : Str) by decide) _)

/-- An object of integers and of strings without surrogates is read back from its text. -/
theorem DecisionDict.loads_text (py : Python) {d : DecisionDict} (hne : d ≠ [])
    (hkeys : (d.map Prod.fst).Nodup) (hscalar : ∀ e ∈ d, Scalar e.1)
    (hvalue : ∀ e ∈ d, (∃ s, e.2 = .str s ∧ Scalar s) ∨ ∃ n, e.2 = .int n ∧ Printable n) :
    loads py (d.text py) = .ok (.obj d) := by
  have hmembers : ∀ kvs : DecisionDict, (∀ e ∈ kvs, e ∈ d) →
      ReadsMembers (pyDialect py) (PolicyWriter.defaultStyle py) 1 kvs kvs := by
    intro kvs
    induction kvs with
    | nil => exact fun _ => .nil
    | cons e kvs ih =>
      intro hmem
      rw [List.forall_mem_cons] at hmem
      refine readsMembers_cons (faithful_pyStyle _ _ _ (hscalar e hmem.1)) ?_ (ih hmem.2)
      rcases hvalue e hmem.1 with ⟨s, heq, hs⟩ | ⟨n, heq, hn⟩
      · exact heq ▸ reads_str (faithful_pyStyle _ _) hs 1
      · exact heq ▸ reads_int hn 1
  obtain ⟨⟨k, v⟩, kvs, rfl⟩ := List.exists_cons_of_ne_nil hne
  exact loads_print (reads_obj (two_pos.trans_le py.two_le_maxDepth) hkeys
    (hmembers _ fun _ he => he))

/-! ## The log and the writer -/

/-- `DecisionLog.append` : the file behind it. A decision without a time gets one. -/
def DecisionLog.append (py : Python) (now : PolicyWriter.Stamp) (log : List Byte)
    (d : DecisionDict) : Except PyError (List Byte) :=
  let d := if (d.lookup (str "created_at")).isSome then d
    else d ++ [(str "created_at", .str now.iso)]
  (dumps (PolicyWriter.defaultStyle py) (.obj d)).map fun text => log ++ utf8Encode (text ++ [10])

/-- `PolicyWriter` with the Redises it writes to and the file of its log. The clients are
those of the regions that answered at the start. -/
structure Trail where
  clients : Region → Bool
  redis : Region → Strings
  log : List Byte

namespace Trail

/-- What happens to the writer. It may start again on the same file. -/
inductive Event
  | policy (now : ℚ) (a : PolicyWriter.Args) (out : Outcome)
  | override (now : ℚ) (a : PolicyWriter.OverrideArgs) (out : Region → Outcome)
  | start (clients : Region → Bool)

/-- `self._log.append(decision)`, and `return decision`. -/
def record (py : Python) (s : Trail) (now : PolicyWriter.Stamp) (d : DecisionDict) :
    Option DecisionDict × Trail :=
  match DecisionLog.append py now s.log d with
  | .ok log => (some d, { s with log })
  | .error _ => (none, s)

/-- `PolicyWriter.write_policy`. It returns nothing where it raises. -/
def writePolicy (py : Python) (s : Trail) (now : ℚ) (a : PolicyWriter.Args) (out : Outcome) :
    Option DecisionDict × Trail :=
  if s.clients a.region then
    match PolicyWriter.writePolicy py a with
    | .error _ => (none, s)
    | .ok w =>
      let s := if out.applied then
          { s with redis := Function.update s.redis a.region ((s.redis a.region).setex now w) }
        else s
      if out = .ok then s.record py a.gmTime (PolicyWriter.policy a) else (none, s)
  else s.record py a.gmTime (PolicyWriter.policy a)

/-- `PolicyWriter.write_override`, which passes over what a client raises. -/
def writeOverride (py : Python) (s : Trail) (now : ℚ) (a : PolicyWriter.OverrideArgs)
    (out : Region → Outcome) : Option DecisionDict × Trail :=
  let s := match PolicyWriter.writeOverride py a with
    | .ok w =>
      { s with redis := fun r =>
          if s.clients r && (out r).applied then (s.redis r).setex now w else s.redis r }
    | .error _ => s
  s.record py a.gmTime (PolicyWriter.override a)

/-- One call, with what it returns. -/
def step (py : Python) (s : Trail) : Event → Option DecisionDict × Trail
  | .policy now a out => s.writePolicy py now a out
  | .override now a out => s.writeOverride py now a out
  | .start clients => (none, { s with clients })

/-- A call with what it has returned. -/
abbrev Call := Event × Option DecisionDict

abbrev Calls (py : Python) (s : Trail) (c : Call) (s' : Trail) : Prop :=
  s.step py c.1 = (c.2, s')

/-- The decisions that calls have returned. -/
def returned (cs : List Call) : List DecisionDict := cs.filterMap Prod.snd

/-- No decision, and nothing in the Redises. -/
def init (clients : Region → Bool) : Trail := ⟨clients, fun _ _ => none, []⟩

/-- In the Redis of `r`, the decision is kept under this key. -/
def Concerns (r : Region) (key : Str) (d : DecisionDict) : Prop :=
  (∃ t : Tier, d.lookup (str "region") = some (.str r.name) ∧
    d.lookup (str "tier") = some (.str t.name) ∧ key = Store.redisKey r t) ∨
  ∃ u, d.lookup (str "user_id") = some (.str u) ∧ key = PolicyWriter.overrideKey u

/-! ## What a call does -/

/-- A call leaves all as it is, stores a policy and raises, or logs what it returns. -/
inductive Effect (py : Python) (s : Trail) : Call → Trail → Prop
  | start (clients : Region → Bool) : Effect py s (.start clients, none) { s with clients }
  | raised (e : Event) : Effect py s (e, none) s
  | lost (now : ℚ) (a : PolicyWriter.Args) (redis : Region → Strings)
    (h : ∀ r key v, redis r key = some v → s.redis r key = some v ∨
      r = a.region ∧ key = Store.redisKey a.region a.tier ∧
        v.1 = DecisionDict.text py (PolicyWriter.policy a)) :
    Effect py s (.policy now a .lost, none) { s with redis }
  | logged (e : Event) (d : DecisionDict) (redis : Region → Strings)
    (hd : (∃ a, d = PolicyWriter.policy a) ∨ ∃ a, d = PolicyWriter.override a)
    (hprint : (Json.obj d).printable = true)
    (h : ∀ r key v, redis r key = some v → s.redis r key = some v ∨
      Concerns r key d ∧ v.1 = d.text py) :
    Effect py s (e, some d) ⟨s.clients, redis, s.log ++ (d.text py ++ [10])⟩

variable {py : Python} {s s' : Trail}

theorem record_eq (now : PolicyWriter.Stamp) {d : DecisionDict}
    (hd : (d.lookup (str "created_at")).isSome = true) :
    s.record py now d = if (Json.obj d).printable then
      (some d, { s with log := s.log ++ (d.text py ++ [10]) }) else (none, s) := by
  have htext : ∀ t : Str, utf8Encode (t ++ [10]) = utf8Encode t ++ [10] := fun t => by
    rw [utf8Encode, List.flatMap_append]
    rfl
  rw [record, DecisionLog.append, if_pos hd, dumps]
  split_ifs with hprint
  · simp only [Except.map, htext]
    rfl
  · rfl

theorem mem_setex {m : Strings} {now : ℚ} {w : PolicyWriter.Setex} {key : Str}
    {v : List Byte × ℚ} (h : m.setex now w key = some v) :
    m key = some v ∨ key = w.key ∧ v.1 = w.value := by
  unfold Strings.setex at h
  split_ifs at h with hkey
  · exact Or.inr ⟨hkey, (Option.some.inj h).symm ▸ rfl⟩
  · exact Or.inl h

theorem concerns_policy (a : PolicyWriter.Args) :
    Concerns a.region (Store.redisKey a.region a.tier) (PolicyWriter.policy a) :=
  Or.inl ⟨a.tier, rfl, rfl, rfl⟩

theorem concerns_override (r : Region) (a : PolicyWriter.OverrideArgs) :
    Concerns r (PolicyWriter.overrideKey a.userId) (PolicyWriter.override a) :=
  Or.inr ⟨a.userId, rfl, rfl⟩

/-- The append at the end of a call. -/
theorem effect_record {e : Event} {now : PolicyWriter.Stamp} {d : DecisionDict}
    (hd : (∃ a, d = PolicyWriter.policy a) ∨ ∃ a, d = PolicyWriter.override a)
    {redis : Region → Strings}
    (hprint : (Json.obj d).printable = false → redis = s.redis)
    (h : ∀ r key v, redis r key = some v → s.redis r key = some v ∨
      Concerns r key d ∧ v.1 = d.text py) :
    Effect py s (e, ({ s with redis }.record py now d).1) ({ s with redis }.record py now d).2 := by
  have hat : (d.lookup (str "created_at")).isSome = true := by
    rcases hd with ⟨a, rfl⟩ | ⟨a, rfl⟩ <;> rfl
  rw [record_eq now hat]
  cases hp : (Json.obj d).printable with
  | true => exact .logged e d redis hd hp h
  | false =>
    rw [hprint hp]
    exact .raised e

theorem effect_policy (now : ℚ) (a : PolicyWriter.Args) (out : Outcome) :
    Effect py s (.policy now a out, (s.writePolicy py now a out).1)
      (s.writePolicy py now a out).2 := by
  unfold writePolicy
  cases s.clients a.region with
  | false => exact effect_record (Or.inl ⟨a, rfl⟩) (fun _ => rfl) fun _ _ _ h => Or.inl h
  | true =>
    rw [if_pos rfl]
    cases hw : PolicyWriter.writePolicy py a with
    | error e => exact .raised _
    | ok w =>
      obtain ⟨hkey, hvalue⟩ := PolicyWriter.writePolicy_ok hw
      have hredis : ∀ r key v,
          Function.update s.redis a.region ((s.redis a.region).setex now w) r key = some v →
            s.redis r key = some v ∨ r = a.region ∧ key = Store.redisKey a.region a.tier ∧
              v.1 = DecisionDict.text py (PolicyWriter.policy a) := by
        intro r key v h
        by_cases hr : r = a.region
        · subst hr
          rw [Function.update_self] at h
          rcases mem_setex h with h | ⟨h, hv⟩
          · exact Or.inl h
          · exact Or.inr ⟨rfl, h.trans hkey, hv.trans hvalue⟩
        · rw [Function.update_of_ne hr] at h
          exact Or.inl h
      cases out with
      | ok =>
        refine effect_record (Or.inl ⟨a, rfl⟩) (fun hp => ?_) fun r key v h => ?_
        · rw [PolicyWriter.writePolicy, dumps, hp] at hw
          cases hw
        · refine (hredis r key v h).imp_right ?_
          rintro ⟨rfl, rfl, hv⟩
          exact ⟨concerns_policy a, hv⟩
      | lost => exact .lost now a _ hredis
      | failed => exact .raised _

theorem effect_override (now : ℚ) (a : PolicyWriter.OverrideArgs) (out : Region → Outcome) :
    Effect py s (.override now a out, (s.writeOverride py now a out).1)
      (s.writeOverride py now a out).2 := by
  unfold writeOverride
  cases hw : PolicyWriter.writeOverride py a with
  | error e => exact effect_record (Or.inr ⟨a, rfl⟩) (fun _ => rfl) fun _ _ _ h => Or.inl h
  | ok w =>
    refine effect_record (Or.inr ⟨a, rfl⟩) (fun hp => ?_) fun r key v h => ?_
    · rw [PolicyWriter.writeOverride, dumps, hp] at hw
      cases hw
    · split_ifs at h
      · refine (mem_setex h).imp_right ?_
        rintro ⟨rfl, hv⟩
        rw [PolicyWriter.writeOverride_ok hw] at hv ⊢
        exact ⟨concerns_override r a, hv⟩
      · exact Or.inl h

theorem effect {c : Call} (h : Calls py s c s') : Effect py s c s' := by
  obtain ⟨e, d⟩ := c
  have hd : d = (s.step py e).1 := (congrArg Prod.fst h).symm
  have hs : s' = (s.step py e).2 := (congrArg Prod.snd h).symm
  subst hd hs
  cases e with
  | policy now a out => exact effect_policy now a out
  | override now a out => exact effect_override now a out
  | start clients => exact .start clients

/-! ## Runs -/

/-- The value is that of a decision that some call has returned, or of one whose `SETEX` took
effect and raised. -/
def Accounted (py : Python) (cs : List Call) (r : Region) (key : Str) (value : List Byte) : Prop :=
  (∃ d ∈ returned cs, Concerns r key d ∧ value = d.text py) ∨
  ∃ now a, (.policy now a .lost, none) ∈ cs ∧ r = a.region ∧
    key = Store.redisKey a.region a.tier ∧ value = DecisionDict.text py (PolicyWriter.policy a)

theorem returned_concat (cs : List Call) (e : Event) (d : Option DecisionDict) :
    returned (cs ++ [(e, d)]) = returned cs ++ d.toList := by
  rw [returned, List.filterMap_append]
  cases d <;> rfl

theorem Accounted.concat {cs : List Call} {r : Region} {key : Str} {value : List Byte}
    (h : Accounted py cs r key value) (c : Call) : Accounted py (cs ++ [c]) r key value := by
  rcases h with ⟨d, hd, h⟩ | ⟨now, a, hmem, h⟩
  · exact Or.inl ⟨d, returned_concat cs c.1 c.2 ▸ List.mem_append_left _ hd, h⟩
  · exact Or.inr ⟨now, a, List.mem_append_left _ hmem, h⟩

/-- The log and the Redises after some calls. -/
structure Recorded (py : Python) (s : Trail) (cs : List Call) : Prop where
  log : s.log = (returned cs).flatMap fun d => d.text py ++ [10]
  made : ∀ d ∈ returned cs, (Json.obj d).printable = true ∧
    ((∃ a, d = PolicyWriter.policy a) ∨ ∃ a, d = PolicyWriter.override a)
  redis : ∀ r key v, s.redis r key = some v → Accounted py cs r key v.1

theorem Recorded.call {cs : List Call} {c : Call} (hs : Recorded py s cs)
    (h : Calls py s c s') : Recorded py s' (cs ++ [c]) := by
  have hold : ∀ r key v, s.redis r key = some v → Accounted py (cs ++ [c]) r key v.1 :=
    fun r key v hv => (hs.redis r key v hv).concat c
  have hsame : ∀ {e : Event}, returned (cs ++ [(e, none)]) = returned cs := by
    intro e
    rw [returned_concat, Option.toList_none, List.append_nil]
  cases effect h with
  | start clients => exact ⟨hsame ▸ hs.log, hsame ▸ hs.made, hold⟩
  | raised e => exact ⟨hsame ▸ hs.log, hsame ▸ hs.made, hold⟩
  | lost now a redis hredis =>
    refine ⟨hsame ▸ hs.log, hsame ▸ hs.made, fun r key v hv => ?_⟩
    rcases hredis r key v hv with hv | hv
    · exact hold r key v hv
    · exact Or.inr ⟨now, a, List.mem_concat_self, hv⟩
  | logged e d redis hd hprint hredis =>
    have hnew : returned (cs ++ [(e, some d)]) = returned cs ++ [d] := returned_concat cs e _
    refine ⟨?_, fun d' hd' => ?_, fun r key v hv => ?_⟩
    · rw [hnew, List.flatMap_append, ← hs.log, List.flatMap_singleton]
    · rw [hnew, List.mem_append, List.mem_singleton] at hd'
      rcases hd' with hd' | rfl
      · exact hs.made d' hd'
      · exact ⟨hprint, hd⟩
    · rcases hredis r key v hv with hv | hv
      · exact hold r key v hv
      · exact Or.inl ⟨d, hnew ▸ List.mem_concat_self, hv⟩

theorem recorded_of_run {clients : Region → Bool} {cs : List Call}
    (h : Run (Calls py) (init clients) cs s) : Recorded py s cs := by
  have hfold := h.foldl (I := Recorded py) (g := fun cs c => cs ++ [c]) (b := [])
    (fun _ _ _ _ hI hstep => hI.call hstep) ⟨rfl, nofun, nofun⟩
  rwa [List.foldl_append_eq_append, ← List.flatMap_def, List.flatMap_singleton',
    List.nil_append] at hfold

/-- Integers and strings under distinct keys. -/
structure Flat (d : DecisionDict) : Prop where
  ne_nil : d ≠ []
  keys : (d.map Prod.fst).Nodup
  scalar : ∀ k ∈ d.map Prod.fst, Scalar k
  value : ∀ e ∈ d, (∃ t, e.2 = .str t) ∨ ∃ n, e.2 = .int n

theorem flat_policy (a : PolicyWriter.Args) : Flat (PolicyWriter.policy a) where
  ne_nil := List.cons_ne_nil _ _
  keys := by
    simp only [PolicyWriter.policy, List.map_cons, List.map_nil]
    decide
  scalar := by
    simp only [PolicyWriter.policy, List.map_cons, List.map_nil]
    decide
  value := by simp [PolicyWriter.policy]

theorem flat_override (a : PolicyWriter.OverrideArgs) : Flat (PolicyWriter.override a) where
  ne_nil := List.cons_ne_nil _ _
  keys := by
    simp only [PolicyWriter.override, List.map_cons, List.map_nil]
    decide
  scalar := by
    simp only [PolicyWriter.override, List.map_cons, List.map_nil]
    decide
  value := by simp [PolicyWriter.override]

theorem Flat.loads_text {d : DecisionDict} (h : Flat d) (hprint : (Json.obj d).printable = true)
    (hscalar : ∀ k t, (k, Json.str t) ∈ d → Scalar t) :
    loads py (d.text py) = .ok (.obj d) := by
  refine DecisionDict.loads_text py h.ne_nil h.keys
    (fun e he => h.scalar e.1 (List.mem_map_of_mem he)) fun e he => ?_
  obtain ⟨k, v⟩ := e
  rcases h.value _ he with ⟨t, rfl⟩ | ⟨n, rfl⟩
  · exact Or.inl ⟨t, rfl, hscalar k t he⟩
  · exact Or.inr ⟨n, rfl, of_decide_eq_true (printableMembers_iff.mp hprint _ he)⟩

/-- **The decision log.** For every run of `write_policy`, `write_override` and new starts on the
same file, the lines of the file are the decisions that were returned, in order, each as the
text that is stored for it, and such a line is read back as its decision where the strings have
no surrogates. Every value in a Redis is a line, of a decision about its key, unless it is a
policy whose `SETEX` took effect and raised. -/
theorem trail_of_run {clients : Region → Bool} {cs : List Call}
    (h : Run (Calls py) (init clients) cs s) :
    lines s.log = (returned cs).map (DecisionDict.text py) ∧
    (∀ d ∈ returned cs, (∀ k t, (k, Json.str t) ∈ d → Scalar t) →
      loads py (d.text py) = .ok (.obj d)) ∧
    ∀ r key v, s.redis r key = some v → Accounted py cs r key v.1 := by
  have hs := recorded_of_run h
  refine ⟨?_, fun d hd hscalar => ?_, hs.redis⟩
  · rw [hs.log, lines_flatMap (DecisionDict.newline_notMem_text py)]
  · obtain ⟨hprint, hd⟩ := hs.made d hd
    refine Flat.loads_text ?_ hprint hscalar
    rcases hd with ⟨a, rfl⟩ | ⟨a, rfl⟩
    · exact flat_policy a
    · exact flat_override a

/-- `us` has no client at first, the override is refused in `eu`, and the agent that has
started again does not hear of a policy that takes effect. -/
def sampleCalls : List Call :=
  [(.policy 0 PolicyWriter.sample .ok, some (PolicyWriter.policy PolicyWriter.sample)),
    (.override 10 PolicyWriter.sampleOverride fun r => if r = .eu then .failed else .ok,
      some (PolicyWriter.override PolicyWriter.sampleOverride)),
    (.start fun _ => true, none), (.policy 20 PolicyWriter.sample .lost, none)]

theorem trail_sample : ∃ s, Run (Calls samplePython) (init (· ≠ .us)) sampleCalls s ∧
    (s.redis .us (str "policy:us:free")).isSome = true ∧
    s.redis .eu (str "override:u_1") = none ∧
    lines s.log = [DecisionDict.text samplePython (PolicyWriter.policy PolicyWriter.sample),
      DecisionDict.text samplePython (PolicyWriter.override PolicyWriter.sampleOverride)] ∧
    (∀ d ∈ returned sampleCalls, (∀ k t, (k, Json.str t) ∈ d → Scalar t) →
      loads samplePython (d.text samplePython) = .ok (.obj d)) ∧
    ∀ r key v, s.redis r key = some v → Accounted samplePython sampleCalls r key v.1 := by
  have h : Run (Calls samplePython) (init (· ≠ .us)) sampleCalls _ :=
    .cons rfl (.cons rfl (.cons rfl (.cons rfl (.nil _))))
  obtain ⟨hlines, hloads, hredis⟩ := trail_of_run h
  exact ⟨_, h, rfl, rfl, hlines, hloads, hredis⟩

end Trail

end Gdrl
