import Gdrl.Stream
import Gdrl.Inputs
import Gdrl.PolicyWriter

/-!
# The body of a request

`check` binds the body of a request with `ShouldBindJSON`, which reads the first value of the
body and looks at nothing behind it. Keys match up to letter case, the last string under a key
counts, nulls are passed over, and other keys are free. `accept_eq_some_iff` says which bodies
the gateway of a region goes on with, and as what, and `exists_userId_of_accept` that these are
requests of the gateway's model. What a client prints is accepted as what it is about, whatever
the escapes are (`accept_print`).
-/

namespace Gdrl

/-- `checkRequest` -/
structure CheckRequest where
  userId : Str
  tier : Str
  region : Str
  endpoint : Str
  deriving DecidableEq

namespace CheckRequest

def zero : CheckRequest := ⟨[], [], [], []⟩

/-- The `json` tags. -/
def fields : List (GoField CheckRequest) :=
  [goStringField (str "user_id") fun v q => { q with userId := v },
    goStringField (str "tier") fun v q => { q with tier := v },
    goStringField (str "region") fun v q => { q with region := v },
    goStringField (str "endpoint") fun v q => { q with endpoint := v }]

/-- The `binding` tags : `required` and, for tier and region, `oneof`. -/
def valid (q : CheckRequest) : Bool :=
  q.userId ≠ [] && (Tier.all.map Tier.name).contains q.tier &&
    (Region.all.map Region.name).contains q.region && q.endpoint ≠ []

/-- `ShouldBindJSON`. Where the first value is a bare word, it is `null` or of a wrong type, and
no request either way. -/
def bindJSON (body : List Byte) : Option CheckRequest :=
  match goDialect.first .idle (.value []) (utf8Lenient 0 body) with
  | .ok (.obj kvs) =>
    match kvs.foldl (setField fields) (zero, none) with
    | (q, none) => if q.valid then some q else none
    | (_, some _) => none
  | .ok _ => none
  | .error _ => none

/-- The start of `check` in the gateway of a region. A body that is not accepted is answered
with status 400. -/
def accept (own : Region) (body : List Byte) : Option CheckRequest :=
  (bindJSON body).filter fun q => q.region = own.name

/-! ## What is accepted -/

/-- The request that an object stands for. -/
def ofMembers (kvs : List (Str × Json)) : CheckRequest :=
  ⟨lastUnder (str "user_id") kvs, lastUnder (str "tier") kvs, lastUnder (str "region") kvs,
    lastUnder (str "endpoint") kvs⟩

/-- A member that is read. -/
def Named (key : Str) : Prop := ∃ f ∈ fields, foldName f.1 = foldName key

theorem nodup_fields : (fields.map fun f => foldName f.1).Nodup := by decide

theorem isSome_findField_iff {key : Str} : (findField fields key).isSome = true ↔ Named key := by
  rw [Option.isSome_iff_exists]
  constructor
  · rintro ⟨f, hf⟩
    exact ⟨f, foldName_of_findField hf⟩
  · rintro ⟨f, hf, hkey⟩
    exact ⟨f, findField_of_mem nodup_fields hf hkey⟩

theorem foldl_setField_fst (kvs : List (Str × Json)) :
    (kvs.foldl (setField fields) (zero, none)).1 = ofMembers kvs := by
  have hget : ∀ {g : CheckRequest → Str} {name : Str} {set : Str → CheckRequest → CheckRequest},
      goStringField name set ∈ fields → (∀ t q, g (set t q) = t) →
      (∀ f ∈ fields, foldName f.1 ≠ foldName name → ∀ v q q', f.2 v q = some q' → g q' = g q) →
      g zero = [] → g (kvs.foldl (setField fields) (zero, none)).1 = lastUnder name kvs := by
    intro g name set hmem hset hother hzero
    rw [foldl_setField_get nodup_fields hmem hset hother kvs (zero, none), hzero]
    rfl
  have hkeep : ∀ {g : CheckRequest → Str} {k : Str} {set : Str → CheckRequest → CheckRequest},
      (∀ t q, g (set t q) = g q) →
      ∀ v q q', (goStringField k set).2 v q = some q' → g q' = g q := by
    intro g k set hset v q q' h
    cases v with
    | null => exact congrArg g (Option.some.inj h).symm
    | str t => exact (Option.some.inj h) ▸ hset t q
    | _ => exact absurd h nofun
  have huser := @hget userId (str "user_id") (fun v q => { q with userId := v }) (by simp [fields])
    (fun _ _ => rfl) (by
      simp only [fields, List.forall_mem_cons]
      exact ⟨fun h => absurd rfl h, fun _ => hkeep fun _ _ => rfl, fun _ => hkeep fun _ _ => rfl,
        fun _ => hkeep fun _ _ => rfl, by simp⟩) rfl
  have htier := @hget tier (str "tier") (fun v q => { q with tier := v }) (by simp [fields])
    (fun _ _ => rfl) (by
      simp only [fields, List.forall_mem_cons]
      exact ⟨fun _ => hkeep fun _ _ => rfl, fun h => absurd rfl h, fun _ => hkeep fun _ _ => rfl,
        fun _ => hkeep fun _ _ => rfl, by simp⟩) rfl
  have hregion := @hget region (str "region") (fun v q => { q with region := v }) (by simp [fields])
    (fun _ _ => rfl) (by
      simp only [fields, List.forall_mem_cons]
      exact ⟨fun _ => hkeep fun _ _ => rfl, fun _ => hkeep fun _ _ => rfl, fun h => absurd rfl h,
        fun _ => hkeep fun _ _ => rfl, by simp⟩) rfl
  have hendpoint := @hget endpoint (str "endpoint") (fun v q => { q with endpoint := v })
    (by simp [fields]) (fun _ _ => rfl) (by
      simp only [fields, List.forall_mem_cons]
      exact ⟨fun _ => hkeep fun _ _ => rfl, fun _ => hkeep fun _ _ => rfl,
        fun _ => hkeep fun _ _ => rfl, fun h => absurd rfl h, by simp⟩) rfl
  rw [ofMembers, ← huser, ← htier, ← hregion, ← hendpoint]

theorem setField_ok_iff (kvs : List (Str × Json)) :
    (kvs.foldl (setField fields) (zero, none)).2 = none ↔
      ∀ m ∈ kvs, Named m.1 → m.2.isText = true := by
  have hstring : ∀ f ∈ fields, ∃ name set, f = goStringField name set := by
    simp only [fields, List.forall_mem_cons]
    exact ⟨⟨_, _, rfl⟩, ⟨_, _, rfl⟩, ⟨_, _, rfl⟩, ⟨_, _, rfl⟩, by simp⟩
  rw [foldl_setField_ok_iff hstring, eq_self_iff_true, true_and]
  simp only [isSome_findField_iff]

theorem valid_iff {q : CheckRequest} : q.valid = true ↔
    q.userId ≠ [] ∧ (∃ t : Tier, q.tier = t.name) ∧ (∃ r : Region, q.region = r.name) ∧
      q.endpoint ≠ [] := by
  have htier : (Tier.all.map Tier.name).contains q.tier = true ↔ ∃ t : Tier, q.tier = t.name := by
    rw [List.contains_iff_mem, List.mem_map]
    exact ⟨fun ⟨t, _, h⟩ => ⟨t, h.symm⟩, fun ⟨t, h⟩ => ⟨t, t.mem_all, h.symm⟩⟩
  have hregion : (Region.all.map Region.name).contains q.region = true ↔
      ∃ r : Region, q.region = r.name := by
    rw [List.contains_iff_mem, List.mem_map]
    exact ⟨fun ⟨r, _, h⟩ => ⟨r, h.symm⟩, fun ⟨r, h⟩ => ⟨r, r.mem_all, h.symm⟩⟩
  simp only [valid, Bool.and_eq_true, htier, hregion, decide_eq_true_eq, and_assoc]

/-- A word is neither a string nor an object. -/
theorem goWord_cases {w : Str} {v : Json} (h : goDialect.word w = .ok v) :
    v.text? = none ∧ ∀ kvs, v ≠ .obj kvs := by
  have h : goWord w = .ok v := h
  unfold goWord at h
  split_ifs at h
  · exact Except.ok.inj h ▸ ⟨rfl, nofun⟩
  · exact Except.ok.inj h ▸ ⟨rfl, nofun⟩
  · exact Except.ok.inj h ▸ ⟨rfl, nofun⟩
  · split at h
    · split_ifs at h
      · exact Except.ok.inj h ▸ ⟨rfl, nofun⟩
      · exact Except.ok.inj h ▸ ⟨rfl, nofun⟩
    · exact absurd h nofun

theorem goWord_ne_obj (kvs : List (Str × Json)) (w : Str) : goDialect.word w ≠ .ok (.obj kvs) :=
  fun h => (goWord_cases h).2 kvs rfl

theorem bindJSON_eq_some_iff {body : List Byte} {q : CheckRequest} :
    bindJSON body = some q ↔ ∃ pre rest kvs, utf8Lenient 0 body = pre ++ rest ∧
      goDialect.parse pre = .ok (.obj kvs) ∧ (∀ m ∈ kvs, Named m.1 → m.2.isText = true) ∧
      q = ofMembers kvs ∧ q.valid = true := by
  have hobj : ∀ kvs : List (Str × Json), (match kvs.foldl (setField fields) (zero, none) with
      | (q, none) => if q.valid then some q else none
      | (_, some _) => none) = some q ↔
        (∀ m ∈ kvs, Named m.1 → m.2.isText = true) ∧ q = ofMembers kvs ∧ q.valid = true := by
    intro kvs
    rw [← setField_ok_iff, ← foldl_setField_fst]
    generalize kvs.foldl (setField fields) (zero, none) = s
    obtain ⟨q', e⟩ := s
    cases e with
    | none =>
      dsimp only
      split_ifs with hvalid
      · rw [Option.some.injEq]
        constructor
        · rintro rfl
          exact ⟨rfl, rfl, hvalid⟩
        · rintro ⟨-, rfl, -⟩
          rfl
      · constructor
        · intro h
          cases h
        · rintro ⟨-, rfl, hq⟩
          exact absurd hq hvalid
    | some e => simp
  constructor
  · intro h
    unfold bindJSON at h
    split at h
    · rename_i kvs hfirst
      obtain ⟨pre, rest, hbody, hpre⟩ := (Dialect.first_eq_ok_iff (goWord_ne_obj kvs) _).mp hfirst
      exact ⟨pre, rest, kvs, hbody, hpre, (hobj kvs).mp h⟩
    · cases h
    · cases h
  · rintro ⟨pre, rest, kvs, hbody, hpre, h⟩
    have hfirst := (Dialect.first_eq_ok_iff (goWord_ne_obj kvs) _).mpr ⟨pre, rest, hbody, hpre⟩
    rw [bindJSON, hfirst]
    exact (hobj kvs).mpr h

/-- **Accepted bodies.** The gateway of a region goes on with a body exactly if the body starts
with an object of which all members that are read are strings or nulls and the last strings are
a user, a tier, the gateway's own region and an endpoint, and it goes on with these. -/
theorem accept_eq_some_iff (own : Region) (body : List Byte) (q : CheckRequest) :
    accept own body = some q ↔ ∃ pre rest kvs, utf8Lenient 0 body = pre ++ rest ∧
      goDialect.parse pre = .ok (.obj kvs) ∧ (∀ m ∈ kvs, Named m.1 → m.2.isText = true) ∧
      q = ofMembers kvs ∧ q.userId ≠ [] ∧ (∃ t : Tier, q.tier = t.name) ∧ q.region = own.name ∧
      q.endpoint ≠ [] := by
  rw [accept, Option.filter_eq_some_iff, bindJSON_eq_some_iff]
  constructor
  · rintro ⟨⟨pre, rest, kvs, hbody, hpre, htext, hq, hvalid⟩, hown⟩
    obtain ⟨huser, htier, -, hendpoint⟩ := valid_iff.mp hvalid
    exact ⟨pre, rest, kvs, hbody, hpre, htext, hq, huser, htier, of_decide_eq_true hown, hendpoint⟩
  · rintro ⟨pre, rest, kvs, hbody, hpre, htext, hq, huser, htier, hown, hendpoint⟩
    exact ⟨⟨pre, rest, kvs, hbody, hpre, htext, hq,
      valid_iff.mpr ⟨huser, htier, ⟨own, hown⟩, hendpoint⟩⟩, decide_eq_true hown⟩

/-- Letter case, a key given twice, a null and what is behind the object do no harm. -/
example : accept .us (utf8Encode
    (str "\x7b\"USER_ID\":\"a\",\"tier\":\"x\",\"Tier\":\"free\",\"tier\":null," ++
      str "\"region\":\"us\",\"endpoint\":\"/\"\x7d]")) =
    some ⟨str "a", str "free", str "us", str "/"⟩ := by
  decide +kernel

/-! ## What is accepted has no surrogates -/

theorem scalar_goString (us : Units) : Scalar (goString us) := by
  intro c hc
  obtain ⟨d, -, rfl⟩ := List.mem_map.mp hc
  split_ifs with hd
  · rfl
  · exact Bool.eq_false_of_not_eq_true hd

/-- The value has no surrogates, if it is a string. -/
def ScalarText (v : Json) : Prop := ∀ t, v.text? = some t → Scalar t

theorem makes_scalarText : goDialect.Makes fun v =>
    ScalarText v ∧ ∀ kvs, v = .obj kvs → ∀ m ∈ kvs, ScalarText m.2 where
  word w v h := by
    obtain ⟨htext, hobj⟩ := goWord_cases h
    exact ⟨fun t ht => absurd (htext.symm.trans ht) nofun, fun kvs hkvs => absurd hkvs (hobj kvs)⟩
  str us := ⟨fun t ht => Option.some.inj ht ▸ scalar_goString us, nofun⟩
  arr xs _ := ⟨nofun, nofun⟩
  obj kvs h := by
    refine ⟨nofun, fun kvs' heq m hm => ?_⟩
    obtain rfl : kvs = kvs' := Json.obj.inj heq
    exact (h m hm).1

theorem scalar_lastUnder {kvs : List (Str × Json)} (h : ∀ m ∈ kvs, ScalarText m.2) (name : Str) :
    Scalar (lastUnder name kvs) := by
  rw [lastUnder]
  cases hlast : (stringsUnder name kvs).getLast? with
  | none => exact fun c hc => absurd hc List.not_mem_nil
  | some t =>
    obtain ⟨m, hm, ht⟩ := List.mem_filterMap.mp (List.mem_of_getLast? hlast)
    split_ifs at ht
    exact h m hm t ht

/-- An accepted body is a request of the gateway's model. -/
theorem exists_userId_of_accept {own : Region} {body : List Byte} {q : CheckRequest}
    (h : accept own body = some q) :
    ∃ (t : Tier) (u : UserId), q = ⟨u.val, t.name, own.name, q.endpoint⟩ ∧ Scalar q.endpoint := by
  obtain ⟨pre, rest, kvs, -, hparse, -, hq, huser, ⟨t, ht⟩, hown, -⟩ :=
    (accept_eq_some_iff own body q).mp h
  have hscalar := (makes_scalarText.parse hparse).2 kvs rfl
  refine ⟨t, ⟨q.userId, huser, ?_⟩, ?_, ?_⟩
  · exact hq ▸ scalar_lastUnder hscalar _
  · rw [← ht, ← hown]
  · exact hq ▸ scalar_lastUnder hscalar _

/-! ## What clients send -/

/-- A printer whose strings Go reads back, where they have no surrogates. -/
structure GoReadable (st : Style) : Prop where
  units : ∀ s, Scalar s → goString (s.flatMap st.units) = s
  esc : ∀ c, CodePoint.isSurrogate c = false → Scalar (st.esc c)

theorem goReadable_goStyle : GoReadable goStyle where
  units s hs := by
    show goString (s.flatMap goUnits) = s
    rw [goString, joinPairs_goUnits hs]
    refine (List.map_congr_left fun c hc => ?_).trans (List.map_id s)
    rw [hs c hc]
    exact if_neg Bool.false_ne_true
  esc c hc := by
    show Scalar (goEsc c)
    unfold goEsc
    split_ifs
    all_goals first
      | exact scalar_of_ascii (ascii_hexEscape _)
      | exact fun d hd => List.mem_singleton.mp hd ▸ hc
      | exact scalar_of_ascii (ascii_of_all rfl)

theorem goReadable_pyStyle (py : Python) (gap : Str) (hgap : ∀ c ∈ gap, isSpace c = true) :
    GoReadable (pyStyle py gap hgap) where
  units _ hs := PolicyWriter.goString_pyUnits hs
  esc c _ := scalar_of_ascii (ascii_pyEsc c)

/-- The members of an object of strings. -/
def members (kvs : List (Str × Str)) : List (Str × Json) := kvs.map fun e => (e.1, .str e.2)

theorem scalar_gap (st : Style) : Scalar st.gap :=
  scalar_of_ascii fun c hc => ascii_of_isSpace (st.gap_space c hc)

section Print

variable {st : Style} (hst : GoReadable st) {kvs : List (Str × Str)}
  (hkvs : ∀ e ∈ kvs, Scalar e.1 ∧ Scalar e.2)

include hst

theorem scalar_printString {s : Str} (hs : Scalar s) : Scalar (st.printString s) := by
  have hquote : Scalar [34] := by decide
  refine Scalar.append hquote (Scalar.append (fun c hc => ?_) hquote)
  obtain ⟨d, hd, hc⟩ := List.mem_flatMap.mp hc
  exact hst.esc d (hs d hd) c hc

include hkvs

theorem scalar_printMembers : Scalar (st.printMembers (members kvs)) := by
  induction kvs with
  | nil => exact fun c hc => absurd hc List.not_mem_nil
  | cons e kvs ih =>
    rw [List.forall_mem_cons] at hkvs
    have hcomma : Scalar [44] := by decide
    have hcolon : Scalar [58] := by decide
    have hkey := scalar_printString hst hkvs.1.1
    have hvalue := scalar_printString hst hkvs.1.2
    exact hcomma.append ((scalar_gap st).append (hkey.append (hcolon.append ((scalar_gap st).append
      (hvalue.append (ih hkvs.2))))))

theorem scalar_print : Scalar (st.print (.obj (members kvs))) := by
  cases kvs with
  | nil => exact (by decide : Scalar [123, 125])
  | cons e kvs =>
    rw [List.forall_mem_cons] at hkvs
    have hopen : Scalar [123] := by decide
    have hcolon : Scalar [58] := by decide
    have hclose : Scalar [125] := by decide
    have hkey := scalar_printString hst hkvs.1.1
    have hvalue := scalar_printString hst hkvs.1.2
    exact hopen.append (hkey.append (hcolon.append ((scalar_gap st).append
      (hvalue.append ((scalar_printMembers hst hkvs.2).append hclose)))))

theorem readsMembers_members (n : ℕ) :
    ReadsMembers goDialect st n (members kvs) (members kvs) := by
  induction kvs with
  | nil => exact .nil
  | cons e kvs ih =>
    rw [List.forall_mem_cons] at hkvs
    obtain ⟨k, v⟩ := e
    have hvalue : Reads goDialect st n (.str v) (.str (goString (v.flatMap st.units))) := .str
    rw [hst.units v hkvs.1.2] at hvalue
    exact readsMembers_cons (hst.units k hkvs.1.1) hvalue (ih hkvs.2)

/-- What a client prints is accepted as what it is about, whatever is behind it. -/
theorem accept_print {own : Region} (hvalid : (ofMembers (members kvs)).valid = true)
    (hown : (ofMembers (members kvs)).region = own.name) (rest : List Byte) :
    accept own (utf8Encode (st.print (.obj (members kvs))) ++ rest) =
      some (ofMembers (members kvs)) := by
  have hparse : goDialect.parse (st.print (.obj (members kvs))) = .ok (.obj (members kvs)) :=
    Json.parse_print (.obj (by decide) (readsMembers_members hst hkvs 1))
  have hbind : bindJSON (utf8Encode (st.print (.obj (members kvs))) ++ rest) =
      some (ofMembers (members kvs)) := by
    refine bindJSON_eq_some_iff.mpr ⟨_, _, _, utf8Lenient_utf8Encode (scalar_print hst hkvs) rest,
      hparse, fun m hm _ => ?_, rfl, hvalid⟩
    obtain ⟨e, -, rfl⟩ := List.mem_map.mp hm
    rfl
  rw [accept, hbind, Option.filter_some, if_pos (decide_eq_true hown)]

end Print

end CheckRequest

/-! ## The simulator -/

namespace Simulator

open CheckRequest

/-- `User` -/
structure User where
  userId : Str
  tier : Tier

/-- `f"{n:0{width}d}"` -/
def padded (width n : ℕ) : Str :=
  List.replicate (width - (natText n).length) 48 ++ natText n

/-- `_generate` -/
def population : Tier → List User
  | .free => (List.range 10000).map fun i => ⟨str "free_" ++ padded 5 i, .free⟩
  | .premium => (List.range 100).map fun i => ⟨str "premium_" ++ padded 3 i, .premium⟩
  | .internal => (List.range 5).map fun i => ⟨str "internal_" ++ natText i, .internal⟩

/-- `ENDPOINTS` -/
def endpoints : List Str :=
  [str "/api/v1/search", str "/api/v1/feed", str "/api/v1/profile", str "/api/v1/upload",
    str "/api/v1/checkout"]

/-- `_make_request`, with the endpoint it has chosen. -/
def makeRequest (user : User) (region : Region) (endpoint : Str) : List (Str × Str) :=
  [(str "user_id", user.userId), (str "tier", user.tier.name), (str "region", region.name),
    (str "endpoint", endpoint)]

theorem ascii_natText (n : ℕ) : Ascii (natText n) := by
  intro c hc
  have := isDigit_of_mem_natText hc
  simp only [isDigit, Bool.and_eq_true, decide_eq_true_eq] at this
  omega

theorem ascii_padded (width n : ℕ) : Ascii (padded width n) := by
  refine Ascii.append (fun c hc => ?_) (ascii_natText n)
  rw [List.eq_of_mem_replicate hc]
  decide

/-- The users have names in ASCII, and their own tiers. -/
theorem user_of_mem {tier : Tier} {user : User} (h : user ∈ population tier) :
    user.userId ≠ [] ∧ Ascii user.userId ∧ user.tier = tier := by
  cases tier with
  | free =>
    obtain ⟨i, -, rfl⟩ := List.mem_map.mp h
    exact ⟨by simp [str], Ascii.append (ascii_of_all rfl) (ascii_padded 5 i), rfl⟩
  | premium =>
    obtain ⟨i, -, rfl⟩ := List.mem_map.mp h
    exact ⟨by simp [str], Ascii.append (ascii_of_all rfl) (ascii_padded 3 i), rfl⟩
  | internal =>
    obtain ⟨i, -, rfl⟩ := List.mem_map.mp h
    exact ⟨by simp [str], Ascii.append (ascii_of_all rfl) (ascii_natText i), rfl⟩

/-- **The simulator's requests.** Whatever user of its populations, whatever endpoint and
whatever region the simulator picks, the gateway of that region accepts the request as what it
is about, however the client escapes and pads its JSON and whatever is behind it. -/
theorem accept_makeRequest {tier : Tier} {user : User} (huser : user ∈ population tier)
    {endpoint : Str} (hendpoint : endpoint ∈ endpoints) (region : Region) {st : Style}
    (hst : GoReadable st) (rest : List Byte) :
    accept region (utf8Encode (st.print (.obj (members (makeRequest user region endpoint)))) ++
      rest) = some ⟨user.userId, tier.name, region.name, endpoint⟩ := by
  obtain ⟨hne, hascii, rfl⟩ := user_of_mem huser
  have hend : endpoint ≠ [] ∧ Scalar endpoint :=
    (by decide : ∀ e ∈ endpoints, e ≠ [] ∧ Scalar e) endpoint hendpoint
  have hkvs : ∀ e ∈ makeRequest user region endpoint, Scalar e.1 ∧ Scalar e.2 := by
    simp only [makeRequest, List.forall_mem_cons]
    exact ⟨⟨by decide, scalar_of_ascii hascii⟩, ⟨by decide, user.tier.scalar_name⟩,
      ⟨by decide, region.scalar_name⟩, ⟨by decide, hend.2⟩, by simp⟩
  refine accept_print hst hkvs ?_ rfl rest
  exact valid_iff.mpr ⟨hne, ⟨user.tier, rfl⟩, ⟨region, rfl⟩, hend.1⟩

theorem accept_makeRequest_sample :
    accept .eu (utf8Encode (goStyle.print (.obj (members
      (makeRequest ⟨str "free_00001", .free⟩ .eu (str "/api/v1/feed"))))) ++ [10]) =
      some ⟨str "free_00001", str "free", str "eu", str "/api/v1/feed"⟩ := by
  have huser : (⟨str "free_00001", .free⟩ : User) ∈ population .free :=
    List.mem_map.mpr ⟨1, List.mem_range.mpr (by decide), rfl⟩
  have hendpoint : str "/api/v1/feed" ∈ endpoints := by decide
  exact accept_makeRequest huser hendpoint .eu goReadable_goStyle [10]

end Simulator

end Gdrl
