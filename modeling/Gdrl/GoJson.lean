import Gdrl.Json

/-!
# Go's `encoding/json`

`goStyle` prints as `json.Marshal` does. `unmarshal` is `json.Unmarshal` into a struct :
the text is checked as a whole first, then the members go one by one into the fields
their keys name, up to letter case. A member of the wrong type is left out and remembered
as the error that `Unmarshal` returns at the end; `null` leaves a field as it is.
-/

namespace Gdrl

/-- What `json.Unmarshal` returns an error for. -/
inductive GoError
  | syntaxError
  | depth
  | unmarshalType
  deriving DecidableEq, Repr

/-! ## Printing -/

/-- `json.Marshal`, which escapes what HTML gives a meaning. -/
def goEsc (c : CodePoint) : Str :=
  if c = 34 then [92, 34]
  else if c = 92 then [92, 92]
  else if c = 8 then [92, 98]
  else if c = 12 then [92, 102]
  else if c = 10 then [92, 110]
  else if c = 13 then [92, 114]
  else if c = 9 then [92, 116]
  else if c.val < 32 || c = 60 || c = 62 || c = 38 || c = 0x2028 || c = 0x2029 then
    hexEscape c.val
  else [c]

/-- The unit that `goEsc` writes. -/
def goUnits (c : CodePoint) : Units :=
  [(c = 34 || c = 92 || c.val < 32 || c = 60 || c = 62 || c = 38 || c = 0x2028 || c = 0x2029, c)]

theorem goEsc_lex (c : CodePoint) (us : Units) (rest : Str) :
    lex (.inString us) (goEsc c ++ rest) = lex (.inString (us ++ goUnits c)) rest := by
  unfold goEsc
  split_ifs with h1 h2 h3 h4 h5 h6 h7 h8
  · subst h1
    exact lex_shortEscape (by decide) rfl us rest
  · subst h2
    exact lex_shortEscape (by decide) rfl us rest
  · subst h3
    exact lex_shortEscape (by decide) rfl us rest
  · subst h4
    exact lex_shortEscape (by decide) rfl us rest
  · subst h5
    exact lex_shortEscape (by decide) rfl us rest
  · subst h6
    exact lex_shortEscape (by decide) rfl us rest
  · subst h7
    exact lex_shortEscape (by decide) rfl us rest
  · have hlt : c.val < 65536 := by
      simp only [Bool.or_eq_true, decide_eq_true_eq] at h8
      rcases h8 with ((((h | rfl) | rfl) | rfl) | rfl) | rfl
      · omega
      all_goals decide
    have hmark : goUnits c = [(true, c)] := by
      simp only [goUnits, List.cons.injEq, Prod.mk.injEq, and_true, Bool.or_eq_true] at h8 ⊢
      tauto
    rw [lex_hexEscape hlt, codePoint_eq c rfl, hmark]
  · simp only [Bool.or_eq_true, decide_eq_true_eq, not_or] at h8
    have hmark : goUnits c = [(false, c)] := by
      simp [goUnits, h1, h2, h8]
    rw [hmark]
    exact lex_rawChar h1 h2 (Nat.le_of_not_lt h8.1.1.1.1.1) us rest

/-- `json.Marshal`. No value printed here holds a float. -/
def goStyle : Style where
  esc := goEsc
  units := goUnits
  gap := []
  float _ := str "0"
  esc_lex := goEsc_lex
  gap_space := isSpace_of_mem_nil
  float_word _ := ⟨List.cons_ne_nil _ _, @not_isDelim_of_all (str "0") rfl⟩

/-! ## Reading -/

/-- `utf8.DecodeRune` : the rune at the start of some bytes with the number of
continuation bytes it takes, `none` where it returns an error. -/
def decodeRune : List Byte → Option (CodePoint × ℕ)
  | [] => none
  | a :: t =>
    if a.val < 0x80 then some (codePoint a.val, 0)
    else match t with
      | b :: c :: d :: _ =>
        if isTwo a b then some (codePoint ((a.val - 0xC0) * 64 + (b.val - 0x80)), 1)
        else if isThree a b c && !(a = 0xED && 0xA0 ≤ b.val) then
          some (codePoint ((a.val - 0xE0) * 4096 + (b.val - 0x80) * 64 + (c.val - 0x80)), 2)
        else if isFour a b c d then
          some (codePoint ((a.val - 0xF0) * 262144 + (b.val - 0x80) * 4096 +
            (c.val - 0x80) * 64 + (d.val - 0x80)), 3)
        else none
      | [b, c] =>
        if isTwo a b then some (codePoint ((a.val - 0xC0) * 64 + (b.val - 0x80)), 1)
        else if isThree a b c && !(a = 0xED && 0xA0 ≤ b.val) then
          some (codePoint ((a.val - 0xE0) * 4096 + (b.val - 0x80) * 64 + (c.val - 0x80)), 2)
        else none
      | [b] =>
        if isTwo a b then some (codePoint ((a.val - 0xC0) * 64 + (b.val - 0x80)), 1) else none
      | [] => none

/-- The runes of some bytes, `skip` of which belong to a rune already read. A byte that
starts no rune becomes U+FFFD. -/
def utf8Lenient (skip : ℕ) : List Byte → Str
  | [] => []
  | a :: t =>
    match skip with
    | n + 1 => utf8Lenient n t
    | 0 =>
      match decodeRune (a :: t) with
      | some (c, n) => c :: utf8Lenient n t
      | none => 0xFFFD :: utf8Lenient 0 t

/-- A bare word. -/
def goWord (w : Str) : Except GoError Json :=
  if w = str "null" then .ok .null
  else if w = str "true" then .ok (.bool true)
  else if w = str "false" then .ok (.bool false)
  else match scanNumber w with
    | some (l, []) => .ok (if l.isInt then .int l.intValue else .float l.floatValue)
    | _ => .error .syntaxError

/-- A string of units. A surrogate without its partner becomes U+FFFD. -/
def goString (us : Units) : Str :=
  (joinPairs us).map fun c => if c.isSurrogate then 0xFFFD else c

/-- The scanner of `encoding/json`. -/
def goDialect : Dialect GoError where
  word := goWord
  string := goString
  members := id
  maxDepth := 10000
  tooDeep := .depth
  bad := .syntaxError

/-- Letter case aside, as `foldName` sees a character. Two letters outside ASCII fold
into it : the long s and the Kelvin sign. -/
def foldChar (c : CodePoint) : CodePoint :=
  if 97 ≤ c.val && c.val ≤ 122 then codePoint (c.val - 32)
  else if c = 0x17F then 83
  else if c = 0x212A then 75
  else c

def foldName (s : Str) : Str := s.map foldChar

/-- A struct field : its key, and how it takes a value, `none` for a wrong type. -/
abbrev GoField (σ : Type) := Str × (Json → σ → Option σ)

/-- The field a key names : the exact one, else the first one up to letter case. -/
def findField {σ : Type} (fields : List (GoField σ)) (key : Str) : Option (GoField σ) :=
  (fields.find? fun f => f.1 = key).or (fields.find? fun f => foldName f.1 = foldName key)

/-- A `string` field. -/
def goStringField {σ : Type} (key : Str) (set : Str → σ → σ) : GoField σ :=
  (key, fun v s => match v with
    | .null => some s
    | .str t => some (set t s)
    | _ => none)

/-- An `int` field, of 64 bits. -/
def goIntField {σ : Type} (key : Str) (set : ℤ → σ → σ) : GoField σ :=
  (key, fun v s => match v with
    | .null => some s
    | .int n => if -2 ^ 63 ≤ n ∧ n < 2 ^ 63 then some (set n s) else none
    | _ => none)

/-- One member into the struct. The first error stays. -/
def setField {σ : Type} (fields : List (GoField σ)) (s : σ × Option GoError) (e : Str × Json) :
    σ × Option GoError :=
  match findField fields e.1 with
  | none => s
  | some f =>
    match f.2 e.2 s.1 with
    | some s' => (s', s.2)
    | none => (s.1, s.2.or (some .unmarshalType))

/-- An `int` of Go holds it. -/
abbrev Fits (n : ℤ) : Prop := -2 ^ 63 ≤ n ∧ n < 2 ^ 63

section Fields

variable {σ : Type} {fields : List (GoField σ)} {s : σ × Option GoError} {key k : Str}

theorem setField_none (h : findField fields key = none) (v : Json) :
    setField fields s (key, v) = s := by
  rw [setField, h]

theorem setField_string {set : Str → σ → σ}
    (h : findField fields key = some (goStringField k set)) (t : Str) :
    setField fields s (key, .str t) = (set t s.1, s.2) := by
  rw [setField, h]
  rfl

theorem setField_int {set : ℤ → σ → σ} (h : findField fields key = some (goIntField k set))
    (n : ℤ) : setField fields s (key, .int n) =
      if Fits n then (set n s.1, s.2) else (s.1, s.2.or (some .unmarshalType)) := by
  rw [setField, h]
  dsimp only [goIntField]
  split_ifs <;> rfl

end Fields

/-- `json.Unmarshal(raw, &s)` into a struct that is `s` before. -/
def unmarshal {σ : Type} (fields : List (GoField σ)) (raw : List Byte) (s : σ) :
    Except GoError σ :=
  (goDialect.parse (utf8Lenient 0 raw)).bind fun
    | .null => .ok s
    | .obj kvs =>
      match kvs.foldl (setField fields) (s, none) with
      | (s', none) => .ok s'
      | (_, some e) => .error e
    | _ => .error .unmarshalType

/-- What the fields keep, the members of an object keep. -/
theorem setFields_invariant {σ : Type} {P : σ → Prop} {fields : List (GoField σ)}
    (hP : ∀ f ∈ fields, ∀ v s s', P s → f.2 v s = some s' → P s') (kvs : List (Str × Json))
    {s : σ × Option GoError} (hs : P s.1) : P (kvs.foldl (setField fields) s).1 := by
  induction kvs generalizing s with
  | nil => exact hs
  | cons e kvs ih =>
    refine ih ?_
    unfold setField
    split
    · exact hs
    · rename_i f hfind
      have hf : f ∈ fields := by
        rcases Option.or_eq_some_iff.mp hfind with h | ⟨-, h⟩
        · exact List.mem_of_find?_eq_some h
        · exact List.mem_of_find?_eq_some h
      split
      · rename_i s' hset
        exact hP f hf _ _ _ hs hset
      · exact hs

/-- What the fields keep, `json.Unmarshal` keeps. -/
theorem unmarshal_invariant {σ : Type} {P : σ → Prop} {fields : List (GoField σ)}
    (hP : ∀ f ∈ fields, ∀ v s s', P s → f.2 v s = some s' → P s') {raw : List Byte} {s s' : σ}
    (hs : P s) (h : unmarshal fields raw s = .ok s') : P s' := by
  unfold unmarshal at h
  cases hparse : goDialect.parse (utf8Lenient 0 raw) with
  | error e =>
    rw [hparse] at h
    cases h
  | ok v =>
    rw [hparse] at h
    cases v with
    | null => exact Except.ok.inj h ▸ hs
    | obj kvs =>
      have hkeep := @setFields_invariant _ _ _ hP kvs (s, none) hs
      simp only [Except.bind] at h
      split at h
      · rename_i t heq
        rw [heq] at hkeep
        exact Except.ok.inj h ▸ hkeep
      · cases h
    | bool | int | float | str | arr => cases h

/-! ## Reading printed text back -/

/-- ASCII decodes as it stands. -/
theorem utf8Lenient_of_ascii {s : Str} (hs : Ascii s) : utf8Lenient 0 (utf8Encode s) = s := by
  induction s with
  | nil => rfl
  | cons c s ih =>
    obtain ⟨hc, hs⟩ := ascii_cons.mp hs
    have hbyte : (byte c.val).val = c.val := by
      rw [byte_val]
      omega
    have hchar : utf8Char c = [byte c.val] := by rw [utf8Char, if_pos hc]
    have hrune : ∀ t, decodeRune (byte c.val :: t) = some (c, 0) := by
      intro t
      rw [decodeRune.eq_def]
      dsimp only
      rw [if_pos (hbyte.symm ▸ hc), codePoint_eq c hbyte]
    rw [utf8Encode, List.flatMap_cons, hchar, List.singleton_append, utf8Lenient, hrune]
    exact congrArg (c :: ·) (ih hs)

theorem goWord_intText (n : ℤ) : goWord (intText n) = .ok (.int n) := by
  have hne : ∀ {w : Str} {c : CodePoint}, c ∈ w → c ≠ 45 → isDigit c = false → intText n ≠ w :=
    fun hc h45 hd => intText_ne_of_mem hc h45 hd n
  rw [goWord, if_neg (@hne _ 117 (by decide) (by decide) rfl),
    if_neg (@hne _ 117 (by decide) (by decide) rfl), if_neg (@hne _ 97 (by decide) (by decide) rfl),
    scanNumber_intText]
  simp [NumLit.isInt, NumLit.intValue_intText]

/-- A string without surrogates survives `json.Marshal`. -/
theorem joinPairs_goUnits {s : Str} (hs : Scalar s) : joinPairs (s.flatMap goUnits) = s := by
  induction s with
  | nil => rfl
  | cons c s ih =>
    have hc : c.isHigh = false := isHigh_of_isSurrogate_eq_false (hs c List.mem_cons_self)
    rw [List.flatMap_cons, goUnits, List.singleton_append, joinPairs_cons _ hc,
      ih fun x hx => hs x (List.mem_cons_of_mem c hx)]

end Gdrl
