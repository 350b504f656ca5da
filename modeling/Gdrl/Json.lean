import Gdrl.Number
import Mathlib.Tactic.IntervalCases

/-!
# JSON text

A JSON reader in two passes. `lex` cuts a text into tokens one character at a time,
`step` is a pushdown machine over tokens whose stack holds the containers still open.
Both are total without fuel. What differs between decoders is a `Dialect` : which bare
words are values, how deep containers nest, what a string's units stand for, and what
becomes of a repeated key.

A printer is a `Style` : its escapes, its gaps behind commas and colons. Every style
comes with the law that the lexer reads an escaped character back, so
`Json.parse_print` needs no fact about a particular printer : what a style prints, a
dialect reads as `Reads` says, which is the printed value itself where strings survive.
-/

set_option linter.unusedSectionVars false

namespace Gdrl

/-- A JSON value as a decoder builds it. An object lists its members in order. -/
inductive Json
  | null
  | bool (b : Bool)
  | int (n : ℤ)
  | float (x : Float64)
  | str (s : Str)
  | arr (xs : List Json)
  | obj (kvs : List (Str × Json))

/-- The units of a string literal, marked where a `\u` escape wrote them. -/
abbrev Units := List (Bool × CodePoint)

/-- A token. `word` is a run of characters that are neither space nor punctuation,
`bad` a place where no token can be. -/
inductive Token
  | lbrace | rbrace | lbracket | rbracket | colon | comma
  | string (us : Units)
  | word (w : Str)
  | bad
  deriving DecidableEq

/-! ## Lexing -/

def isSpace (c : CodePoint) : Bool := c = 32 || c = 9 || c = 10 || c = 13

def punct (c : CodePoint) : Option Token :=
  if c = 123 then some .lbrace
  else if c = 125 then some .rbrace
  else if c = 91 then some .lbracket
  else if c = 93 then some .rbracket
  else if c = 58 then some .colon
  else if c = 44 then some .comma
  else none

/-- The characters that end a word. -/
def isDelim (c : CodePoint) : Bool := isSpace c || (punct c).isSome || c = 34

def hexVal (c : CodePoint) : Option ℕ :=
  if 48 ≤ c.val ∧ c.val ≤ 57 then some (c.val - 48)
  else if 97 ≤ c.val ∧ c.val ≤ 102 then some (c.val - 87)
  else if 65 ≤ c.val ∧ c.val ≤ 70 then some (c.val - 55)
  else none

/-- What a one-letter escape stands for. -/
def shortEscape (c : CodePoint) : Option CodePoint :=
  if c = 34 then some 34
  else if c = 92 then some 92
  else if c = 47 then some 47
  else if c = 98 then some 8
  else if c = 102 then some 12
  else if c = 110 then some 10
  else if c = 114 then some 13
  else if c = 116 then some 9
  else none

/-- Where the lexer stands : between tokens, inside a string, behind a backslash,
inside the four digits of a `\u` escape, or inside a word. -/
inductive LexState
  | idle
  | inString (us : Units)
  | inEscape (us : Units)
  | inHex (us : Units) (digits : List ℕ)
  | inWord (w : Str)

/-- The unit four hexadecimal digits spell. -/
def hexUnit (ds : List ℕ) : CodePoint := codePoint (ds.foldl (fun v d => 16 * v + d) 0)

/-- One character : the tokens it completes and the state behind it. -/
def lexStep : LexState → CodePoint → List Token × LexState
  | .idle, c =>
    if isSpace c then ([], .idle)
    else match punct c with
      | some t => ([t], .idle)
      | none => if c = 34 then ([], .inString []) else ([], .inWord [c])
  | .inWord w, c =>
    if isSpace c then ([.word w], .idle)
    else match punct c with
      | some t => ([.word w, t], .idle)
      | none => if c = 34 then ([.word w], .inString []) else ([], .inWord (w ++ [c]))
  | .inString us, c =>
    if c = 34 then ([.string us], .idle)
    else if c = 92 then ([], .inEscape us)
    else if c.val < 32 then ([.bad], .idle)
    else ([], .inString (us ++ [(false, c)]))
  | .inEscape us, c =>
    if c = 117 then ([], .inHex us [])
    else match shortEscape c with
      | some d => ([], .inString (us ++ [(true, d)]))
      | none => ([.bad], .idle)
  | .inHex us ds, c =>
    match hexVal c with
    | some d =>
      if ds.length = 3 then ([], .inString (us ++ [(true, hexUnit (ds ++ [d]))]))
      else ([], .inHex us (ds ++ [d]))
    | none => ([.bad], .idle)

/-- The tokens of a text. A string left open at the end is a bad token. -/
def lex : LexState → Str → List Token
  | .idle, [] => []
  | .inWord w, [] => [.word w]
  | .inString _, [] => [.bad]
  | .inEscape _, [] => [.bad]
  | .inHex _ _, [] => [.bad]
  | st, c :: cs => (lexStep st c).1 ++ lex (lexStep st c).2 cs

/-! ## Parsing -/

/-- What one decoder makes of JSON text. -/
structure Dialect (ε : Type) where
  /-- The value of a bare word : a literal or a number. -/
  word : Str → Except ε Json
  /-- The string that units stand for. -/
  string : Units → Str
  /-- The members of an object from those in the text, repeated keys and all. -/
  members : List (Str × Json) → List (Str × Json)
  /-- How many containers may be open. -/
  maxDepth : ℕ
  tooDeep : ε
  bad : ε

/-- An open container around a value : the elements or members before it. -/
inductive Frame
  | arr (xs : List Json)
  | obj (kvs : List (Str × Json)) (key : Str)

/-- What the parser expects next, with the containers around. -/
inductive PState
  | value (K : List Frame)
  | arrStart (K : List Frame)
  | arrNext (xs : List Json) (K : List Frame)
  | objStart (K : List Frame)
  | objKey (kvs : List (Str × Json)) (K : List Frame)
  | objColon (kvs : List (Str × Json)) (key : Str) (K : List Frame)
  | objNext (kvs : List (Str × Json)) (K : List Frame)
  | done (v : Json)

/-- A complete value goes into the container around it. -/
def complete (v : Json) : List Frame → PState
  | [] => .done v
  | .arr xs :: K => .arrNext (xs ++ [v]) K
  | .obj kvs k :: K => .objNext (kvs ++ [(k, v)]) K

namespace Dialect

variable {ε : Type} (d : Dialect ε)

/-- A token where a value may start. -/
def valueStep (K : List Frame) : Token → Except ε PState
  | .string us => .ok (complete (.str (d.string us)) K)
  | .word w => (d.word w).map (complete · K)
  | .lbracket => if K.length < d.maxDepth then .ok (.arrStart K) else .error d.tooDeep
  | .lbrace => if K.length < d.maxDepth then .ok (.objStart K) else .error d.tooDeep
  | _ => .error d.bad

/-- One token. -/
def step : PState → Token → Except ε PState
  | .value K, t => d.valueStep K t
  | .arrStart K, .rbracket => .ok (complete (.arr []) K)
  | .arrStart K, t => d.valueStep (.arr [] :: K) t
  | .arrNext xs K, .comma => .ok (.value (.arr xs :: K))
  | .arrNext xs K, .rbracket => .ok (complete (.arr xs) K)
  | .objStart K, .rbrace => .ok (complete (.obj (d.members [])) K)
  | .objStart K, .string us => .ok (.objColon [] (d.string us) K)
  | .objKey kvs K, .string us => .ok (.objColon kvs (d.string us) K)
  | .objColon kvs k K, .colon => .ok (.value (.obj kvs k :: K))
  | .objNext kvs K, .comma => .ok (.objKey kvs K)
  | .objNext kvs K, .rbrace => .ok (complete (.obj (d.members kvs)) K)
  | _, _ => .error d.bad

/-- The tokens from left to right, up to the first error. -/
def feed : PState → List Token → Except ε PState
  | s, [] => .ok s
  | s, t :: ts => (d.step s t).bind fun s' => feed s' ts

/-- Read one JSON text. -/
def parse (text : Str) : Except ε Json :=
  (d.feed (.value []) (lex .idle text)).bind fun
    | .done v => .ok v
    | _ => .error d.bad

end Dialect

/-! ## What a decoder builds -/

section Build

variable {ε : Type} {d : Dialect ε} {P : Json → Prop}

/-- All values inside satisfy `P`. -/
def Frame.All (P : Json → Prop) : Frame → Prop
  | .arr xs => ∀ x ∈ xs, P x
  | .obj kvs _ => ∀ e ∈ kvs, P e.2

def PState.All (P : Json → Prop) : PState → Prop
  | .value K | .arrStart K | .objStart K => ∀ f ∈ K, f.All P
  | .arrNext xs K => (∀ x ∈ xs, P x) ∧ ∀ f ∈ K, f.All P
  | .objKey kvs K | .objColon kvs _ K | .objNext kvs K =>
    (∀ e ∈ kvs, P e.2) ∧ ∀ f ∈ K, f.All P
  | .done v => P v

/-- What the decoder makes of its parts satisfies `P` if they do. -/
structure Dialect.Builds (d : Dialect ε) (P : Json → Prop) : Prop where
  word : ∀ w v, d.word w = .ok v → P v
  str : ∀ s, P (.str s)
  arr : ∀ xs, (∀ x ∈ xs, P x) → P (.arr xs)
  obj : ∀ kvs, (∀ e ∈ kvs, P e.2) → P (.obj (d.members kvs))

/-- The same, of the strings that the decoder makes. -/
structure Dialect.Makes (d : Dialect ε) (P : Json → Prop) : Prop where
  word : ∀ w v, d.word w = .ok v → P v
  str : ∀ us, P (.str (d.string us))
  arr : ∀ xs, (∀ x ∈ xs, P x) → P (.arr xs)
  obj : ∀ kvs, (∀ e ∈ kvs, P e.2) → P (.obj (d.members kvs))

theorem Dialect.Builds.makes (hd : d.Builds P) : d.Makes P where
  word := hd.word
  str _ := hd.str _
  arr := hd.arr
  obj := hd.obj

theorem all_complete {v : Json} (hv : P v) {K : List Frame} (hK : ∀ f ∈ K, f.All P) :
    (complete v K).All P := by
  cases K with
  | nil => exact hv
  | cons f K =>
    obtain ⟨hf, hK'⟩ := List.forall_mem_cons.mp hK
    cases f with
    | arr xs =>
      refine ⟨fun x hx => ?_, hK'⟩
      rcases List.mem_append.mp hx with hx | hx
      · exact hf x hx
      · rwa [List.mem_singleton.mp hx]
    | obj kvs key =>
      refine ⟨fun e he => ?_, hK'⟩
      rcases List.mem_append.mp he with he | he
      · exact hf e he
      · rwa [List.mem_singleton.mp he]

theorem Dialect.Makes.valueStep (hd : d.Makes P) {K : List Frame} (hK : ∀ f ∈ K, f.All P)
    {t : Token} {s : PState} (h : d.valueStep K t = .ok s) : s.All P := by
  cases t with
  | string us =>
    obtain rfl := Except.ok.inj h
    exact all_complete (hd.str _) hK
  | word w =>
    cases hw : d.word w with
    | error e =>
      rw [Dialect.valueStep, hw] at h
      exact absurd h nofun
    | ok v =>
      rw [Dialect.valueStep, hw] at h
      obtain rfl := Except.ok.inj h
      exact all_complete (hd.word w v hw) hK
  | lbracket | lbrace =>
    rw [Dialect.valueStep] at h
    split_ifs at h
    obtain rfl := Except.ok.inj h
    exact hK
  | rbracket | rbrace | colon | comma | bad => exact absurd h nofun

theorem Dialect.Makes.step (hd : d.Makes P) {s s' : PState} (hs : s.All P) {t : Token}
    (h : d.step s t = .ok s') : s'.All P := by
  unfold Dialect.step at h
  split at h
  · exact hd.valueStep hs h
  · obtain rfl := Except.ok.inj h
    exact all_complete (hd.arr [] (by simp)) hs
  · have hempty : Frame.All P (.arr []) := fun x hx => absurd hx List.not_mem_nil
    exact hd.valueStep (List.forall_mem_cons.mpr ⟨hempty, hs⟩) h
  · obtain rfl := Except.ok.inj h
    exact List.forall_mem_cons.mpr hs
  · obtain rfl := Except.ok.inj h
    exact all_complete (hd.arr _ hs.1) hs.2
  · obtain rfl := Except.ok.inj h
    exact all_complete (hd.obj [] (by simp)) hs
  · obtain rfl := Except.ok.inj h
    exact ⟨fun e he => absurd he List.not_mem_nil, hs⟩
  · obtain rfl := Except.ok.inj h
    exact hs
  · obtain rfl := Except.ok.inj h
    exact List.forall_mem_cons.mpr hs
  · obtain rfl := Except.ok.inj h
    exact hs
  · obtain rfl := Except.ok.inj h
    exact all_complete (hd.obj _ hs.1) hs.2
  · exact absurd h nofun

theorem Dialect.Makes.feed (hd : d.Makes P) {ts : List Token} {s s' : PState} (hs : s.All P)
    (h : d.feed s ts = .ok s') : s'.All P := by
  induction ts generalizing s with
  | nil =>
    obtain rfl := Except.ok.inj h
    exact hs
  | cons t ts ih =>
    rw [Dialect.feed] at h
    cases hstep : d.step s t with
    | error e =>
      rw [hstep] at h
      exact absurd h nofun
    | ok s₁ =>
      rw [hstep] at h
      exact ih (hd.step hs hstep) h

/-- Whatever a decoder returns is built of such parts. -/
theorem Dialect.Makes.parse (hd : d.Makes P) {text : Str} {v : Json}
    (h : d.parse text = .ok v) : P v := by
  unfold Dialect.parse at h
  cases hfeed : d.feed (.value []) (lex .idle text) with
  | error e =>
    rw [hfeed] at h
    exact absurd h nofun
  | ok s =>
    rw [hfeed] at h
    have hs : s.All P := hd.feed (s := .value []) (fun _ hf => absurd hf List.not_mem_nil) hfeed
    cases s with
    | done v' =>
      obtain rfl := Except.ok.inj h
      exact hs
    | _ => exact absurd h nofun

theorem Dialect.Builds.parse (hd : d.Builds P) {text : Str} {v : Json}
    (h : d.parse text = .ok v) : P v := hd.makes.parse h

end Build

/-! ## Printing -/

theorem isSpace_of_mem_nil : ∀ c ∈ ([] : Str), isSpace c = true :=
  fun _ h => absurd h List.not_mem_nil

/-- A JSON printer. The laws say that the lexer reads an escaped character back as its
units, that gaps are space, and that a printed float is a word. -/
structure Style where
  esc : CodePoint → Str
  units : CodePoint → Units
  gap : Str
  float : Float64 → Str
  esc_lex : ∀ c us rest,
    lex (.inString us) (esc c ++ rest) = lex (.inString (us ++ units c)) rest
  gap_space : ∀ c ∈ gap, isSpace c = true
  float_word : ∀ x, float x ≠ [] ∧ ∀ c ∈ float x, isDelim c = false

namespace Style

variable (st : Style)

def printString (s : Str) : Str := 34 :: (s.flatMap st.esc ++ [34])

def printBool (b : Bool) : Str := if b then Gdrl.str "true" else Gdrl.str "false"

mutual

/-- The text of a value. -/
def print : Json → Str
  | .null => Gdrl.str "null"
  | .bool b => printBool b
  | .int n => intText n
  | .float x => st.float x
  | .str s => st.printString s
  | .arr [] => [91, 93]
  | .arr (v :: vs) => 91 :: (print v ++ (printElems vs ++ [93]))
  | .obj [] => [123, 125]
  | .obj ((k, v) :: kvs) =>
    123 :: (st.printString k ++ (58 :: (st.gap ++ (print v ++ (printMembers kvs ++ [125])))))

/-- The elements behind the first one. -/
def printElems : List Json → Str
  | [] => []
  | v :: vs => 44 :: (st.gap ++ (print v ++ printElems vs))

/-- The members behind the first one. -/
def printMembers : List (Str × Json) → Str
  | [] => []
  | (k, v) :: kvs =>
    44 :: (st.gap ++ (st.printString k ++ (58 :: (st.gap ++ (print v ++ printMembers kvs)))))

end

/-! ## The tokens of printed text -/

mutual

/-- The tokens of a value's text. -/
def toks : Json → List Token
  | .null => [.word (Gdrl.str "null")]
  | .bool b => [.word (printBool b)]
  | .int n => [.word (intText n)]
  | .float x => [.word (st.float x)]
  | .str s => [.string (s.flatMap st.units)]
  | .arr [] => [.lbracket, .rbracket]
  | .arr (v :: vs) => .lbracket :: (toks v ++ (toksElems vs ++ [.rbracket]))
  | .obj [] => [.lbrace, .rbrace]
  | .obj ((k, v) :: kvs) =>
    .lbrace :: .string (k.flatMap st.units) :: .colon ::
      (toks v ++ (toksMembers kvs ++ [.rbrace]))

def toksElems : List Json → List Token
  | [] => []
  | v :: vs => .comma :: (toks v ++ toksElems vs)

def toksMembers : List (Str × Json) → List Token
  | [] => []
  | (k, v) :: kvs =>
    .comma :: .string (k.flatMap st.units) :: .colon :: (toks v ++ toksMembers kvs)

end

end Style

theorem lex_cons (s : LexState) (c : CodePoint) (cs : Str) :
    lex s (c :: cs) = (lexStep s c).1 ++ lex (lexStep s c).2 cs := by
  cases s <;> rfl

/-- Text behind a word that does not continue it. -/
def Boundary (rest : Str) : Prop := ∀ c ∈ rest.head?, isDelim c = true

theorem boundary_cons {c : CodePoint} {s : Str} (h : isDelim c = true) : Boundary (c :: s) := by
  intro x hx
  obtain rfl : c = x := by simpa using hx
  exact h

theorem isDelim_eq_false {c : CodePoint} :
    isDelim c = false ↔ isSpace c = false ∧ punct c = none ∧ c ≠ 34 := by
  simp [isDelim, and_assoc]

theorem lex_inWord (w u rest : Str) (hu : ∀ c ∈ u, isDelim c = false) (hr : Boundary rest) :
    lex (.inWord w) (u ++ rest) = .word (w ++ u) :: lex .idle rest := by
  induction u generalizing w with
  | nil =>
    rw [List.nil_append, List.append_nil]
    cases rest with
    | nil => rfl
    | cons c cs =>
      -- the delimiter ends the word and is then read as it is between tokens
      have hc : isDelim c = true := hr c rfl
      rw [lex_cons, lex_cons]
      simp only [lexStep]
      by_cases h1 : isSpace c = true
      · rw [if_pos h1, if_pos h1]
        rfl
      · rw [if_neg h1, if_neg h1]
        cases hp : punct c with
        | some t => rfl
        | none =>
          have h34 : c = 34 := by simpa [isDelim, h1, hp] using hc
          subst h34
          rfl
  | cons c u ih =>
    have hc : isDelim c = false := hu c (by simp)
    obtain ⟨hs, hnone, hq⟩ := isDelim_eq_false.mp hc
    rw [List.cons_append, lex_cons]
    simp only [lexStep, hs, hnone, hq, if_false, Bool.false_eq_true, List.nil_append]
    rw [ih _ fun x hx => hu x (by simp [hx]), List.append_assoc, List.singleton_append]

/-- A word in front of a boundary is one token. -/
theorem lex_word {w rest : Str} (hw : w ≠ []) (hd : ∀ c ∈ w, isDelim c = false)
    (hr : Boundary rest) : lex .idle (w ++ rest) = .word w :: lex .idle rest := by
  obtain ⟨c, u, rfl⟩ := List.exists_cons_of_ne_nil hw
  have hc : isDelim c = false := hd c (by simp)
  obtain ⟨hs, hnone, hq⟩ := isDelim_eq_false.mp hc
  rw [List.cons_append, lex_cons]
  simp only [lexStep, hs, hnone, hq, if_false, Bool.false_eq_true, List.nil_append]
  rw [lex_inWord _ _ _ (fun x hx => hd x (by simp [hx])) hr, List.singleton_append]

theorem lex_gap {g : Str} (hg : ∀ c ∈ g, isSpace c = true) (rest : Str) :
    lex .idle (g ++ rest) = lex .idle rest := by
  induction g with
  | nil => rfl
  | cons c g ih =>
    rw [List.cons_append, lex_cons]
    simp only [lexStep, hg c (by simp), if_true, List.nil_append]
    exact ih fun x hx => hg x (by simp [hx])

theorem isDelim_digit {c : CodePoint} (h : c = 45 ∨ isDigit c = true) : isDelim c = false := by
  rcases h with rfl | h
  · decide
  · simp only [isDigit, Bool.and_eq_true, decide_eq_true_eq] at h
    have hne : ∀ k : CodePoint, k.val < 48 ∨ 57 < k.val → c ≠ k := by
      rintro k hk rfl
      omega
    simp [isDelim, isSpace, punct, hne 32 (by decide), hne 9 (by decide), hne 10 (by decide),
      hne 13 (by decide), hne 123 (by decide), hne 125 (by decide), hne 91 (by decide),
      hne 93 (by decide), hne 58 (by decide), hne 44 (by decide), hne 34 (by decide)]

theorem not_isDelim_of_all {w : Str} (h : w.all (fun c => !isDelim c) = true) :
    ∀ c ∈ w, isDelim c = false := by
  simpa using h

theorem intText_ne_nil (n : ℤ) : intText n ≠ [] := by
  unfold intText
  split_ifs
  · exact List.cons_ne_nil _ _
  · exact natText_ne_nil _

namespace Style

variable (st : Style)

theorem lex_inString (s : Str) (us : Units) (rest : Str) :
    lex (.inString us) (s.flatMap st.esc ++ (34 :: rest)) =
      .string (us ++ s.flatMap st.units) :: lex .idle rest := by
  induction s generalizing us with
  | nil =>
    rw [List.flatMap_nil, List.nil_append, List.flatMap_nil, List.append_nil, lex_cons]
    rfl
  | cons c s ih =>
    rw [List.flatMap_cons, List.append_assoc, st.esc_lex, ih, List.append_assoc,
      List.flatMap_cons]

/-- A printed string is one token. -/
theorem lex_printString (s rest : Str) :
    lex .idle (st.printString s ++ rest) = .string (s.flatMap st.units) :: lex .idle rest := by
  rw [printString, List.cons_append, lex_cons, List.append_assoc, List.singleton_append]
  exact st.lex_inString s [] rest

/-- A printed key with its colon. -/
theorem lex_key (k rest : Str) :
    lex .idle (st.printString k ++ (58 :: (st.gap ++ rest))) =
      .string (k.flatMap st.units) :: .colon :: lex .idle rest := by
  rw [lex_printString, lex_cons]
  exact congrArg _ (congrArg _ (lex_gap st.gap_space rest))

theorem boundary_printElems (vs : List Json) (rest : Str) :
    Boundary (st.printElems vs ++ (93 :: rest)) := by
  cases vs with
  | nil => exact boundary_cons (by decide)
  | cons v vs => exact boundary_cons (by decide)

theorem boundary_printMembers (kvs : List (Str × Json)) (rest : Str) :
    Boundary (st.printMembers kvs ++ (125 :: rest)) := by
  cases kvs with
  | nil => exact boundary_cons (by decide)
  | cons v vs => exact boundary_cons (by decide)

mutual

/-- The text of a value in front of a boundary lexes as the value's tokens. -/
theorem lex_print : ∀ (v : Json) (rest : Str), Boundary rest →
    lex .idle (st.print v ++ rest) = st.toks v ++ lex .idle rest
  | .null, rest, hr =>
    lex_word (List.cons_ne_nil _ _) (@not_isDelim_of_all (Gdrl.str "null") rfl) hr
  | .bool true, rest, hr =>
    lex_word (List.cons_ne_nil _ _) (@not_isDelim_of_all (Gdrl.str "true") rfl) hr
  | .bool false, rest, hr =>
    lex_word (List.cons_ne_nil _ _) (@not_isDelim_of_all (Gdrl.str "false") rfl) hr
  | .int n, rest, hr =>
    lex_word (intText_ne_nil n) (fun _ hc => isDelim_digit (isDigit_of_mem_intText hc)) hr
  | .float x, rest, hr => lex_word (st.float_word x).1 (st.float_word x).2 hr
  | .str s, rest, _ => st.lex_printString s rest
  | .arr [], rest, _ => rfl
  | .arr (v :: vs), rest, hr => by
    rw [print, toks, List.cons_append, lex_cons, List.append_assoc, List.append_assoc,
      List.singleton_append]
    have hv := lex_print v _ (st.boundary_printElems vs rest)
    have hvs := lex_printElems vs (93 :: rest) (boundary_cons (by decide))
    simp only [List.cons_append, List.append_assoc]
    refine congrArg _ (hv.trans (congrArg _ (hvs.trans ?_)))
    rw [lex_cons]
    rfl
  | .obj [], rest, _ => rfl
  | .obj ((k, v) :: kvs), rest, hr => by
    rw [print, toks, List.cons_append, lex_cons]
    have hv := lex_print v _ (st.boundary_printMembers kvs rest)
    have hkvs := lex_printMembers kvs (125 :: rest) (boundary_cons (by decide))
    simp only [List.cons_append, List.append_assoc, List.nil_append]
    refine congrArg _ ((st.lex_key k _).trans ?_)
    refine congrArg _ (congrArg _ (hv.trans (congrArg _ (hkvs.trans ?_))))
    rw [lex_cons]
    rfl

theorem lex_printElems : ∀ (vs : List Json) (rest : Str), Boundary rest →
    lex .idle (st.printElems vs ++ rest) = st.toksElems vs ++ lex .idle rest
  | [], rest, _ => rfl
  | v :: vs, rest, hr => by
    have hb : Boundary (st.printElems vs ++ rest) := by
      cases vs with
      | nil => exact hr
      | cons v vs => exact boundary_cons (by decide)
    rw [printElems, toksElems, List.cons_append, lex_cons]
    simp only [List.append_assoc, List.cons_append]
    refine congrArg _ ((lex_gap st.gap_space _).trans ((lex_print v _ hb).trans ?_))
    exact congrArg _ (lex_printElems vs rest hr)

theorem lex_printMembers : ∀ (kvs : List (Str × Json)) (rest : Str), Boundary rest →
    lex .idle (st.printMembers kvs ++ rest) = st.toksMembers kvs ++ lex .idle rest
  | [], rest, _ => rfl
  | (k, v) :: kvs, rest, hr => by
    have hb : Boundary (st.printMembers kvs ++ rest) := by
      cases kvs with
      | nil => exact hr
      | cons v vs => exact boundary_cons (by decide)
    rw [printMembers, toksMembers, List.cons_append, lex_cons]
    simp only [List.append_assoc, List.cons_append]
    refine congrArg _ ((lex_gap st.gap_space _).trans ((st.lex_key k _).trans ?_))
    refine congrArg _ (congrArg _ ((lex_print v _ hb).trans ?_))
    exact congrArg _ (lex_printMembers kvs rest hr)

end

end Style

/-! ## Escapes

The lemmas from which a style proves its law `esc_lex`. -/

/-- A lower-case hexadecimal digit. -/
def hexDigit (d : ℕ) : CodePoint := codePoint (if d < 10 then 48 + d else 87 + d)

/-- `\uXXXX` -/
def hexEscape (n : ℕ) : Str :=
  [92, 117, hexDigit (n / 4096 % 16), hexDigit (n / 256 % 16), hexDigit (n / 16 % 16),
    hexDigit (n % 16)]

theorem hexVal_hexDigit {d : ℕ} (hd : d < 16) : hexVal (hexDigit d) = some d := by
  interval_cases d <;> rfl

theorem lex_inHex {us : Units} {ds : List ℕ} {d : ℕ} (hd : d < 16) (hds : ds.length ≠ 3)
    (rest : Str) :
    lex (.inHex us ds) (hexDigit d :: rest) = lex (.inHex us (ds ++ [d])) rest := by
  rw [lex_cons]
  simp only [lexStep, hexVal_hexDigit hd, if_neg hds, List.nil_append]

theorem lex_hexEscape {n : ℕ} (hn : n < 65536) (us : Units) (rest : Str) :
    lex (.inString us) (hexEscape n ++ rest) =
      lex (.inString (us ++ [(true, codePoint n)])) rest := by
  have h16 : ∀ k, k % 16 < 16 := fun k => Nat.mod_lt _ (by decide)
  have hval : hexUnit [n / 4096 % 16, n / 256 % 16, n / 16 % 16, n % 16] = codePoint n := by
    refine congrArg codePoint ?_
    simp only [List.foldl_cons, List.foldl_nil]
    omega
  show lex (.inHex us []) (_ :: _ :: _ :: _ :: rest) = _
  rw [lex_inHex (h16 _) (by simp), lex_inHex (h16 _) (by simp), lex_inHex (h16 _) (by simp),
    lex_cons]
  simp only [lexStep, hexVal_hexDigit (h16 n), List.nil_append, List.cons_append,
    List.length_cons, List.length_nil]
  rw [if_pos trivial, hval]
  rfl

/-- A character that is neither a quote, nor a backslash, nor a control stands for
itself. -/
theorem lex_rawChar {c : CodePoint} (hq : c ≠ 34) (hb : c ≠ 92) (hc : 32 ≤ c.val) (us : Units)
    (rest : Str) :
    lex (.inString us) (c :: rest) = lex (.inString (us ++ [(false, c)])) rest := by
  rw [lex_cons]
  simp only [lexStep, if_neg hq, if_neg hb, if_neg (Nat.not_lt.mpr hc), List.nil_append]

/-- A backslash and a letter. -/
theorem lex_shortEscape {c d : CodePoint} (hc : c ≠ 117) (hd : shortEscape c = some d) (us : Units)
    (rest : Str) :
    lex (.inString us) (92 :: c :: rest) = lex (.inString (us ++ [(true, d)])) rest := by
  show lex (.inEscape us) (c :: rest) = _
  rw [lex_cons]
  simp only [lexStep, if_neg hc, hd, List.nil_append]

theorem ascii_hexEscape (n : ℕ) : Ascii (hexEscape n) := by
  have hdigit : ∀ k, (hexDigit (k % 16)).val < 128 := by
    intro k
    rw [hexDigit, codePoint_val]
    split_ifs <;> omega
  simp only [hexEscape, ascii_cons]
  exact ⟨by decide, by decide, hdigit _, hdigit _, hdigit _, hdigit _, ascii_nil⟩

theorem ascii_of_isSpace {c : CodePoint} (h : isSpace c = true) : c.val < 128 := by
  simp only [isSpace, Bool.or_eq_true, decide_eq_true_eq] at h
  rcases h with ((rfl | rfl) | rfl) | rfl
  all_goals decide

namespace Style

variable (st : Style) (hesc : ∀ c, Ascii (st.esc c)) (hgap : Ascii st.gap)
  (hfloat : ∀ x, Ascii (st.float x))

include hesc in
theorem ascii_printString (s : Str) : Ascii (st.printString s) := by
  refine ascii_cons.mpr ⟨by decide, Ascii.append ?_ (ascii_cons.mpr ⟨by decide, ascii_nil⟩)⟩
  intro c hc
  obtain ⟨d, _, hd⟩ := List.mem_flatMap.mp hc
  exact hesc d c hd

include hesc hgap hfloat

mutual

/-- A style that escapes and pads in ASCII prints ASCII. -/
theorem ascii_print : ∀ v : Json, Ascii (st.print v)
  | .null => @ascii_of_all (Gdrl.str "null") rfl
  | .bool true => @ascii_of_all (Gdrl.str "true") rfl
  | .bool false => @ascii_of_all (Gdrl.str "false") rfl
  | .int n => ascii_intText n
  | .float x => hfloat x
  | .str s => st.ascii_printString hesc s
  | .arr [] => by
    rw [print]
    exact ascii_cons.mpr ⟨by decide, ascii_cons.mpr ⟨by decide, ascii_nil⟩⟩
  | .arr (v :: vs) => by
    rw [print]
    refine ascii_cons.mpr ⟨by decide, (ascii_print v).append ((ascii_printElems vs).append ?_)⟩
    exact ascii_cons.mpr ⟨by decide, ascii_nil⟩
  | .obj [] => by
    rw [print]
    exact ascii_cons.mpr ⟨by decide, ascii_cons.mpr ⟨by decide, ascii_nil⟩⟩
  | .obj ((k, v) :: kvs) => by
    rw [print]
    refine ascii_cons.mpr ⟨by decide, (st.ascii_printString hesc k).append ?_⟩
    refine ascii_cons.mpr ⟨by decide, hgap.append ((ascii_print v).append ?_)⟩
    exact (ascii_printMembers kvs).append (ascii_cons.mpr ⟨by decide, ascii_nil⟩)

theorem ascii_printElems : ∀ vs : List Json, Ascii (st.printElems vs)
  | [] => ascii_nil
  | v :: vs => by
    rw [printElems]
    exact ascii_cons.mpr ⟨by decide, hgap.append ((ascii_print v).append (ascii_printElems vs))⟩

theorem ascii_printMembers : ∀ kvs : List (Str × Json), Ascii (st.printMembers kvs)
  | [] => ascii_nil
  | (k, v) :: kvs => by
    rw [printMembers]
    refine ascii_cons.mpr ⟨by decide, hgap.append ((st.ascii_printString hesc k).append ?_)⟩
    refine ascii_cons.mpr ⟨by decide, hgap.append ((ascii_print v).append ?_)⟩
    exact ascii_printMembers kvs

end

end Style

/-! ## Reading printed text back -/

section Reads

variable {ε : Type} (d : Dialect ε) (st : Style)

mutual

/-- What dialect `d` makes of the text style `st` prints for a value, `n` containers
deep. Words and strings are as `d` reads them; the container structure is kept. -/
inductive Reads : ℕ → Json → Json → Prop
  | null {n} (h : d.word (Gdrl.str "null") = .ok .null) : Reads n .null .null
  | bool {n b} (h : d.word (Style.printBool b) = .ok (.bool b)) : Reads n (.bool b) (.bool b)
  | int {n k} (h : d.word (intText k) = .ok (.int k)) : Reads n (.int k) (.int k)
  | float {n x y} (h : d.word (st.float x) = .ok (.float y)) : Reads n (.float x) (.float y)
  | str {n s} : Reads n (.str s) (.str (d.string (s.flatMap st.units)))
  | arr {n xs ys} (hn : n < d.maxDepth) (h : ReadsElems (n + 1) xs ys) :
    Reads n (.arr xs) (.arr ys)
  | obj {n kvs kvs'} (hn : n < d.maxDepth) (h : ReadsMembers (n + 1) kvs kvs') :
    Reads n (.obj kvs) (.obj (d.members kvs'))

inductive ReadsElems : ℕ → List Json → List Json → Prop
  | nil {n} : ReadsElems n [] []
  | cons {n x y xs ys} (h : Reads n x y) (hs : ReadsElems n xs ys) :
    ReadsElems n (x :: xs) (y :: ys)

inductive ReadsMembers : ℕ → List (Str × Json) → List (Str × Json) → Prop
  | nil {n} : ReadsMembers n [] []
  | cons {n k x y xs ys} (h : Reads n x y) (hs : ReadsMembers n xs ys) :
    ReadsMembers n ((k, x) :: xs) ((d.string (k.flatMap st.units), y) :: ys)

end

variable {d st}

/-- A key that is read back as it is. -/
theorem readsMembers_cons {n : ℕ} {k : Str} (hk : d.string (k.flatMap st.units) = k) {x y : Json}
    {xs ys : List (Str × Json)} (h : Reads d st n x y) (hs : ReadsMembers d st n xs ys) :
    ReadsMembers d st n ((k, x) :: xs) ((k, y) :: ys) := by
  have hcons := ReadsMembers.cons (k := k) h hs
  rwa [hk] at hcons

/-- The keys of members that are read back. -/
theorem ReadsMembers.keys : ∀ {n : ℕ} {kvs kws : List (Str × Json)},
    ReadsMembers d st n kvs kws →
    kws.map Prod.fst = kvs.map fun e => d.string (e.1.flatMap st.units)
  | _, _, _, .nil => rfl
  | _, _, _, .cons _ hs => by rw [List.map_cons, List.map_cons, hs.keys]

theorem feed_cons (s : PState) (t : Token) (ts : List Token) :
    d.feed s (t :: ts) = (d.step s t).bind fun s' => d.feed s' ts := rfl

/-- The first token of a value is no closing bracket, so that an array's first element
is read as any value. -/
theorem feed_arrStart (v : Json) (K : List Frame) (ts : List Token) :
    d.feed (.arrStart K) (st.toks v ++ ts) = d.feed (.value (.arr [] :: K)) (st.toks v ++ ts) := by
  cases v with
  | arr xs => cases xs <;> rfl
  | obj kvs => cases kvs <;> rfl
  | _ => rfl

mutual

/-- The tokens of a value leave the parser where the value is complete. -/
theorem feed_toks : ∀ (v : Json) {w : Json} (K : List Frame) (ts : List Token),
    Reads d st K.length v w → d.feed (.value K) (st.toks v ++ ts) = d.feed (complete w K) ts
  | .null, _, K, ts, .null h => by
    rw [Style.toks, List.singleton_append, feed_cons, Dialect.step, Dialect.valueStep, h]
    rfl
  | .bool b, _, K, ts, .bool h => by
    rw [Style.toks, List.singleton_append, feed_cons, Dialect.step, Dialect.valueStep, h]
    rfl
  | .int n, _, K, ts, .int h => by
    rw [Style.toks, List.singleton_append, feed_cons, Dialect.step, Dialect.valueStep, h]
    rfl
  | .float x, _, K, ts, .float h => by
    rw [Style.toks, List.singleton_append, feed_cons, Dialect.step, Dialect.valueStep, h]
    rfl
  | .str s, _, K, ts, .str => rfl
  | .arr [], _, K, ts, .arr hn .nil => by
    rw [Style.toks, List.cons_append, feed_cons, Dialect.step, Dialect.valueStep, if_pos hn]
    rfl
  | .arr (v :: vs), _, K, ts, .arr hn (.cons h hs) => by
    rw [Style.toks, List.cons_append, feed_cons, Dialect.step, Dialect.valueStep, if_pos hn]
    rw [List.append_assoc, List.append_assoc, List.singleton_append]
    refine (feed_arrStart v K _).trans ((feed_toks v (.arr [] :: K) _ h).trans ?_)
    refine (feed_toksElems vs [_] K _ hs).trans ?_
    rfl
  | .obj [], _, K, ts, .obj hn .nil => by
    rw [Style.toks, List.cons_append, feed_cons, Dialect.step, Dialect.valueStep, if_pos hn]
    rfl
  | .obj ((k, v) :: kvs), _, K, ts, .obj hn (.cons h hs) => by
    rw [Style.toks, List.cons_append, feed_cons, Dialect.step, Dialect.valueStep, if_pos hn]
    simp only [List.cons_append, List.append_assoc, List.nil_append]
    refine (feed_toks v (.obj [] _ :: K) _ h).trans ?_
    exact (feed_toksMembers kvs [_] K _ hs).trans rfl

/-- The elements behind the ones read. -/
theorem feed_toksElems : ∀ (vs : List Json) {ws : List Json} (xs : List Json) (K : List Frame)
    (ts : List Token), ReadsElems d st (K.length + 1) vs ws →
    d.feed (.arrNext xs K) (st.toksElems vs ++ ts) = d.feed (.arrNext (xs ++ ws) K) ts
  | [], _, xs, K, ts, .nil => by rw [List.append_nil]; rfl
  | v :: vs, _, xs, K, ts, .cons h hs => by
    rw [Style.toksElems, List.cons_append, feed_cons, List.append_assoc]
    refine (feed_toks v (.arr xs :: K) _ h).trans ?_
    refine (feed_toksElems vs _ K ts hs).trans ?_
    rw [List.append_assoc, List.singleton_append]

/-- The members behind the ones read. -/
theorem feed_toksMembers : ∀ (kvs : List (Str × Json)) {kws : List (Str × Json)}
    (xs : List (Str × Json)) (K : List Frame) (ts : List Token),
    ReadsMembers d st (K.length + 1) kvs kws →
    d.feed (.objNext xs K) (st.toksMembers kvs ++ ts) = d.feed (.objNext (xs ++ kws) K) ts
  | [], _, xs, K, ts, .nil => by rw [List.append_nil]; rfl
  | (k, v) :: kvs, _, xs, K, ts, .cons h hs => by
    rw [Style.toksMembers, List.cons_append, feed_cons]
    simp only [List.cons_append, List.append_assoc]
    refine (feed_toks v (.obj xs _ :: K) _ h).trans ?_
    refine (feed_toksMembers kvs _ K ts hs).trans ?_
    rw [List.append_assoc, List.singleton_append]

end

/-- Printed text parses to what the dialect makes of the value. -/
theorem Json.parse_print {v w : Json} (h : Reads d st 0 v w) : d.parse (st.print v) = .ok w := by
  have hlex := st.lex_print v [] (by simp [Boundary])
  have hfeed := feed_toks v [] [] h
  rw [List.append_nil] at hlex hfeed
  rw [Dialect.parse, hlex, lex, List.append_nil, hfeed]
  rfl

end Reads

end Gdrl
