import Gdrl.Json
import Gdrl.Dict

/-!
# Python's `json`, `int` and `str`

`loads` is `json.loads` on bytes : `detectEncoding`, the decoders with `surrogatepass`,
then the reader of `Gdrl.Json` in the dialect `pyDialect`. Exceptions are told apart by
class, since callers catch by class : a number of more than 4300 digits raises
`ValueError`, nesting beyond the recursion limit `RecursionError`, undecodable bytes
`UnicodeDecodeError`, and everything else wrong with a text `JSONDecodeError`.

`pyInt` is `int(x)` and `pyStr` is `str(x)` of a decoded value. `pyStyle` prints as
`json.dumps` does. What belongs to the interpreter and not to the program is the
parameter `Python`.
-/

namespace Gdrl

/-- Classes of Python exceptions. `data` is redis-py's `DataError`, `redis` any error of
a Redis command. -/
inductive PyError
  | jsonDecode | unicodeDecode | unicodeEncode | recursion | value | type | overflow | data
  | ownSlotWrite | redis
  deriving DecidableEq, Repr

/-- The interpreter : how deep `json.loads` can nest before the recursion limit, and
`repr` of a float or a container. A float prints as one JSON word in ASCII. -/
structure Python where
  maxDepth : ℕ
  two_le_maxDepth : 2 ≤ maxDepth
  repr : Json → Str
  repr_float : ∀ x, repr (.float x) ≠ [] ∧ ∀ c ∈ repr (.float x), isDelim c = false
  repr_float_ascii : ∀ x, Ascii (repr (.float x))

/-- `repr` of a float as the examples need it. -/
def sampleFloat (x : Float64) : Str := if x = .ofInt 1 then str "1.0" else str "0.0"

/-- An interpreter to run examples with. The containers it prints are empty. -/
def samplePython : Python where
  maxDepth := 990
  two_le_maxDepth := by decide
  repr
    | .float x => sampleFloat x
    | .arr _ => [91, 93]
    | _ => [123, 125]
  repr_float x := by
    show sampleFloat x ≠ [] ∧ ∀ c ∈ sampleFloat x, isDelim c = false
    unfold sampleFloat
    split_ifs
    · exact ⟨List.cons_ne_nil _ _, @not_isDelim_of_all (str "1.0") rfl⟩
    · exact ⟨List.cons_ne_nil _ _, @not_isDelim_of_all (str "0.0") rfl⟩
  repr_float_ascii x := by
    show Ascii (sampleFloat x)
    unfold sampleFloat
    split_ifs
    · exact @ascii_of_all (str "1.0") rfl
    · exact @ascii_of_all (str "0.0") rfl

/-- `sys.get_int_max_str_digits()` -/
def maxStrDigits : ℕ := 4300

/-! ## Reading -/

/-- `json.detect_encoding` with the decoding of the bytes. -/
def pyDecode (bs : List Byte) : Option Str :=
  match bs with
  | 0 :: 0 :: 0xFE :: 0xFF :: t => utf32Decode true t
  | 0xFF :: 0xFE :: 0 :: 0 :: t => utf32Decode false t
  | 0xFE :: 0xFF :: t => utf16Decode true t
  | 0xFF :: 0xFE :: t => utf16Decode false t
  | 0xEF :: 0xBB :: 0xBF :: t => utf8Decode t
  | a :: b :: c :: d :: t =>
    if a = 0 then
      if b = 0 then utf32Decode true (a :: b :: c :: d :: t)
      else utf16Decode true (a :: b :: c :: d :: t)
    else if b = 0 then
      if c = 0 && d = 0 then utf32Decode false (a :: b :: c :: d :: t)
      else utf16Decode false (a :: b :: c :: d :: t)
    else utf8Decode (a :: b :: c :: d :: t)
  | [a, b] =>
    if a = 0 then utf16Decode true [a, b]
    else if b = 0 then utf16Decode false [a, b]
    else utf8Decode [a, b]
  | bs => utf8Decode bs

/-- A bare word : a constant or a number, with nothing behind it. -/
def pyWord (w : Str) : Except PyError Json :=
  if w = str "null" then .ok .null
  else if w = str "true" then .ok (.bool true)
  else if w = str "false" then .ok (.bool false)
  else if w = str "NaN" then .ok (.float .nan)
  else if w = str "Infinity" then .ok (.float (.inf false))
  else if w = str "-Infinity" then .ok (.float (.inf true))
  else match scanNumber w with
    | none => .error .jsonDecode
    | some (l, rest) =>
      if l.isInt && maxStrDigits < l.int.length then .error .value
      else if rest ≠ [] then .error .jsonDecode
      else .ok (if l.isInt then .int l.intValue else .float l.floatValue)

/-- The scanner of `json.loads`. An object is a `dict` : a repeated key keeps its first
place and its last value. -/
def pyDialect (py : Python) : Dialect PyError where
  word := pyWord
  string := joinPairs
  members kvs := (Dict.ofPairs kvs).entries
  maxDepth := py.maxDepth
  tooDeep := .recursion
  bad := .jsonDecode

/-- `json.loads(raw)` -/
def loads (py : Python) (raw : List Byte) : Except PyError Json :=
  match pyDecode raw with
  | none => .error .unicodeDecode
  | some text => (pyDialect py).parse text

/-- A value whose objects have distinct keys, as each `dict` has. -/
inductive Json.Keyed : Json → Prop
  | null : Keyed .null
  | bool (b : Bool) : Keyed (.bool b)
  | int (n : ℤ) : Keyed (.int n)
  | float (x : Float64) : Keyed (.float x)
  | str (s : Str) : Keyed (.str s)
  | arr {xs : List Json} (h : ∀ x ∈ xs, Keyed x) : Keyed (.arr xs)
  | obj {kvs : List (Str × Json)} (hkeys : (kvs.map Prod.fst).Nodup) (h : ∀ e ∈ kvs, Keyed e.2) :
    Keyed (.obj kvs)

theorem keyed_pyWord {w : Str} {v : Json} (h : pyWord w = .ok v) : v.Keyed := by
  unfold pyWord at h
  split_ifs at h
  · exact Except.ok.inj h ▸ .null
  · exact Except.ok.inj h ▸ .bool true
  · exact Except.ok.inj h ▸ .bool false
  · exact Except.ok.inj h ▸ .float .nan
  · exact Except.ok.inj h ▸ .float (.inf false)
  · exact Except.ok.inj h ▸ .float (.inf true)
  · cases hscan : scanNumber w with
    | none =>
      rw [hscan] at h
      exact absurd h nofun
    | some n =>
      obtain ⟨l, rest⟩ := n
      rw [hscan] at h
      dsimp only at h
      split_ifs at h
      · exact Except.ok.inj h ▸ .int _
      · exact Except.ok.inj h ▸ .float _

theorem builds_keyed (py : Python) : (pyDialect py).Builds Json.Keyed where
  word _ _ hw := keyed_pyWord hw
  str s := .str s
  arr _ hxs := .arr hxs
  obj kvs hkvs := .obj (Dict.ofPairs kvs).nodup fun e he => hkvs e (Dict.mem_of_mem_ofPairs he)

theorem keyed_loads {py : Python} {raw : List Byte} {v : Json} (h : loads py raw = .ok v) :
    v.Keyed := by
  unfold loads at h
  cases hdecode : pyDecode raw with
  | none =>
    rw [hdecode] at h
    exact absurd h nofun
  | some text =>
    rw [hdecode] at h
    exact (builds_keyed py).parse h

/-! ## Conversions -/

/-- The zeros of the runs of decimal digits in Unicode 14. -/
def digitZeros : List ℕ :=
  [0x30, 0x660, 0x6F0, 0x7C0, 0x966, 0x9E6, 0xA66, 0xAE6, 0xB66, 0xBE6, 0xC66, 0xCE6, 0xD66,
    0xDE6, 0xE50, 0xED0, 0xF20, 0x1040, 0x1090, 0x17E0, 0x1810, 0x1946, 0x19D0, 0x1A80, 0x1A90,
    0x1B50, 0x1BB0, 0x1C40, 0x1C50, 0xA620, 0xA8D0, 0xA900, 0xA9D0, 0xA9F0, 0xAA50, 0xABF0,
    0xFF10, 0x104A0, 0x10D30, 0x11066, 0x110F0, 0x11136, 0x111D0, 0x112F0, 0x11450, 0x114D0,
    0x11650, 0x116C0, 0x11730, 0x118E0, 0x11950, 0x11C50, 0x11D50, 0x11DA0, 0x16A60, 0x16AC0,
    0x16B50, 0x1D7CE, 0x1D7D8, 0x1D7E2, 0x1D7EC, 0x1D7F6, 0x1E140, 0x1E2F0, 0x1E950, 0x1FBF0]

/-- The spaces of Unicode outside ASCII. -/
def wideSpaces : List ℕ :=
  [0x85, 0xA0, 0x1680, 0x2000, 0x2001, 0x2002, 0x2003, 0x2004, 0x2005, 0x2006, 0x2007, 0x2008,
    0x2009, 0x200A, 0x2028, 0x2029, 0x202F, 0x205F, 0x3000]

/-- A character as `int` sees it : ASCII stays, other spaces and digits become ASCII
ones, and what is left becomes a question mark. -/
def asciiDigit (c : CodePoint) : CodePoint :=
  if c.val < 128 then c
  else if wideSpaces.contains c.val then 32
  else match digitZeros.find? fun z => z ≤ c.val && c.val < z + 10 with
    | some z => digitChar (c.val - z)
    | none => 63

/-- What `int` strips from both ends. -/
def isStrip (c : CodePoint) : Bool := c = 32 || (9 ≤ c.val && c.val ≤ 13)

/-- `int(s)` of a string : a sign, then digits in groups joined by single underscores. -/
def pyIntOfStr (s : Str) : Except PyError ℤ :=
  let t := (((s.map asciiDigit).dropWhile isStrip).reverse.dropWhile isStrip).reverse
  let (neg, t) := match t with
    | 43 :: t => (false, t)
    | 45 :: t => (true, t)
    | t => (false, t)
  let groups := t.splitOn 95
  if groups.all (fun g => !g.isEmpty && g.all isDigit) && groups.flatten.length ≤ maxStrDigits then
    .ok (if neg then -(digitsValue groups.flatten : ℤ) else digitsValue groups.flatten)
  else .error .value

/-- `int(x)` of a float : towards zero. -/
def Float64.toInt : Float64 → Except PyError ℤ
  | .nan => .error .value
  | .inf _ => .error .overflow
  | .finite neg m e =>
    let n := m * 2 ^ e.toNat / 2 ^ (-e).toNat
    .ok (if neg then -(n : ℤ) else n)

/-- `int(x)` -/
def pyInt : Json → Except PyError ℤ
  | .null => .error .type
  | .bool b => .ok (if b then 1 else 0)
  | .int n => .ok n
  | .float x => x.toInt
  | .str s => pyIntOfStr s
  | .arr _ => .error .type
  | .obj _ => .error .type

/-- `str(x)` -/
def pyStr (py : Python) : Json → Str
  | .null => str "None"
  | .bool b => if b then str "True" else str "False"
  | .int n => intText n
  | .str s => s
  | v => py.repr v

/-- `hash(x)` raises `TypeError` for a list and a dict. -/
def Json.hashable : Json → Bool
  | .arr _ => false
  | .obj _ => false
  | _ => true

/-! ## Printing -/

/-- The letter of a two-character escape. -/
def escapeLetter (c : CodePoint) : Option CodePoint :=
  if c = 34 then some 34
  else if c = 92 then some 92
  else if c = 8 then some 98
  else if c = 12 then some 102
  else if c = 10 then some 110
  else if c = 13 then some 114
  else if c = 9 then some 116
  else none

theorem escapeLetter_spec {c l : CodePoint} (h : escapeLetter c = some l) :
    l ≠ 117 ∧ shortEscape l = some c := by
  unfold escapeLetter at h
  split_ifs at h with h1 h2 h3 h4 h5 h6 h7
  all_goals
    obtain rfl := Option.some.inj h
    subst c
    exact ⟨by decide, rfl⟩

/-- The high and the low surrogate of a code point beyond the first plane. -/
def highSurrogate (c : CodePoint) : ℕ := 0xD800 + (c.val - 0x10000) / 0x400

def lowSurrogate (c : CodePoint) : ℕ := 0xDC00 + (c.val - 0x10000) % 0x400

/-- `json.dumps` with `ensure_ascii`. -/
def pyEsc (c : CodePoint) : Str :=
  match escapeLetter c with
  | some l => [92, l]
  | none =>
    if 32 ≤ c.val && c.val < 127 then [c]
    else if c.val < 0x10000 then hexEscape c.val
    else hexEscape (highSurrogate c) ++ hexEscape (lowSurrogate c)

/-- The units that `pyEsc` writes. -/
def pyUnits (c : CodePoint) : Units :=
  match escapeLetter c with
  | some _ => [(true, c)]
  | none =>
    if 32 ≤ c.val && c.val < 127 then [(false, c)]
    else if c.val < 0x10000 then [(true, c)]
    else [(true, codePoint (highSurrogate c)), (true, codePoint (lowSurrogate c))]

theorem ne_of_escapeLetter_eq_none {c : CodePoint} (h : escapeLetter c = none) :
    c ≠ 34 ∧ c ≠ 92 := by
  constructor
  all_goals
    rintro rfl
    exact absurd h (by decide)

theorem pyEsc_lex (c : CodePoint) (us : Units) (rest : Str) :
    lex (.inString us) (pyEsc c ++ rest) = lex (.inString (us ++ pyUnits c)) rest := by
  have hc := c.isLt
  unfold pyEsc pyUnits
  cases he : escapeLetter c with
  | some l =>
    obtain ⟨hl, hs⟩ := escapeLetter_spec he
    exact lex_shortEscape hl hs us rest
  | none =>
    obtain ⟨hq, hb⟩ := ne_of_escapeLetter_eq_none he
    dsimp only
    split_ifs with h1 h2
    · simp only [Bool.and_eq_true, decide_eq_true_eq] at h1
      exact lex_rawChar hq hb h1.1 us rest
    · rw [lex_hexEscape h2, codePoint_eq c rfl]
    · rw [List.append_assoc, lex_hexEscape (by unfold highSurrogate; omega),
        lex_hexEscape (by unfold lowSurrogate; omega), List.append_assoc]
      rfl

/-- The two escapes of a code point beyond the first plane are read as that code point. -/
theorem joinPairs_surrogates {c : CodePoint} (hc : 0x10000 ≤ c.val) (us : Units) :
    joinPairs ((true, codePoint (highSurrogate c)) :: (true, codePoint (lowSurrogate c)) :: us) =
      c :: joinPairs us := by
  have hlt := c.isLt
  have hh : (codePoint (highSurrogate c)).val = 0xD800 + (c.val - 0x10000) / 0x400 := by
    rw [codePoint_val, highSurrogate]
    omega
  have hl : (codePoint (lowSurrogate c)).val = 0xDC00 + (c.val - 0x10000) % 0x400 := by
    rw [codePoint_val, lowSurrogate]
    omega
  rw [joinPairs_pair, surrogatePair, codePoint_eq c]
  · rw [hh, hl]
    omega
  · simp only [CodePoint.isHigh, hh, Bool.and_eq_true, decide_eq_true_eq]
    omega
  · simp only [CodePoint.isLow, hl, Bool.and_eq_true, decide_eq_true_eq]
    omega

/-- A string without surrogates survives `json.dumps` and `json.loads`. -/
theorem joinPairs_pyUnits {s : Str} (hs : Scalar s) : joinPairs (s.flatMap pyUnits) = s := by
  induction s with
  | nil => rfl
  | cons c s ih =>
    have hc := isHigh_of_isSurrogate_eq_false (hs c List.mem_cons_self)
    have ih' := ih fun x hx => hs x (List.mem_cons_of_mem c hx)
    rw [List.flatMap_cons, pyUnits]
    cases escapeLetter c with
    | some l => rw [List.singleton_append, joinPairs_cons true hc, ih']
    | none =>
      dsimp only
      split_ifs with h1 h2
      · rw [List.singleton_append, joinPairs_cons false hc, ih']
      · rw [List.singleton_append, joinPairs_cons true hc, ih']
      · rw [List.cons_append, List.singleton_append, joinPairs_surrogates (Nat.le_of_not_lt h2),
          ih']

theorem ascii_pyEsc (c : CodePoint) : Ascii (pyEsc c) := by
  unfold pyEsc
  cases he : escapeLetter c with
  | some l =>
    refine ascii_cons.mpr ⟨by decide, ascii_cons.mpr ⟨?_, ascii_nil⟩⟩
    unfold escapeLetter at he
    split_ifs at he
    all_goals
      obtain rfl := Option.some.inj he
      decide
  | none =>
    dsimp only
    split_ifs with h1 h2
    · simp only [Bool.and_eq_true, decide_eq_true_eq] at h1
      exact ascii_cons.mpr ⟨by omega, ascii_nil⟩
    · exact ascii_hexEscape _
    · exact (ascii_hexEscape _).append (ascii_hexEscape _)

/-- `json.dumps(x, separators=(",", ":"))` for `gap = ""`, `json.dumps(x)` for
`gap = " "`. -/
def pyStyle (py : Python) (gap : Str) (hgap : ∀ c ∈ gap, isSpace c = true) : Style where
  esc := pyEsc
  units := pyUnits
  gap := gap
  float x := py.repr (.float x)
  esc_lex := pyEsc_lex
  gap_space := hgap
  float_word := py.repr_float

/-- An integer that `str` prints : one of at most 4300 digits. -/
def Printable (n : ℤ) : Prop := (natText n.natAbs).length ≤ maxStrDigits

instance (n : ℤ) : Decidable (Printable n) :=
  inferInstanceAs (Decidable ((natText n.natAbs).length ≤ maxStrDigits))

/-- A 64-bit integer is printable. -/
theorem printable_of_lt {n : ℤ} (hn : n.natAbs < 10 ^ 20) : Printable n :=
  (length_natText_le (by decide) hn).trans (by decide)

mutual

/-- Whether every integer of a value is printable. -/
def Json.printable : Json → Bool
  | .int n => decide (Printable n)
  | .arr xs => printableElems xs
  | .obj kvs => printableMembers kvs
  | _ => true

def Json.printableElems : List Json → Bool
  | [] => true
  | v :: vs => v.printable && printableElems vs

def Json.printableMembers : List (Str × Json) → Bool
  | [] => true
  | (_, v) :: kvs => v.printable && printableMembers kvs

end

/-- `json.dumps` in a style. -/
def dumps (st : Style) (v : Json) : Except PyError Str :=
  if v.printable then .ok (st.print v) else .error .value

theorem ascii_pyStyle (py : Python) {gap : Str} (hgap : ∀ c ∈ gap, isSpace c = true) (v : Json) :
    Ascii ((pyStyle py gap hgap).print v) :=
  Style.ascii_print _ ascii_pyEsc (fun c hc => ascii_of_isSpace (hgap c hc)) py.repr_float_ascii v

/-! ## Reading printed values back -/

/-- A printed integer is read back. -/
theorem pyWord_intText {n : ℤ} (hn : Printable n) : pyWord (intText n) = .ok (.int n) := by
  have hne : ∀ {w : Str} {c : CodePoint}, c ∈ w → c ≠ 45 → isDigit c = false → intText n ≠ w :=
    fun hc h45 hd => intText_ne_of_mem hc h45 hd n
  rw [pyWord, if_neg (@hne _ 117 (by decide) (by decide) rfl),
    if_neg (@hne _ 117 (by decide) (by decide) rfl), if_neg (@hne _ 97 (by decide) (by decide) rfl),
    if_neg (@hne _ 97 (by decide) (by decide) rfl), if_neg (@hne _ 105 (by decide) (by decide) rfl),
    if_neg (@hne _ 105 (by decide) (by decide) rfl), scanNumber_intText]
  simp [NumLit.isInt, NumLit.intValue_intText, Nat.not_lt.mpr hn]

/-- Text that starts with two characters of ASCII, none of them NUL, decodes as UTF-8. -/
theorem pyDecode_utf8Encode_object (t : Str) :
    pyDecode (utf8Encode (123 :: 34 :: t)) = some (123 :: 34 :: t) := by
  have hutf8 : ∀ bs : List Byte, pyDecode (123 :: 34 :: bs) = utf8Decode (123 :: 34 :: bs) := by
    intro bs
    rcases bs with _ | ⟨b, _ | ⟨c, bs⟩⟩ <;> rfl
  exact (hutf8 (utf8Encode t)).trans (utf8Decode_utf8Encode (123 :: 34 :: t))

/-- `json.loads` of a printed object. -/
theorem loads_print {py : Python} {st : Style} {k : Str} {v w : Json} {kvs : List (Str × Json)}
    (h : Reads (pyDialect py) st 0 (.obj ((k, v) :: kvs)) w) :
    loads py (utf8Encode (st.print (.obj ((k, v) :: kvs)))) = .ok w := by
  have hparse := Json.parse_print h
  rw [Style.print, Style.printString, List.cons_append] at hparse ⊢
  rw [loads, pyDecode_utf8Encode_object]
  exact hparse

end Gdrl
