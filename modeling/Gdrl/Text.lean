import Mathlib.Data.Nat.Digits.Lemmas

/-!
# Text

Strings as the programs see them. A Python `str` is a list of code points, surrogates
included (`Str`); a Go string that came out of a JSON decoder, and a Redis key that
decodes as UTF-8, is one without surrogates (`Scalar`).

`utf8Decode` is the UTF-8 decoder with the `surrogatepass` error handler, the one
`json.loads` uses on bytes, and `utf8Decode_utf8Encode` its round trip. `utf16Decode`
and `utf32Decode` are the other two encodings `json.loads` detects.

`natText` and `intText` are decimal numerals. A numeral is read back by `digitsValue`,
has no leading zero, and contains no separator, which is what splitting a key at its
colons needs.
-/

namespace Gdrl

/-- A Unicode code point. Surrogates are code points. -/
abbrev CodePoint := Fin 0x110000

/-- A string of code points, as Python's `str`. -/
abbrev Str := List CodePoint

abbrev Byte := Fin 256

-- numerals in these types
instance CodePoint.neZero : NeZero 0x110000 := ⟨by decide⟩
instance Byte.neZero : NeZero 256 := ⟨by decide⟩

/-- The code points of a literal. -/
def str (s : String) : Str :=
  s.toList.map fun c => ⟨c.toNat, by rcases c.valid with h | h <;> simp only [Char.toNat] <;> omega⟩

def CodePoint.isSurrogate (c : CodePoint) : Bool := 0xD800 ≤ c.val && c.val < 0xE000

/-- A string without surrogates : one that UTF-8 can encode. -/
def Scalar (s : Str) : Prop := ∀ c ∈ s, CodePoint.isSurrogate c = false

instance (s : Str) : Decidable (Scalar s) :=
  decidable_of_iff (s.all fun c => !c.isSurrogate) (by simp [Scalar])

theorem Scalar.append {s t : Str} (hs : Scalar s) (ht : Scalar t) : Scalar (s ++ t) := by
  intro c hc
  rcases List.mem_append.mp hc with hc | hc
  · exact hs c hc
  · exact ht c hc

/-- A string of ASCII characters. -/
def Ascii (s : Str) : Prop := ∀ c ∈ s, c.val < 128

theorem scalar_of_ascii {s : Str} (hs : Ascii s) : Scalar s := by
  intro c hc
  have := hs c hc
  simp only [CodePoint.isSurrogate, Bool.and_eq_false_iff, decide_eq_false_iff_not]
  omega

theorem ascii_of_all {s : Str} (h : s.all (fun c => c.val < 128) = true) : Ascii s := by
  simpa [Ascii] using h

theorem ascii_nil : Ascii [] := fun _ hc => absurd hc List.not_mem_nil

theorem ascii_cons {c : CodePoint} {s : Str} : Ascii (c :: s) ↔ c.val < 128 ∧ Ascii s :=
  List.forall_mem_cons

theorem Ascii.append {s t : Str} (hs : Ascii s) (ht : Ascii t) : Ascii (s ++ t) := by
  intro c hc
  rcases List.mem_append.mp hc with hc | hc
  · exact hs c hc
  · exact ht c hc

/-! ## UTF-8 -/

def byte (n : ℕ) : Byte := Fin.ofNat 256 n

def codePoint (n : ℕ) : CodePoint := Fin.ofNat 0x110000 n

/-- The UTF-8 bytes of one code point, a surrogate as its three bytes. -/
def utf8Char (c : CodePoint) : List Byte :=
  if c.val < 0x80 then [byte c.val]
  else if c.val < 0x800 then [byte (0xC0 + c.val / 64), byte (0x80 + c.val % 64)]
  else if c.val < 0x10000 then
    [byte (0xE0 + c.val / 4096), byte (0x80 + c.val / 64 % 64), byte (0x80 + c.val % 64)]
  else
    [byte (0xF0 + c.val / 262144), byte (0x80 + c.val / 4096 % 64),
      byte (0x80 + c.val / 64 % 64), byte (0x80 + c.val % 64)]

def utf8Encode (s : Str) : List Byte := s.flatMap utf8Char

def isContinuation (b : Byte) : Bool := 0x80 ≤ b.val && b.val < 0xC0

/-- A two-byte sequence that is not overlong. -/
def isTwo (a b : Byte) : Bool := 0xC2 ≤ a.val && a.val < 0xE0 && isContinuation b

/-- A three-byte sequence that is not overlong. Surrogates pass. -/
def isThree (a b c : Byte) : Bool :=
  0xE0 ≤ a.val && a.val < 0xF0 && isContinuation b && isContinuation c &&
    (a.val != 0xE0 || 0xA0 ≤ b.val)

/-- A four-byte sequence that is not overlong and not above the last code point. -/
def isFour (a b c d : Byte) : Bool :=
  0xF0 ≤ a.val && a.val < 0xF5 && isContinuation b && isContinuation c && isContinuation d &&
    (a.val != 0xF0 || 0x90 ≤ b.val) && (a.val != 0xF4 || b.val < 0x90)

/-- `bytes.decode("utf-8", "surrogatepass")`, or `none` where it raises
`UnicodeDecodeError`. -/
def utf8Decode : List Byte → Option Str
  | [] => some []
  | a :: t =>
    if a.val < 0x80 then (utf8Decode t).map (codePoint a.val :: ·)
    else match t with
      | [] => none
      | b :: t =>
        if isTwo a b then
          (utf8Decode t).map (codePoint ((a.val - 0xC0) * 64 + (b.val - 0x80)) :: ·)
        else match t with
          | [] => none
          | c :: t =>
            if isThree a b c then
              (utf8Decode t).map
                (codePoint ((a.val - 0xE0) * 4096 + (b.val - 0x80) * 64 + (c.val - 0x80)) :: ·)
            else match t with
              | [] => none
              | d :: t =>
                if isFour a b c d then
                  (utf8Decode t).map (codePoint ((a.val - 0xF0) * 262144 +
                    (b.val - 0x80) * 4096 + (c.val - 0x80) * 64 + (d.val - 0x80)) :: ·)
                else none

@[simp] theorem byte_val (n : ℕ) : (byte n).val = n % 256 := by
  rw [byte, Fin.val_ofNat]

@[simp] theorem codePoint_val (n : ℕ) : (codePoint n).val = n % 0x110000 := by
  rw [codePoint, Fin.val_ofNat]

theorem codePoint_eq (c : CodePoint) {n : ℕ} (h : n = c.val) : codePoint n = c := by
  subst h
  exact Fin.ext (by rw [codePoint_val, Nat.mod_eq_of_lt c.isLt])

/-- The decoder reads one encoded code point back and goes on behind it. -/
theorem utf8Decode_utf8Char (c : CodePoint) (t : List Byte) :
    utf8Decode (utf8Char c ++ t) = (utf8Decode t).map (c :: ·) := by
  have hc := c.isLt
  unfold utf8Char
  split_ifs with h1 h2 h3
  · rw [List.singleton_append, utf8Decode.eq_def]
    dsimp only
    rw [if_pos (by rw [byte_val]; omega), codePoint_eq c (by rw [byte_val]; omega)]
  · have htwo : isTwo (byte (0xC0 + c.val / 64)) (byte (0x80 + c.val % 64)) = true := by
      simp only [isTwo, isContinuation, byte_val, Bool.and_eq_true, decide_eq_true_eq]
      omega
    rw [List.cons_append, List.singleton_append, utf8Decode.eq_def]
    dsimp only
    rw [if_neg (by rw [byte_val]; omega), if_pos htwo,
      codePoint_eq c (by simp only [byte_val]; omega)]
  · have htwo : ∀ b, isTwo (byte (0xE0 + c.val / 4096)) b = false := by
      intro b
      simp only [isTwo, byte_val, Bool.and_eq_false_iff, decide_eq_false_iff_not]
      omega
    have hthree : isThree (byte (0xE0 + c.val / 4096)) (byte (0x80 + c.val / 64 % 64))
        (byte (0x80 + c.val % 64)) = true := by
      simp only [isThree, isContinuation, byte_val, Bool.and_eq_true, Bool.or_eq_true,
        decide_eq_true_eq, bne_iff_ne]
      omega
    rw [List.cons_append, List.cons_append, List.singleton_append, utf8Decode.eq_def]
    dsimp only
    rw [if_neg (by rw [byte_val]; omega), if_neg (by rw [htwo]; decide), if_pos hthree,
      codePoint_eq c (by simp only [byte_val]; omega)]
  · have htwo : ∀ b, isTwo (byte (0xF0 + c.val / 262144)) b = false := by
      intro b
      simp only [isTwo, byte_val, Bool.and_eq_false_iff, decide_eq_false_iff_not]
      omega
    have hthree : ∀ b d, isThree (byte (0xF0 + c.val / 262144)) b d = false := by
      intro b d
      simp only [isThree, byte_val, Bool.and_eq_false_iff, decide_eq_false_iff_not]
      omega
    have hfour : isFour (byte (0xF0 + c.val / 262144)) (byte (0x80 + c.val / 4096 % 64))
        (byte (0x80 + c.val / 64 % 64)) (byte (0x80 + c.val % 64)) = true := by
      simp only [isFour, isContinuation, byte_val, Bool.and_eq_true, Bool.or_eq_true,
        decide_eq_true_eq, bne_iff_ne]
      omega
    rw [List.cons_append, List.cons_append, List.cons_append, List.singleton_append,
      utf8Decode.eq_def]
    dsimp only
    rw [if_neg (by rw [byte_val]; omega), if_neg (by rw [htwo]; decide),
      if_neg (by rw [hthree]; decide), if_pos hfour,
      codePoint_eq c (by simp only [byte_val]; omega)]

/-- Decoding inverts encoding, surrogates included. -/
theorem utf8Decode_utf8Encode (s : Str) : utf8Decode (utf8Encode s) = some s := by
  induction s with
  | nil => rfl
  | cons c s ih =>
    rw [utf8Encode, List.flatMap_cons, utf8Decode_utf8Char, ← utf8Encode, ih, Option.map_some]

/-! ## Surrogate pairs, UTF-16 and UTF-32 -/

def CodePoint.isHigh (c : CodePoint) : Bool := 0xD800 ≤ c.val && c.val < 0xDC00

def CodePoint.isLow (c : CodePoint) : Bool := 0xDC00 ≤ c.val && c.val < 0xE000

theorem isHigh_of_isSurrogate_eq_false {c : CodePoint} (h : c.isSurrogate = false) :
    c.isHigh = false := by
  simp only [CodePoint.isSurrogate, Bool.and_eq_false_iff, decide_eq_false_iff_not] at h
  simp only [CodePoint.isHigh, Bool.and_eq_false_iff, decide_eq_false_iff_not]
  omega

/-- The code point a high and a low surrogate stand for. -/
def surrogatePair (h l : CodePoint) : CodePoint :=
  codePoint (0x10000 + (h.val - 0xD800) * 0x400 + (l.val - 0xDC00))

/-- Join each high surrogate with the low one behind it, where both are marked. A
decoder marks UTF-16 units, and a JSON scanner the units it read from `\\u` escapes. -/
def joinPairs : List (Bool × CodePoint) → Str
  | [] => []
  | [u] => [u.2]
  | u :: v :: us =>
    if u.1 && v.1 && u.2.isHigh && v.2.isLow then surrogatePair u.2 v.2 :: joinPairs us
    else u.2 :: joinPairs (v :: us)

/-- A unit that is not a high surrogate stands for itself. -/
theorem joinPairs_cons (m : Bool) {c : CodePoint} (hc : c.isHigh = false)
    (us : List (Bool × CodePoint)) : joinPairs ((m, c) :: us) = c :: joinPairs us := by
  cases us with
  | nil => rfl
  | cons v us => simp [joinPairs, hc]

theorem joinPairs_pair {h l : CodePoint} (hh : h.isHigh = true) (hl : l.isLow = true)
    (us : List (Bool × CodePoint)) :
    joinPairs ((true, h) :: (true, l) :: us) = surrogatePair h l :: joinPairs us := by
  simp [joinPairs, hh, hl]

/-- The 16-bit units of a byte string, `none` for an odd byte at its end. -/
def utf16Units (bigEndian : Bool) : List Byte → Option (List (Bool × CodePoint))
  | [] => some []
  | [_] => none
  | a :: b :: t =>
    let u := if bigEndian then a.val * 256 + b.val else b.val * 256 + a.val
    (utf16Units bigEndian t).map ((true, codePoint u) :: ·)

/-- `bytes.decode("utf-16-be"/"utf-16-le", "surrogatepass")` : a lone surrogate passes. -/
def utf16Decode (bigEndian : Bool) (bs : List Byte) : Option Str :=
  (utf16Units bigEndian bs).map joinPairs

/-- `bytes.decode("utf-32-be"/"utf-32-le", "surrogatepass")`. -/
def utf32Decode (bigEndian : Bool) : List Byte → Option Str
  | [] => some []
  | a :: b :: c :: d :: t =>
    let n := if bigEndian then ((a.val * 256 + b.val) * 256 + c.val) * 256 + d.val
      else ((d.val * 256 + c.val) * 256 + b.val) * 256 + a.val
    if n < 0x110000 then (utf32Decode bigEndian t).map (codePoint n :: ·) else none
  | _ => none

/-! ## Decimal numerals -/

def isDigit (c : CodePoint) : Bool := 48 ≤ c.val && c.val ≤ 57

/-- The character of a decimal digit. -/
def digitChar (d : ℕ) : CodePoint := codePoint (48 + d)

/-- The decimal numeral of a natural number, without leading zeros. -/
def natText (n : ℕ) : Str :=
  if n = 0 then [48] else (Nat.digits 10 n).reverse.map digitChar

/-- The decimal numeral of an integer, as Python's `str` and Go's `%d` print it. -/
def intText (n : ℤ) : Str :=
  if n < 0 then 45 :: natText n.natAbs else natText n.natAbs

/-- The number a string of digits spells. -/
def digitsValue (ds : Str) : ℕ := ds.foldl (fun v c => 10 * v + (c.val - 48)) 0

theorem digitChar_val {d : ℕ} (hd : d < 10) : (digitChar d).val = 48 + d := by
  rw [digitChar, codePoint_val]
  omega

theorem isDigit_digitChar {d : ℕ} (hd : d < 10) : isDigit (digitChar d) = true := by
  simp only [isDigit, digitChar_val hd, Bool.and_eq_true, decide_eq_true_eq]
  omega

theorem isDigit_of_mem_natText {n : ℕ} {c : CodePoint} (hc : c ∈ natText n) :
    isDigit c = true := by
  unfold natText at hc
  split_ifs at hc with h
  · rw [List.mem_singleton.mp hc]
    decide
  · obtain ⟨d, hd, rfl⟩ := List.mem_map.mp hc
    exact isDigit_digitChar (Nat.digits_lt_base (by decide) (List.mem_reverse.mp hd))

theorem natText_ne_nil (n : ℕ) : natText n ≠ [] := by
  unfold natText
  split_ifs with h
  · exact List.cons_ne_nil _ _
  · simpa using Nat.digits_ne_nil_iff_ne_zero.mpr h

/-- Reading digits least significant last is `Nat.ofDigits` of the reversed list. -/
theorem digitsValue_map_digitChar (l : List ℕ) (hl : ∀ d ∈ l, d < 10) :
    digitsValue (l.reverse.map digitChar) = Nat.ofDigits 10 l := by
  induction l with
  | nil => rfl
  | cons d l ih =>
    have hd : d < 10 := hl d (by simp)
    have ih' := ih fun x hx => hl x (by simp [hx])
    rw [digitsValue] at ih'
    rw [List.reverse_cons, List.map_append, List.map_singleton, digitsValue, List.foldl_append,
      ih', List.foldl_cons, List.foldl_nil, digitChar_val hd, Nat.ofDigits_cons]
    omega

/-- A numeral spells its number. -/
@[simp] theorem digitsValue_natText (n : ℕ) : digitsValue (natText n) = n := by
  unfold natText
  split_ifs with h
  · rw [h]
    rfl
  · rw [digitsValue_map_digitChar _ fun d hd => Nat.digits_lt_base (by decide) hd,
      Nat.ofDigits_digits]

/-- A number below `10 ^ k` has at most `k` digits. -/
theorem length_natText_le {n k : ℕ} (hk : 1 ≤ k) (hn : n < 10 ^ k) :
    (natText n).length ≤ k := by
  unfold natText
  split_ifs with h
  · simpa using hk
  · simpa using (Nat.digits_length_le_iff (by decide) n).mpr hn

/-- The numeral of a positive number does not start with a zero. -/
theorem natText_head {n : ℕ} (hn : n ≠ 0) : ∃ c s, natText n = c :: s ∧ c ≠ 48 := by
  have hne : Nat.digits 10 n ≠ [] := Nat.digits_ne_nil_iff_ne_zero.mpr hn
  have hlast := Nat.getLast_digit_ne_zero 10 hn
  have hlt : (Nat.digits 10 n).getLast hne < 10 :=
    Nat.digits_lt_base (by decide) (List.getLast_mem hne)
  refine ⟨digitChar ((Nat.digits 10 n).getLast hne),
    ((Nat.digits 10 n).dropLast.reverse).map digitChar, ?_, ?_⟩
  · conv_lhs => rw [natText, if_neg hn, ← List.dropLast_append_getLast hne]
    rw [List.reverse_append, List.reverse_singleton, List.singleton_append, List.map_cons]
  · intro h
    have := congrArg Fin.val h
    rw [digitChar_val hlt] at this
    exact hlast (by simpa using this)

theorem natText_injective {m n : ℕ} (h : natText m = natText n) : m = n := by
  rw [← digitsValue_natText m, h, digitsValue_natText]

/-- A numeral contains digits and a minus sign only. -/
theorem isDigit_of_mem_intText {n : ℤ} {c : CodePoint} (hc : c ∈ intText n) :
    c = 45 ∨ isDigit c = true := by
  unfold intText at hc
  split_ifs at hc
  · rcases List.mem_cons.mp hc with rfl | hc
    · exact Or.inl rfl
    · exact Or.inr (isDigit_of_mem_natText hc)
  · exact Or.inr (isDigit_of_mem_natText hc)

theorem intText_injective {m n : ℤ} (h : intText m = intText n) : m = n := by
  have hminus : ∀ {k l : ℕ}, (45 : CodePoint) :: natText k ≠ natText l := by
    intro k l hkl
    have := isDigit_of_mem_natText (hkl ▸ List.mem_cons_self)
    exact absurd this (by decide)
  unfold intText at h
  split_ifs at h with h1 h2 h2
  · have := natText_injective (List.cons_injective h)
    omega
  · exact absurd h hminus
  · exact absurd h.symm hminus
  · have := natText_injective h
    omega

theorem ascii_intText (n : ℤ) : Ascii (intText n) := by
  intro c hc
  rcases isDigit_of_mem_intText hc with rfl | hd
  · decide
  · simp only [isDigit, Bool.and_eq_true, decide_eq_true_eq] at hd
    omega

theorem colon_notMem_intText (n : ℤ) : 58 ∉ intText n := by
  intro h
  rcases isDigit_of_mem_intText h with h | h
  · exact absurd h (by decide)
  · exact absurd h (by decide)

/-- A text is split at its first colon in one way. -/
theorem append_colon_inj {s s' t t' : Str} (h : 58 ∉ s) (h' : 58 ∉ s')
    (heq : s ++ 58 :: t = s' ++ 58 :: t') : s = s' ∧ t = t' := by
  induction s generalizing s' with
  | nil =>
    cases s' with
    | nil => exact ⟨rfl, (List.cons.inj heq).2⟩
    | cons c s' => exact absurd ((List.cons.inj heq).1 ▸ List.mem_cons_self) h'
  | cons c s ih =>
    cases s' with
    | nil => exact absurd ((List.cons.inj heq).1 ▸ List.mem_cons_self) h
    | cons c' s' =>
      obtain ⟨rfl, hrest⟩ := List.cons.inj heq
      rw [List.mem_cons, not_or] at h h'
      obtain ⟨rfl, rfl⟩ := ih h.2 h'.2 hrest
      exact ⟨rfl, rfl⟩

/-- And at its last. -/
theorem append_colon_inj_right {s s' t t' : Str} (h : 58 ∉ t) (h' : 58 ∉ t')
    (heq : s ++ 58 :: t = s' ++ 58 :: t') : s = s' ∧ t = t' := by
  have hrev := congrArg List.reverse heq
  simp only [List.reverse_append, List.reverse_cons, List.append_assoc,
    List.singleton_append] at hrev
  obtain ⟨ht, hs⟩ := append_colon_inj (by simpa using h) (by simpa using h') hrev
  exact ⟨List.reverse_injective hs, List.reverse_injective ht⟩

end Gdrl
