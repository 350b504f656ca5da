import Gdrl.Text
import Mathlib.Data.List.TakeWhile
import Mathlib.Tactic.Positivity

/-!
# Numbers in text

`scanNumber` takes the longest prefix of a text that the JSON number grammar
`-?(0|[1-9][0-9]*)(\.[0-9]+)?([eE][-+]?[0-9]+)?` matches. A literal without a fraction
and an exponent is an integer; any other is a binary64 float, the nearest one with ties
to even (`Float64.ofRatio`).

`roundDouble` is the same rounding on natural numbers alone, exact up to `2 ^ 53`
(`roundDouble_of_lt`) : what Lua's `tonumber` makes of a decimal integer (`luaNumber`).
-/

namespace Gdrl

/-! ## Binary64 -/

/-- A binary64 value. `finite neg m e` is `m * 2 ^ e` with a sign. -/
inductive Float64
  | nan
  | inf (neg : Bool)
  | finite (neg : Bool) (m : ℕ) (e : ℤ)
  deriving DecidableEq, Repr

/-- The integer nearest to `n / d`, ties to even. -/
def roundHalfEven (n d : ℕ) : ℕ :=
  if 2 * (n % d) < d then n / d
  else if d < 2 * (n % d) then n / d + 1
  else n / d + n / d % 2

/-- The exponent of the power of two at or below `n / d`. -/
def floorLog2 (n d : ℕ) : ℤ :=
  let k := (n.log2 : ℤ) - d.log2
  if d * 2 ^ k.toNat ≤ n * 2 ^ (-k).toNat then k else k - 1

/-- The binary64 value nearest to `n / d`, ties to even, with 53 significant bits and
the least exponent `-1074`. -/
def Float64.ofRatio (neg : Bool) (n d : ℕ) : Float64 :=
  if n = 0 then .finite neg 0 0
  else
    let e := max (floorLog2 n d - 52) (-1074)
    let m := roundHalfEven (n * 2 ^ (-e).toNat) (d * 2 ^ e.toNat)
    if 2 ^ 1024 * 2 ^ (-e).toNat ≤ m * 2 ^ e.toNat then .inf neg else .finite neg m e

/-- `float(n)` of a Python integer, an infinity where Python raises `OverflowError`. -/
def Float64.ofInt (n : ℤ) : Float64 := .ofRatio (n < 0) n.natAbs 1

def Float64.isFinite : Float64 → Bool
  | .finite .. => true
  | _ => false

/-- A number of at least 53 bits rounded to 53 significant bits, ties to even. -/
def roundLarge (n : ℕ) : ℕ := roundHalfEven n (2 ^ (n.log2 - 52)) * 2 ^ (n.log2 - 52)

/-- `n` rounded to 53 significant bits, ties to even. Infinity is `2 ^ 1024`. -/
def roundDouble (n : ℕ) : ℕ := if n < 2 ^ 53 then n else min (roundLarge n) (2 ^ 1024)

theorem div_le_roundHalfEven (n d : ℕ) : n / d ≤ roundHalfEven n d := by
  unfold roundHalfEven
  split_ifs <;> omega

theorem roundHalfEven_le_succ (n d : ℕ) : roundHalfEven n d ≤ n / d + 1 := by
  unfold roundHalfEven
  split_ifs <;> omega

/-- Rounding does not pass an integer. -/
theorem roundHalfEven_le {n d m : ℕ} (hd : 0 < d) (h : n ≤ m * d) : roundHalfEven n d ≤ m := by
  have hdiv : n / d ≤ m := Nat.div_le_of_le_mul (by rwa [Nat.mul_comm] at h)
  rcases hdiv.lt_or_eq with hlt | heq
  · exact (roundHalfEven_le_succ n d).trans hlt
  · have hmod : n % d = 0 := by
      have h1 := Nat.div_add_mod n d
      rw [heq, Nat.mul_comm] at h1
      omega
    rw [roundHalfEven, hmod, if_pos (by omega), heq]

/-- What is nearer to `m - 1` does not round to `m`. -/
theorem roundHalfEven_lt {n d m : ℕ} (h : 2 * n + d < 2 * m * d) : roundHalfEven n d < m := by
  have hmod : d * (n / d) + n % d = n := Nat.div_add_mod n d
  have hlt : ∀ k : ℕ, d * k < d * m → k < m := fun k hk => lt_of_mul_lt_mul_left hk d.zero_le
  have hm : 2 * (d * (n / d)) + 2 * (n % d) + d < 2 * (d * m) := by
    rw [Nat.mul_assoc, Nat.mul_comm m] at h
    omega
  have hquot : n / d < m := hlt _ (by omega)
  unfold roundHalfEven
  split_ifs with hbelow habove
  · exact hquot
  · exact hlt _ (by rw [Nat.mul_succ]; omega)
  · have hsucc : n / d + 1 < m := hlt _ (by rw [Nat.mul_succ]; omega)
    omega

theorem roundHalfEven_mono {m n : ℕ} (d : ℕ) (h : m ≤ n) :
    roundHalfEven m d ≤ roundHalfEven n d := by
  have hdiv : m / d ≤ n / d := Nat.div_le_div_right h
  rcases hdiv.lt_or_eq with hlt | heq
  · exact (roundHalfEven_le_succ m d).trans (hlt.trans_le (div_le_roundHalfEven n d))
  · have hmod : m % d ≤ n % d := by
      have h1 := Nat.div_add_mod m d
      have h2 := Nat.div_add_mod n d
      rw [heq] at h1
      omega
    unfold roundHalfEven
    rw [heq]
    split_ifs <;> omega

theorem le_roundLarge {n : ℕ} (h : 2 ^ 52 ≤ n) : 2 ^ n.log2 ≤ roundLarge n := by
  have hlog : 52 ≤ n.log2 := (Nat.le_log2 (by omega)).mpr h
  have hdiv : 2 ^ 52 ≤ n / 2 ^ (n.log2 - 52) := by
    rw [Nat.le_div_iff_mul_le (by positivity), ← pow_add, Nat.add_sub_cancel' hlog]
    exact Nat.log2_self_le (by omega)
  calc 2 ^ n.log2 = 2 ^ 52 * 2 ^ (n.log2 - 52) := by rw [← pow_add, Nat.add_sub_cancel' hlog]
    _ ≤ roundLarge n := Nat.mul_le_mul_right _ (hdiv.trans (div_le_roundHalfEven _ _))

theorem roundLarge_le {n : ℕ} (h : 2 ^ 52 ≤ n) : roundLarge n ≤ 2 ^ (n.log2 + 1) := by
  have hlog : 52 ≤ n.log2 := (Nat.le_log2 (by omega)).mpr h
  have hpow : 2 ^ 53 * 2 ^ (n.log2 - 52) = 2 ^ (n.log2 + 1) := by
    rw [← pow_add]
    congr 1
    omega
  have hle : n ≤ 2 ^ 53 * 2 ^ (n.log2 - 52) := by
    rw [hpow]
    exact Nat.lt_log2_self.le
  rw [← hpow]
  exact Nat.mul_le_mul_right _ (roundHalfEven_le (by positivity) hle)

theorem roundLarge_mono {m n : ℕ} (hm : 2 ^ 52 ≤ m) (h : m ≤ n) : roundLarge m ≤ roundLarge n := by
  have hlog : m.log2 ≤ n.log2 :=
    (Nat.le_log2 (by omega)).mpr ((Nat.log2_self_le (by omega)).trans h)
  rcases hlog.lt_or_eq with hlt | heq
  · -- a power of two lies between the two
    exact (roundLarge_le hm).trans
      ((Nat.pow_le_pow_right (by decide) hlt).trans (le_roundLarge (hm.trans h)))
  · unfold roundLarge
    rw [heq]
    exact Nat.mul_le_mul_right _ (roundHalfEven_mono _ h)

theorem roundDouble_of_lt {n : ℕ} (h : n < 2 ^ 53) : roundDouble n = n := if_pos h

/-- Rounding does not take a large number below `2 ^ 53`. -/
theorem le_roundDouble {n : ℕ} (h : 2 ^ 53 ≤ n) : 2 ^ 53 ≤ roundDouble n := by
  have hlog : 53 ≤ n.log2 := (Nat.le_log2 (by omega)).mpr h
  rw [roundDouble, if_neg (Nat.not_lt.mpr h), le_min_iff]
  exact ⟨(Nat.pow_le_pow_right two_pos hlog).trans (le_roundLarge (by omega)),
    pow_le_pow_right₀ one_le_two (by decide)⟩

theorem roundDouble_mono {m n : ℕ} (h : m ≤ n) : roundDouble m ≤ roundDouble n := by
  by_cases hn : n < 2 ^ 53
  · rw [roundDouble_of_lt hn, roundDouble_of_lt (h.trans_lt hn)]
    exact h
  · by_cases hm : m < 2 ^ 53
    · rw [roundDouble_of_lt hm]
      exact hm.le.trans (le_roundDouble (Nat.le_of_not_lt hn))
    · rw [roundDouble, roundDouble, if_neg hn, if_neg hm]
      exact min_le_min_right _ (roundLarge_mono (by omega) h)

/-- A decimal integer as Lua's `tonumber` has it, and an integer result of Lua's arithmetic. -/
def luaNumber (n : ℤ) : ℤ := if n < 0 then -(roundDouble n.natAbs : ℤ) else roundDouble n.natAbs

theorem luaNumber_of_nonneg {n : ℤ} (h : 0 ≤ n) (hle : n ≤ 2 ^ 53) : luaNumber n = n := by
  rw [luaNumber, if_neg (by omega)]
  rcases hle.lt_or_eq with hlt | rfl
  · rw [roundDouble_of_lt (by omega)]
    omega
  · decide +kernel

theorem luaNumber_lt_iff {a b : ℤ} (hb : 0 ≤ b) (hlt : b < 2 ^ 53) :
    luaNumber a < luaNumber b ↔ a < b := by
  rw [luaNumber_of_nonneg hb hlt.le, luaNumber]
  rcases Nat.lt_or_ge a.natAbs (2 ^ 53) with h | h
  · rw [roundDouble_of_lt h]
    split_ifs <;> omega
  · -- a large number stays large, of whichever sign
    have hlarge := le_roundDouble h
    split_ifs <;> omega

theorem luaNumber_mono {a b : ℤ} (h : a ≤ b) : luaNumber a ≤ luaNumber b := by
  unfold luaNumber
  split_ifs with ha hb hb
  · have := roundDouble_mono (show b.natAbs ≤ a.natAbs by omega)
    omega
  · omega
  · omega
  · have := roundDouble_mono (show a.natAbs ≤ b.natAbs by omega)
    omega

/-- Rounding keeps a comparison with a number that is not negative, if one of the two is small. -/
theorem luaNumber_le_iff {a b : ℤ} (ha : 0 ≤ a) (h : a < 2 ^ 53 ∨ b ≤ 2 ^ 53) :
    luaNumber b ≤ luaNumber a ↔ b ≤ a := by
  refine ⟨fun hle => not_lt.mp fun hlt => ?_, luaNumber_mono⟩
  have ha' : luaNumber a = a := luaNumber_of_nonneg ha (by omega)
  rcases lt_or_ge b (2 ^ 53) with hb | hb
  · exact absurd ((luaNumber_lt_iff (by omega) hb).mpr hlt) (not_lt.mpr hle)
  · have hlarge := luaNumber_mono hb
    rw [luaNumber_of_nonneg (by decide) le_rfl] at hlarge
    omega

/-- A float holds every 64-bit integer, up to rounding. -/
theorem Float64.isFinite_ofInt {n : ℤ} (h : n.natAbs < 2 ^ 64) : (ofInt n).isFinite = true := by
  unfold ofInt ofRatio
  split_ifs with h0
  · rfl
  · have hlog : floorLog2 n.natAbs 1 ≤ 63 := by
      have h1 : n.natAbs.log2 < 64 := (Nat.log2_lt h0).mpr h
      have h2 : Nat.log2 1 = 0 := by decide
      unfold floorLog2
      dsimp only
      split_ifs <;> omega
    obtain ⟨e, he⟩ : ∃ e : ℤ, max (floorLog2 n.natAbs 1 - 52) (-1074) = e := ⟨_, rfl⟩
    have hround : roundHalfEven (n.natAbs * 2 ^ (-e).toNat) (1 * 2 ^ e.toNat) * 2 ^ e.toNat ≤
        n.natAbs * 2 ^ (-e).toNat + 2 ^ e.toNat := by
      have h1 := Nat.mul_le_mul_right (2 ^ e.toNat) (roundHalfEven_le_succ
        (n.natAbs * 2 ^ (-e).toNat) (1 * 2 ^ e.toNat))
      rw [one_mul, add_mul, one_mul] at *
      exact h1.trans (Nat.add_le_add_right (Nat.div_mul_le_self _ _) _)
    have hsmall : n.natAbs * 2 ^ (-e).toNat + 2 ^ e.toNat < 2 ^ 1024 * 2 ^ (-e).toNat := by
      have h1 : 2 ^ e.toNat ≤ 2 ^ 64 := Nat.pow_le_pow_right two_pos (by omega)
      have h2 : 1 ≤ 2 ^ (-e).toNat := Nat.one_le_two_pow
      have h3 : 2 ^ 65 ≤ 2 ^ 1024 := pow_le_pow_right₀ one_le_two (by decide)
      calc n.natAbs * 2 ^ (-e).toNat + 2 ^ e.toNat
          < 2 ^ 64 * 2 ^ (-e).toNat + 2 ^ 64 * 2 ^ (-e).toNat :=
            Nat.add_lt_add_of_lt_of_le (Nat.mul_lt_mul_of_pos_right h h2)
              (h1.trans (Nat.le_mul_of_pos_right _ h2))
        _ = 2 ^ 65 * 2 ^ (-e).toNat := by rw [← add_mul, ← two_mul, ← pow_succ']
        _ ≤ 2 ^ 1024 * 2 ^ (-e).toNat := Nat.mul_le_mul_right _ h3
    dsimp only
    rw [he, if_neg (Nat.not_le.mpr (hround.trans_lt hsmall))]
    rfl

/-! ## Number literals -/

/-- The parts of a number literal. -/
structure NumLit where
  neg : Bool
  int : Str
  frac : Str
  exp : Option ℤ
  deriving DecidableEq, Repr

namespace NumLit

/-- A literal without a fraction and an exponent is an integer. -/
def isInt (l : NumLit) : Bool := l.frac.isEmpty && l.exp.isNone

def intValue (l : NumLit) : ℤ :=
  if l.neg then -(digitsValue l.int : ℤ) else digitsValue l.int

/-- `float(numstr)`. -/
def floatValue (l : NumLit) : Float64 :=
  let x := l.exp.getD 0 - l.frac.length
  .ofRatio l.neg (digitsValue (l.int ++ l.frac) * 10 ^ x.toNat) (10 ^ (-x).toNat)

end NumLit

/-- The fraction at the start of a text, with what follows it. -/
def scanFrac (s : Str) : Str × Str :=
  match s with
  | 46 :: r =>
    if (r.takeWhile isDigit).isEmpty then ([], s) else (r.takeWhile isDigit, r.dropWhile isDigit)
  | _ => ([], s)

/-- The exponent at the start of a text, with what follows it. -/
def scanExp (s : Str) : Option ℤ × Str :=
  match s with
  | c :: r =>
    if c = 101 || c = 69 then
      let (neg, r) := match r with
        | 43 :: r => (false, r)
        | 45 :: r => (true, r)
        | r => (false, r)
      let ds := r.takeWhile isDigit
      if ds.isEmpty then (none, s)
      else (some (if neg then -(digitsValue ds : ℤ) else digitsValue ds), r.dropWhile isDigit)
    else (none, s)
  | [] => (none, s)

/-- The digits before the point, `0` or digits that do not start with it. -/
def scanInt (s : Str) : Option (Str × Str) :=
  match s with
  | [] => none
  | c :: r =>
    if c = 48 then some ([48], r)
    else if isDigit c then some (s.takeWhile isDigit, s.dropWhile isDigit)
    else none

/-- A minus sign at the start of a text, with what follows it. -/
def scanMinus (s : Str) : Bool × Str :=
  match s with
  | [] => (false, [])
  | c :: r => if c = 45 then (true, r) else (false, c :: r)

/-- The longest number literal at the start of a text, with what follows it. -/
def scanNumber (s : Str) : Option (NumLit × Str) :=
  (scanInt (scanMinus s).2).map fun (int, r) =>
    let (frac, r) := scanFrac r
    let (exp, r) := scanExp r
    (⟨(scanMinus s).1, int, frac, exp⟩, r)

theorem takeWhile_natText (n : ℕ) : (natText n).takeWhile isDigit = natText n :=
  List.takeWhile_eq_self_iff.mpr fun _ => isDigit_of_mem_natText

theorem scanInt_natText (n : ℕ) : scanInt (natText n) = some (natText n, []) := by
  rcases Nat.eq_zero_or_pos n with rfl | hn
  · rfl
  · obtain ⟨c, s, hcs, hc⟩ := natText_head (Nat.pos_iff_ne_zero.mp hn)
    have hd : isDigit c = true := isDigit_of_mem_natText (hcs ▸ List.mem_cons_self)
    have hdrop : (natText n).dropWhile isDigit = [] :=
      List.dropWhile_eq_nil_iff.mpr fun _ => isDigit_of_mem_natText
    have htake := takeWhile_natText n
    rw [hcs] at htake hdrop ⊢
    rw [scanInt, if_neg hc, if_pos hd, htake, hdrop]

theorem scanMinus_intText (n : ℤ) : scanMinus (intText n) = (decide (n < 0), natText n.natAbs) := by
  unfold intText
  split_ifs with h
  · rw [scanMinus, if_pos rfl, decide_eq_true h]
  · obtain ⟨c, s, hcs⟩ := List.exists_cons_of_ne_nil (natText_ne_nil n.natAbs)
    have hc : c ≠ 45 := by
      rintro rfl
      exact absurd (isDigit_of_mem_natText (hcs ▸ List.mem_cons_self)) (by decide)
    rw [hcs, scanMinus, if_neg hc, decide_eq_false h]

theorem intText_ne_of_mem {w : Str} {c : CodePoint} (hc : c ∈ w) (h45 : c ≠ 45)
    (hd : isDigit c = false) (n : ℤ) : intText n ≠ w := by
  rintro rfl
  rcases isDigit_of_mem_intText hc with h | h
  · exact h45 h
  · exact absurd h (by rw [hd]; decide)

theorem NumLit.intValue_intText (n : ℤ) :
    NumLit.intValue ⟨n < 0, natText n.natAbs, [], none⟩ = n := by
  simp only [NumLit.intValue, digitsValue_natText, decide_eq_true_eq]
  split_ifs <;> omega

/-- A printed integer scans as one integer literal. -/
theorem scanNumber_intText (n : ℤ) :
    scanNumber (intText n) = some (⟨n < 0, natText n.natAbs, [], none⟩, []) := by
  simp [scanNumber, scanMinus_intText, scanInt_natText, scanFrac, scanExp]

end Gdrl
