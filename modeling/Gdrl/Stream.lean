import Gdrl.GoJson

/-!
# The first value of a text

`first` reads a text up to the end of its first value, as `json.Decoder` does, and leaves what
is behind it alone. Of a text it finds a value that is no bare word exactly if some prefix of
the text parses to it (`first_eq_ok_iff`).

A struct of strings takes from an object the last string under each of its names, up to letter
case, and it takes the object without an error exactly if what is under its names are strings
and nulls (`foldl_setField_get`, `foldl_setField_ok_iff`).
-/

namespace Gdrl

namespace Dialect

variable {ε : Type} (d : Dialect ε)

/-- The first value of a text, read character by character. -/
def first : LexState → PState → Str → Except ε Json
  | st, s, [] => (d.feed s (lex st [])).bind fun
    | .done v => .ok v
    | _ => .error d.bad
  | st, s, c :: cs => (d.feed s (lexStep st c).1).bind fun
    | .done v => .ok v
    | s' => first (lexStep st c).2 s' cs

variable {d}

theorem feed_append (s : PState) (ts ts' : List Token) :
    d.feed s (ts ++ ts') = (d.feed s ts).bind fun s' => d.feed s' ts' := by
  induction ts generalizing s with
  | nil => rfl
  | cons t ts ih =>
    rw [List.cons_append, feed_cons, feed_cons]
    cases d.step s t with
    | error e => rfl
    | ok s' => exact ih s'

/-- Nothing comes behind the value. -/
theorem feed_done {v w : Json} {ts : List Token} (h : d.feed (.done v) ts = .ok (.done w)) :
    ts = [] ∧ v = w := by
  cases ts with
  | nil => exact ⟨rfl, PState.done.inj (Except.ok.inj h)⟩
  | cons t ts =>
    rw [feed_cons] at h
    exact absurd h nofun

theorem complete_cons_ne_done (v : Json) (f : Frame) (K : List Frame) (w : Json) :
    complete v (f :: K) ≠ .done w := by
  cases f <;> exact nofun

/-- A word completes a text only as its value. -/
theorem word_of_feed {s : PState} {w : Str} {v : Json}
    (h : d.feed s [.word w] = .ok (.done v)) : d.word w = .ok v := by
  have hvalue : ∀ K, d.valueStep K (.word w) = .ok (.done v) → d.word w = .ok v := by
    intro K hK
    rw [valueStep] at hK
    cases hw : d.word w with
    | error e =>
      rw [hw] at hK
      exact absurd hK nofun
    | ok v' =>
      rw [hw] at hK
      cases K with
      | nil => exact congrArg _ (PState.done.inj (Except.ok.inj hK))
      | cons f K => exact absurd (Except.ok.inj hK) (complete_cons_ne_done v' f K v)
  rw [feed_cons] at h
  cases hs : d.step s (.word w) with
  | error e =>
    rw [hs] at h
    exact absurd h nofun
  | ok s' =>
    rw [hs] at h
    obtain rfl : s' = .done v := Except.ok.inj h
    cases s with
    | value K => exact hvalue K hs
    | arrStart K => exact hvalue _ hs
    | arrNext | objStart | objKey | objColon | objNext | done => exact absurd hs nofun

/-- Inside a string or a word, the lexer has completed no token, or the word before. -/
theorem lexStep_cases (st : LexState) (c : CodePoint) :
    (lexStep st c).2 = .idle ∨ (lexStep st c).1 = [] ∨ ∃ w, (lexStep st c).1 = [.word w] := by
  fun_cases lexStep st c <;> simp

/-- The lexer is between tokens where a value that is no word is complete. -/
theorem lexStep_of_done {st : LexState} {s : PState} {c : CodePoint} {v : Json}
    (hv : ∀ w, d.word w ≠ .ok v) (hs : s ≠ .done v)
    (h : d.feed s (lexStep st c).1 = .ok (.done v)) : (lexStep st c).2 = .idle := by
  rcases lexStep_cases st c with hidle | hnil | ⟨w, hw⟩
  · exact hidle
  · rw [hnil] at h
    exact absurd (Except.ok.inj h) hs
  · rw [hw] at h
    exact absurd (word_of_feed h) (hv w)

/-- A value at the end of a text is a word. -/
theorem word_of_end {st : LexState} {s : PState} {v : Json} (hs : s ≠ .done v)
    (h : d.feed s (lex st []) = .ok (.done v)) : ∃ w, d.word w = .ok v := by
  have hbad : d.feed s [.bad] ≠ .ok (.done v) := by
    intro hb
    rw [feed_cons] at hb
    cases s <;> exact absurd hb nofun
  cases st with
  | idle => exact absurd (Except.ok.inj h) hs
  | inWord w => exact ⟨w, word_of_feed h⟩
  | inString us => exact absurd h hbad
  | inEscape us => exact absurd h hbad
  | inHex us ds => exact absurd h hbad

section First

variable {v : Json} (hv : ∀ w, d.word w ≠ .ok v)

include hv

/-- What parses at the start of a text is its first value. -/
theorem first_append {st : LexState} {s : PState} (hs : s ≠ .done v) {text : Str} (rest : Str)
    (h : d.feed s (lex st text) = .ok (.done v)) : d.first st s (text ++ rest) = .ok v := by
  induction text generalizing st s with
  | nil =>
    obtain ⟨w, hw⟩ := word_of_end hs h
    exact absurd hw (hv w)
  | cons c text ih =>
    rw [lex_cons, feed_append] at h
    rw [List.cons_append, first]
    cases hfeed : d.feed s (lexStep st c).1 with
    | error e =>
      rw [hfeed] at h
      exact absurd h nofun
    | ok s' =>
      rw [hfeed] at h
      by_cases hdone : ∃ v', s' = .done v'
      · obtain ⟨v', rfl⟩ := hdone
        exact congrArg _ (feed_done h).2
      · have hs' : s' ≠ .done v := fun heq => hdone ⟨v, heq⟩
        have hrest := ih hs' h
        cases s' with
        | done v' => exact absurd ⟨v', rfl⟩ hdone
        | _ => exact hrest

/-- The first value of a text parses from a prefix. -/
theorem exists_prefix_of_first {st : LexState} {s : PState} (hs : s ≠ .done v) {text : Str}
    (h : d.first st s text = .ok v) :
    ∃ pre rest, text = pre ++ rest ∧ d.feed s (lex st pre) = .ok (.done v) := by
  induction text generalizing st s with
  | nil =>
    refine ⟨[], [], rfl, ?_⟩
    rw [first] at h
    cases hfeed : d.feed s (lex st []) with
    | error e =>
      rw [hfeed] at h
      exact absurd h nofun
    | ok s' =>
      rw [hfeed] at h
      cases s' with
      | done v' => exact congrArg _ (congrArg _ (Except.ok.inj h))
      | _ => exact absurd h nofun
  | cons c text ih =>
    rw [first] at h
    cases hfeed : d.feed s (lexStep st c).1 with
    | error e =>
      rw [hfeed] at h
      exact absurd h nofun
    | ok s' =>
      rw [hfeed] at h
      by_cases hdone : ∃ v', s' = .done v'
      · obtain ⟨v', rfl⟩ := hdone
        obtain rfl : v' = v := Except.ok.inj h
        refine ⟨[c], text, rfl, ?_⟩
        rw [lex_cons, lexStep_of_done hv hs hfeed, lex, List.append_nil]
        exact hfeed
      · have hrest : d.first (lexStep st c).2 s' text = .ok v := by
          cases s' with
          | done v' => exact absurd ⟨v', rfl⟩ hdone
          | _ => exact h
        obtain ⟨pre, rest, rfl, hpre⟩ := ih (fun heq => hdone ⟨v, heq⟩) hrest
        refine ⟨c :: pre, rest, rfl, ?_⟩
        rw [lex_cons, feed_append, hfeed]
        exact hpre

/-- The first value of a text is what some prefix of it parses to. -/
theorem first_eq_ok_iff (text : Str) : d.first .idle (.value []) text = .ok v ↔
    ∃ pre rest, text = pre ++ rest ∧ d.parse pre = .ok v := by
  have hparse : ∀ pre, d.parse pre = .ok v ↔
      d.feed (.value []) (lex .idle pre) = .ok (.done v) := by
    intro pre
    rw [parse]
    cases d.feed (.value []) (lex .idle pre) with
    | error e => simp [Except.bind]
    | ok s =>
      cases s with
      | done v' =>
        refine ⟨fun h => ?_, fun h => ?_⟩
        · exact congrArg _ (congrArg _ (Except.ok.inj h))
        · exact congrArg _ (PState.done.inj (Except.ok.inj h))
      | _ => simp [Except.bind]
  have hs : PState.value [] ≠ .done v := by simp
  constructor
  · intro h
    obtain ⟨pre, rest, heq, hpre⟩ := exists_prefix_of_first hv hs h
    exact ⟨pre, rest, heq, (hparse pre).mpr hpre⟩
  · rintro ⟨pre, rest, rfl, hpre⟩
    exact first_append hv hs rest ((hparse pre).mp hpre)

end First

end Dialect

/-! ## Structs of strings -/

/-- The string that a value is. -/
def Json.text? : Json → Option Str
  | .str t => some t
  | _ => none

/-- What a field of strings takes. -/
def Json.isText : Json → Bool
  | .null | .str _ => true
  | _ => false

/-- The strings under a name, up to letter case. -/
def stringsUnder (name : Str) (kvs : List (Str × Json)) : List Str :=
  kvs.filterMap fun m => if foldName m.1 = foldName name then m.2.text? else none

/-- The last string under a name, the empty one if there is none. -/
def lastUnder (name : Str) (kvs : List (Str × Json)) : Str :=
  (stringsUnder name kvs).getLast?.getD []

theorem stringsUnder_cons (name : Str) (m : Str × Json) (kvs : List (Str × Json)) :
    stringsUnder name (m :: kvs) =
      (if foldName m.1 = foldName name then m.2.text? else none).toList ++
        stringsUnder name kvs := by
  rw [stringsUnder, List.filterMap_cons]
  cases (if foldName m.1 = foldName name then m.2.text? else none) <;> rfl

section Fields

variable {σ : Type} {fields : List (GoField σ)}
  (hfields : (fields.map fun f => foldName f.1).Nodup)

include hfields

theorem find?_of_mem {f : GoField σ} (hf : f ∈ fields) {key : Str}
    (hkey : foldName f.1 = foldName key) :
    fields.find? (fun g => foldName g.1 = foldName key) = some f := by
  induction fields with
  | nil => exact absurd hf List.not_mem_nil
  | cons g fields ih =>
    rw [List.map_cons, List.nodup_cons] at hfields
    rcases List.mem_cons.mp hf with rfl | hf
    · exact List.find?_cons_of_pos (decide_eq_true hkey)
    · have hne : foldName g.1 ≠ foldName key := fun h =>
        hfields.1 (List.mem_map.mpr ⟨f, hf, hkey.trans h.symm⟩)
      rw [List.find?_cons_of_neg (by simpa using hne)]
      exact ih hfields.2 hf

/-- Where no two fields have the same name up to letter case, a key names its field. -/
theorem findField_of_mem {f : GoField σ} (hf : f ∈ fields) {key : Str}
    (hkey : foldName f.1 = foldName key) : findField fields key = some f := by
  rw [findField, find?_of_mem hfields hf hkey]
  cases hexact : fields.find? fun g => g.1 = key with
  | none => rfl
  | some g =>
    have hg : g.1 = key := by simpa using List.find?_some hexact
    have hgf := find?_of_mem hfields (List.mem_of_find?_eq_some hexact)
      (congrArg foldName hg)
    rw [find?_of_mem hfields hf hkey] at hgf
    rw [Option.some_or, hgf]

omit hfields in
theorem foldName_of_findField {f : GoField σ} {key : Str} (h : findField fields key = some f) :
    f ∈ fields ∧ foldName f.1 = foldName key := by
  rcases Option.or_eq_some_iff.mp h with h | ⟨-, h⟩
  · have hkey : f.1 = key := by simpa using List.find?_some h
    exact ⟨List.mem_of_find?_eq_some h, congrArg foldName hkey⟩
  · exact ⟨List.mem_of_find?_eq_some h, by simpa using List.find?_some h⟩

/-- A string field takes the last string under its name. -/
theorem foldl_setField_get {g : σ → Str} {name : Str} {set : Str → σ → σ}
    (hmem : goStringField name set ∈ fields) (hset : ∀ t s, g (set t s) = t)
    (hother : ∀ f ∈ fields, foldName f.1 ≠ foldName name →
      ∀ v s s', f.2 v s = some s' → g s' = g s)
    (kvs : List (Str × Json)) (s : σ × Option GoError) :
    g (kvs.foldl (setField fields) s).1 = (stringsUnder name kvs).getLast?.getD (g s.1) := by
  induction kvs generalizing s with
  | nil => rfl
  | cons m kvs ih =>
    rw [List.foldl_cons, ih, stringsUnder_cons]
    by_cases hkey : foldName m.1 = foldName name
    · have hfind := findField_of_mem hfields hmem hkey.symm
      rw [if_pos hkey, setField, hfind]
      cases m.2 with
      | str t => simp [Json.text?, List.getLast?_cons, goStringField, hset]
      | null | bool | int | float | arr | obj => rfl
    · rw [if_neg hkey]
      suffices h : g (setField fields s m).1 = g s.1 by rw [h]; rfl
      unfold setField
      cases hfind : findField fields m.1 with
      | none => rfl
      | some f =>
        obtain ⟨hf, hname⟩ := foldName_of_findField hfind
        dsimp only
        cases hv : f.2 m.2 s.1 with
        | none => rfl
        | some s' => exact hother f hf (fun h => hkey (hname.symm.trans h)) _ _ _ hv

omit hfields in
/-- Fields of strings take an object without an error exactly if strings and nulls are under
their names. -/
theorem foldl_setField_ok_iff (hstring : ∀ f ∈ fields, ∃ name set, f = goStringField name set)
    (kvs : List (Str × Json)) (s : σ × Option GoError) :
    (kvs.foldl (setField fields) s).2 = none ↔
      s.2 = none ∧ ∀ m ∈ kvs, (findField fields m.1).isSome = true → m.2.isText = true := by
  induction kvs generalizing s with
  | nil => simp
  | cons m kvs ih =>
    have hstep : (setField fields s m).2 = none ↔
        s.2 = none ∧ ((findField fields m.1).isSome = true → m.2.isText = true) := by
      unfold setField
      cases hfind : findField fields m.1 with
      | none => simp
      | some f =>
        obtain ⟨name, set, rfl⟩ := hstring f (foldName_of_findField hfind).1
        cases m.2 <;> simp [goStringField, Json.isText]
    rw [List.foldl_cons, ih, hstep, List.forall_mem_cons, and_assoc]

end Fields

/-! ## Text that is not ASCII -/

section Sequences

variable {a b d e : Byte} (ha : ¬ a.val < 0x80)

include ha

theorem decodeRune_two (h : isTwo a b = true) (t : List Byte) :
    decodeRune (a :: b :: t) = some (codePoint ((a.val - 0xC0) * 64 + (b.val - 0x80)), 1) := by
  rw [decodeRune.eq_def]
  dsimp only
  rw [if_neg ha]
  rcases t with _ | ⟨x, _ | ⟨y, t⟩⟩
  · exact if_pos h
  · exact if_pos h
  · exact if_pos h

theorem decodeRune_three (htwo : isTwo a b = false)
    (h : (isThree a b d && !(a = 0xED && 0xA0 ≤ b.val)) = true) (t : List Byte) :
    decodeRune (a :: b :: d :: t) =
      some (codePoint ((a.val - 0xE0) * 4096 + (b.val - 0x80) * 64 + (d.val - 0x80)), 2) := by
  rw [decodeRune.eq_def]
  dsimp only
  rw [if_neg ha]
  rcases t with _ | ⟨x, t⟩
  all_goals
    dsimp only
    rw [htwo, if_neg Bool.false_ne_true, if_pos h]

theorem decodeRune_four (htwo : isTwo a b = false) (hthree : isThree a b d = false)
    (h : isFour a b d e = true) (t : List Byte) :
    decodeRune (a :: b :: d :: e :: t) = some (codePoint ((a.val - 0xF0) * 262144 +
      (b.val - 0x80) * 4096 + (d.val - 0x80) * 64 + (e.val - 0x80)), 3) := by
  rw [decodeRune.eq_def]
  dsimp only
  rw [if_neg ha, htwo, if_neg Bool.false_ne_true, hthree, Bool.false_and,
    if_neg Bool.false_ne_true, if_pos h]

end Sequences

/-- A rune is read where it stands. -/
theorem decodeRune_utf8Char {c : CodePoint} (hc : c.isSurrogate = false) (t : List Byte) :
    decodeRune (utf8Char c ++ t) = some (c, (utf8Char c).length - 1) := by
  have hlt := c.isLt
  unfold utf8Char
  split_ifs with h1 h2 h3
  · rw [List.singleton_append, decodeRune.eq_def]
    dsimp only
    rw [if_pos (by rw [byte_val]; omega), codePoint_eq c (by rw [byte_val]; omega)]
    rfl
  · have htwo : isTwo (byte (0xC0 + c.val / 64)) (byte (0x80 + c.val % 64)) = true := by
      simp only [isTwo, isContinuation, byte_val, Bool.and_eq_true, decide_eq_true_eq]
      omega
    refine (decodeRune_two (by rw [byte_val]; omega) htwo t).trans ?_
    rw [codePoint_eq c (by simp only [byte_val]; omega)]
    rfl
  · have htwo : isTwo (byte (0xE0 + c.val / 4096)) (byte (0x80 + c.val / 64 % 64)) = false := by
      simp only [isTwo, byte_val, Bool.and_eq_false_iff, decide_eq_false_iff_not]
      omega
    have hthree : (isThree (byte (0xE0 + c.val / 4096)) (byte (0x80 + c.val / 64 % 64))
        (byte (0x80 + c.val % 64)) && !(byte (0xE0 + c.val / 4096) = 0xED &&
          0xA0 ≤ (byte (0x80 + c.val / 64 % 64)).val)) = true := by
      have hED : (0xED : Byte).val = 0xED := rfl
      simp only [CodePoint.isSurrogate, Bool.and_eq_false_iff, decide_eq_false_iff_not] at hc
      simp only [isThree, isContinuation, Fin.ext_iff, byte_val, hED, Bool.and_eq_true,
        Bool.or_eq_true, Bool.not_eq_true', Bool.and_eq_false_iff, decide_eq_true_eq,
        decide_eq_false_iff_not, bne_iff_ne]
      omega
    refine (decodeRune_three (by rw [byte_val]; omega) htwo hthree t).trans ?_
    rw [codePoint_eq c (by simp only [byte_val]; omega)]
    rfl
  · have htwo : isTwo (byte (0xF0 + c.val / 262144)) (byte (0x80 + c.val / 4096 % 64)) = false := by
      simp only [isTwo, byte_val, Bool.and_eq_false_iff, decide_eq_false_iff_not]
      omega
    have hthree : isThree (byte (0xF0 + c.val / 262144)) (byte (0x80 + c.val / 4096 % 64))
        (byte (0x80 + c.val / 64 % 64)) = false := by
      simp only [isThree, byte_val, Bool.and_eq_false_iff, decide_eq_false_iff_not]
      omega
    have hfour : isFour (byte (0xF0 + c.val / 262144)) (byte (0x80 + c.val / 4096 % 64))
        (byte (0x80 + c.val / 64 % 64)) (byte (0x80 + c.val % 64)) = true := by
      simp only [isFour, isContinuation, byte_val, Bool.and_eq_true, Bool.or_eq_true,
        decide_eq_true_eq, bne_iff_ne]
      omega
    refine (decodeRune_four (by rw [byte_val]; omega) htwo hthree hfour t).trans ?_
    rw [codePoint_eq c (by simp only [byte_val]; omega)]
    rfl

theorem utf8Lenient_skip (skip : List Byte) (t : List Byte) :
    utf8Lenient skip.length (skip ++ t) = utf8Lenient 0 t := by
  induction skip with
  | nil => rfl
  | cons b skip ih => exact ih

theorem utf8Lenient_utf8Char {c : CodePoint} (hc : c.isSurrogate = false) (t : List Byte) :
    utf8Lenient 0 (utf8Char c ++ t) = c :: utf8Lenient 0 t := by
  have hrune := decodeRune_utf8Char hc t
  obtain ⟨b, skip, hchar⟩ : ∃ b skip, utf8Char c = b :: skip := by
    unfold utf8Char
    split_ifs <;> exact ⟨_, _, rfl⟩
  rw [hchar, List.cons_append] at hrune ⊢
  rw [utf8Lenient, hrune]
  exact congrArg (c :: ·) (utf8Lenient_skip skip t)

theorem utf8Lenient_utf8Encode {s : Str} (hs : Scalar s) (t : List Byte) :
    utf8Lenient 0 (utf8Encode s ++ t) = s ++ utf8Lenient 0 t := by
  induction s with
  | nil => rfl
  | cons c s ih =>
    rw [utf8Encode, List.flatMap_cons, List.append_assoc,
      utf8Lenient_utf8Char (hs c List.mem_cons_self), List.cons_append]
    exact congrArg (c :: ·) (ih fun x hx => hs x (List.mem_cons_of_mem c hx))

end Gdrl
