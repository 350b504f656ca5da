import Mathlib.Data.List.Nodup

/-!
# Insertion-ordered dictionaries

`Dict` is a list of entries with distinct keys, in the order in which the keys came in,
as a Python `dict` iterates. Setting a key that is there keeps its place. `ofPairs` sets
pairs from left to right, so a repeated key keeps its first place and its last value.
-/

namespace Gdrl

variable {α β : Type*}

/-- Entries with distinct keys, oldest key first. -/
structure Dict (α β : Type*) where
  entries : List (α × β)
  nodup : (entries.map Prod.fst).Nodup

namespace Dict

/-- `{}` -/
def empty : Dict α β := ⟨[], List.nodup_nil⟩

def size (d : Dict α β) : ℕ := d.entries.length

/-- The entries that satisfy a test. -/
def filter (p : α × β → Bool) (d : Dict α β) : Dict α β :=
  ⟨d.entries.filter p, d.nodup.sublist (List.filter_sublist.map _)⟩

variable [DecidableEq α]

/-- Set a key in a list of entries. -/
def setEntry (k : α) (v : β) : List (α × β) → List (α × β)
  | [] => [(k, v)]
  | e :: l => if e.1 = k then (k, v) :: l else e :: setEntry k v l

theorem mem_keys_setEntry {k x : α} {v : β} {l : List (α × β)} :
    x ∈ (setEntry k v l).map Prod.fst ↔ x = k ∨ x ∈ l.map Prod.fst := by
  induction l with
  | nil => simp [setEntry]
  | cons e l ih =>
    unfold setEntry
    split_ifs with h
    · simp [h]
    · rw [List.map_cons, List.mem_cons, ih, List.map_cons, List.mem_cons]
      tauto

theorem nodup_setEntry {k : α} {v : β} {l : List (α × β)} (h : (l.map Prod.fst).Nodup) :
    ((setEntry k v l).map Prod.fst).Nodup := by
  induction l with
  | nil => simp [setEntry]
  | cons e l ih =>
    rw [List.map_cons, List.nodup_cons] at h
    unfold setEntry
    split_ifs with hk
    · rw [List.map_cons, List.nodup_cons]
      exact ⟨hk ▸ h.1, h.2⟩
    · rw [List.map_cons, List.nodup_cons, mem_keys_setEntry, not_or]
      exact ⟨⟨hk, h.1⟩, ih h.2⟩

/-- `d[k] = v` -/
def set (k : α) (v : β) (d : Dict α β) : Dict α β :=
  ⟨setEntry k v d.entries, nodup_setEntry d.nodup⟩

/-- `d.get(k)` -/
def get? (d : Dict α β) (k : α) : Option β := d.entries.lookup k

theorem lookup_cons_eq (a x : α) (b : β) (l : List (α × β)) :
    List.lookup x ((a, b) :: l) = if x = a then some b else l.lookup x := by
  rw [List.lookup_cons]
  by_cases h : x = a
  · rw [if_pos h, beq_iff_eq.mpr h]
  · rw [if_neg h, beq_eq_false_iff_ne.mpr h]

theorem lookup_of_notMem {k : α} {l : List (α × β)} (h : k ∉ l.map Prod.fst) :
    l.lookup k = none :=
  List.lookup_eq_none_iff.mpr fun e he => bne_iff_ne.mpr fun hk =>
    h (List.mem_map.mpr ⟨e, he, hk.symm⟩)

theorem lookup_setEntry (k x : α) (v : β) (l : List (α × β)) :
    (setEntry k v l).lookup x = if x = k then some v else l.lookup x := by
  induction l with
  | nil => exact lookup_cons_eq k x v []
  | cons e l ih =>
    obtain ⟨a, b⟩ := e
    unfold setEntry
    split_ifs with hk hx hx
    · rw [lookup_cons_eq, if_pos hx]
    · have ha : ¬x = a := fun h => hx (h.trans hk)
      rw [lookup_cons_eq, lookup_cons_eq, if_neg hx, if_neg ha]
    · rw [lookup_cons_eq, ih, if_pos hx, if_neg (hx ▸ Ne.symm hk)]
    · rw [lookup_cons_eq, lookup_cons_eq, ih, if_neg hx]

@[simp] theorem get?_set (k x : α) (v : β) (d : Dict α β) :
    (d.set k v).get? x = if x = k then some v else d.get? x := lookup_setEntry k x v d.entries

@[simp] theorem get?_empty (k : α) : (empty : Dict α β).get? k = none := rfl

/-- An entry is what looking its key up finds. -/
theorem mem_entries {d : Dict α β} {k : α} {v : β} : (k, v) ∈ d.entries ↔ d.get? k = some v := by
  obtain ⟨l, hl⟩ := d
  show (k, v) ∈ l ↔ l.lookup k = some v
  induction l with
  | nil => simp
  | cons e l ih =>
    obtain ⟨a, b⟩ := e
    rw [List.map_cons, List.nodup_cons] at hl
    rw [List.mem_cons, ih hl.2, lookup_cons_eq]
    split_ifs with hk
    · subst hk
      have hnone : l.lookup k ≠ some v := fun h =>
        hl.1 (List.mem_map.mpr ⟨(k, v), (ih hl.2).mpr h, rfl⟩)
      simp [hnone, eq_comm]
    · simp [hk]

/-- Behind a write an entry is the new one or one from before. -/
theorem mem_entries_set {d : Dict α β} {k : α} {v : β} {e : α × β}
    (h : e ∈ (d.set k v).entries) : e = (k, v) ∨ e ∈ d.entries := by
  obtain ⟨x, w⟩ := e
  rw [mem_entries, get?_set] at h
  split_ifs at h with hx
  · exact Or.inl (by rw [hx, ← Option.some.inj h])
  · exact Or.inr (mem_entries.mpr h)

theorem size_ne_zero_of_get? {d : Dict α β} {k : α} {v : β} (h : d.get? k = some v) :
    d.size ≠ 0 :=
  fun hsize => absurd (List.length_eq_zero_iff.mp hsize ▸ mem_entries.mpr h) List.not_mem_nil

/-- A write adds one key at most. -/
theorem size_set_le (k : α) (v : β) (d : Dict α β) : (d.set k v).size ≤ d.size + 1 := by
  have hlen : ∀ l : List (α × β), (setEntry k v l).length ≤ l.length + 1 := by
    intro l
    induction l with
    | nil => exact Nat.le_refl 1
    | cons e l ih =>
      unfold setEntry
      split_ifs
      · simp
      · simpa using ih
  exact hlen d.entries

/-- What a fold that treats each key apart makes of one key. -/
theorem foldl_entries {σ γ : Type*} (proj : σ → γ) {f : σ → α × β → σ} {step : γ → β → γ} {k : α}
    (hstep : ∀ s e, proj (f s e) = if e.1 = k then step (proj s) e.2 else proj s)
    (d : Dict α β) (s : σ) :
    proj (d.entries.foldl f s) = ((d.get? k).map (step (proj s))).getD (proj s) := by
  obtain ⟨l, hl⟩ := d
  rw [get?]
  dsimp only
  induction l generalizing s with
  | nil => rfl
  | cons e l ih =>
    obtain ⟨key, b⟩ := e
    rw [List.map_cons, List.nodup_cons] at hl
    rw [List.foldl_cons, ih _ hl.2, hstep, lookup_cons_eq]
    by_cases hkey : key = k
    · -- the key does not come again
      rw [lookup_of_notMem (hkey ▸ hl.1), if_pos hkey, if_pos hkey.symm]
      rfl
    · rw [if_neg hkey, if_neg (Ne.symm hkey)]

/-- The same keys with other values. -/
def mapValues {γ : Type*} (f : β → γ) (d : Dict α β) : Dict α γ :=
  ⟨d.entries.map fun e => (e.1, f e.2), by
    rw [List.map_map]
    exact d.nodup⟩

/-- Set pairs from left to right. -/
def ofPairs (l : List (α × β)) : Dict α β := l.foldl (fun d e => d.set e.1 e.2) empty

theorem setEntry_of_notMem {k : α} {v : β} {l : List (α × β)} (h : k ∉ l.map Prod.fst) :
    setEntry k v l = l ++ [(k, v)] := by
  induction l with
  | nil => rfl
  | cons e l ih =>
    rw [List.map_cons, List.mem_cons, not_or] at h
    rw [setEntry, if_neg (Ne.symm h.1), ih h.2, List.cons_append]

/-- A new key goes to the end. -/
theorem entries_set_of_notMem {d : Dict α β} {k : α} {v : β} (h : k ∉ d.entries.map Prod.fst) :
    (d.set k v).entries = d.entries ++ [(k, v)] := setEntry_of_notMem h

theorem entries_foldl_set (l : List (α × β)) (d : Dict α β)
    (h : ((d.entries ++ l).map Prod.fst).Nodup) :
    (l.foldl (fun d e => d.set e.1 e.2) d).entries = d.entries ++ l := by
  induction l generalizing d with
  | nil => rw [List.foldl_nil, List.append_nil]
  | cons e l ih =>
    have hk : e.1 ∉ d.entries.map Prod.fst := by
      rw [List.map_append, List.nodup_append] at h
      exact fun hmem => h.2.2 _ hmem _ (by simp) rfl
    have hset : (d.set e.1 e.2).entries = d.entries ++ [e] := entries_set_of_notMem hk
    rw [List.foldl_cons, ih _ (by simpa [hset] using h), hset, List.append_assoc,
      List.singleton_append]

/-- Pairs with distinct keys are the entries they make. -/
theorem entries_ofPairs {l : List (α × β)} (h : (l.map Prod.fst).Nodup) :
    (ofPairs l).entries = l := by
  rw [ofPairs, entries_foldl_set l empty (by simpa [empty] using h)]
  rfl

/-- Only pairs of the list become entries. -/
theorem mem_of_mem_ofPairs {l : List (α × β)} {e : α × β} (h : e ∈ (ofPairs l).entries) :
    e ∈ l := by
  have hfold : ∀ {l : List (α × β)} {d : Dict α β},
      e ∈ (l.foldl (fun d e => d.set e.1 e.2) d).entries → e ∈ d.entries ∨ e ∈ l := by
    intro l
    induction l with
    | nil => exact fun he => Or.inl he
    | cons x l ih =>
      intro d he
      rcases ih he with he | he
      · rcases mem_entries_set he with rfl | he
        · exact Or.inr List.mem_cons_self
        · exact Or.inl he
      · exact Or.inr (List.mem_cons_of_mem x he)
  exact (hfold h).resolve_left List.not_mem_nil

/-- A dictionary is made by its own entries. -/
theorem ofPairs_entries (d : Dict α β) : ofPairs d.entries = d := by
  have h := entries_ofPairs d.nodup
  obtain ⟨l, hl⟩ := d
  generalize ofPairs l = d' at h
  obtain ⟨l', hl'⟩ := d'
  obtain rfl : l' = l := h
  rfl

end Dict

end Gdrl
