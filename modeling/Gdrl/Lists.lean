import Mathlib.Data.List.DropRight
import Mathlib.Data.List.Forall2

/-!
# Lists of records

The entries of a list that a step of a system has changed at one place or has made longer
by one, two lists whose entries are related one by one, the last entries of a list, and those
that pass a test.
-/

namespace Gdrl

section Entries

variable {α : Type*} {l : List α} {i j : ℕ} {a b : α}

/-- An entry of a list with one entry replaced. -/
theorem getElem?_set_cases (h : (l.set i a)[j]? = some b) :
    (j = i ∧ b = a) ∨ (j ≠ i ∧ l[j]? = some b) := by
  rw [List.getElem?_set] at h
  split_ifs at h with hij hlt
  · exact Or.inl ⟨hij.symm, (Option.some.inj h).symm⟩
  · exact Or.inr ⟨Ne.symm hij, h⟩

theorem getElem?_set_of_getElem? (h : l[i]? = some a) (b : α) : (l.set i b)[i]? = some b :=
  List.getElem?_set_self (List.getElem?_eq_some_iff.mp h).1

/-- What holds of element `j` behind a change of element `i`. -/
theorem forall_getElem?_set {P : α → Prop} (h : ∀ x, l[j]? = some x → P x) (ha : j = i → P a) :
    ∀ x, (l.set i a)[j]? = some x → P x := by
  intro x hx
  rcases getElem?_set_cases hx with ⟨hij, rfl⟩ | ⟨-, hx⟩
  · exact ha hij
  · exact h x hx

theorem forall_mem_set {P : α → Prop} (h : ∀ x ∈ l, P x) (ha : P a) : ∀ x ∈ l.set i a, P x := by
  intro x hx
  rcases List.mem_or_eq_of_mem_set hx with hx | rfl
  · exact h x hx
  · exact ha

theorem exists_mem_set {P : α → Prop} (hi : l[i]? = some a) (hab : P a → P b)
    (h : ∃ x ∈ l, P x) : ∃ x ∈ l.set i b, P x := by
  obtain ⟨x, hx, hP⟩ := h
  obtain ⟨j, hj⟩ := List.mem_iff_getElem?.mp hx
  by_cases hij : i = j
  · subst hij
    obtain rfl := Option.some.inj (hi.symm.trans hj)
    exact ⟨b, List.mem_of_getElem? (getElem?_set_of_getElem? hi b), hab hP⟩
  · exact ⟨x, List.mem_of_getElem? ((List.getElem?_set_ne hij).trans hj), hP⟩

/-- An entry of a list with one entry more. -/
theorem getElem?_concat_cases (h : (l ++ [a])[j]? = some b) :
    l[j]? = some b ∨ (j = l.length ∧ b = a) := by
  by_cases hj : j < l.length
  · rw [List.getElem?_append_left hj] at h
    exact Or.inl h
  · rw [List.getElem?_append_right (Nat.le_of_not_lt hj)] at h
    obtain ⟨hlt, hb⟩ := List.getElem?_eq_some_iff.mp h
    rw [List.length_singleton] at hlt
    exact Or.inr ⟨by omega, by simpa using hb.symm⟩

theorem getElem?_concat_of_getElem? (h : l[j]? = some b) (a : α) : (l ++ [a])[j]? = some b :=
  (List.getElem?_append_left (List.getElem?_eq_some_iff.mp h).1).trans h

theorem modify_eq_set (h : l[i]? = some a) (f : α → α) : l.modify i f = l.set i (f a) := by
  refine List.ext_getElem? fun j => ?_
  rw [List.getElem?_modify, List.getElem?_set]
  by_cases hij : i = j
  · obtain ⟨hlt, ha⟩ := List.getElem?_eq_some_iff.mp h
    subst hij
    simp [ha, hlt]
  · simp [hij]

/-- Two lists with one entry in common at a place, both replaced there. -/
theorem set_eq_set_iff {l' : List α} {x y : α} (h : l[i]? = some a) (h' : l'[i]? = some a) :
    l.set i x = l'.set i y ↔ l = l' ∧ x = y := by
  have hback : ∀ {m : List α} (z : α), m[i]? = some a → (m.set i z).set i a = m := by
    intro m z hm
    obtain ⟨hlt, rfl⟩ := List.getElem?_eq_some_iff.mp hm
    rw [List.set_set, List.set_getElem_self]
  constructor
  · intro heq
    obtain rfl : l = l' := by rw [← hback x h, heq, hback y h']
    have hat := congrArg (fun m => m[i]?) heq
    obtain ⟨hlt, -⟩ := List.getElem?_eq_some_iff.mp h
    simp only [List.getElem?_set_self hlt] at hat
    exact ⟨rfl, Option.some.inj hat⟩
  · rintro ⟨rfl, rfl⟩
    rfl

end Entries

section Related

variable {α β : Type*} {R : α → β → Prop} {l : List α} {l' : List β} {a : α} {b : β}

theorem forall₂_set (h : List.Forall₂ R l l') (hab : R a b) (i : ℕ) :
    List.Forall₂ R (l.set i a) (l'.set i b) := by
  induction h generalizing i with
  | nil => exact .nil
  | cons hcd h ih =>
    cases i with
    | zero => exact .cons hab h
    | succ i => exact .cons hcd (ih i)

theorem exists_getElem?_of_forall₂ (h : List.Forall₂ R l l') {i : ℕ} (hi : l[i]? = some a) :
    ∃ b, l'[i]? = some b ∧ R a b := by
  induction h generalizing i with
  | nil => simp at hi
  | cons hcd h ih =>
    cases i with
    | zero =>
      obtain rfl := Option.some.inj hi
      exact ⟨_, rfl, hcd⟩
    | succ i => exact ih hi

end Related

/-- What every step of a fold keeps holds at the end, if one of them brings it about. -/
theorem foldl_of_mem {σ α : Type*} {P : σ → Prop} {f : σ → α → σ}
    (hkeep : ∀ s x, P s → P (f s x)) {l : List α} {x : α} (hx : x ∈ l) (hset : ∀ s, P (f s x))
    (s : σ) : P (l.foldl f s) := by
  obtain ⟨l₁, l₂, rfl⟩ := List.append_of_mem hx
  rw [List.foldl_append, List.foldl_cons]
  exact List.foldlRecOn l₂ f (hset _) fun s hs y _ => hkeep s y hs

section Last

variable {α : Type*}

/-- What a bounded buffer has lost does not matter later. -/
theorem rtake_append_rtake (l m : List α) (n : ℕ) :
    (l.rtake n ++ m).rtake n = (l ++ m).rtake n := by
  unfold List.rtake
  simp only [List.drop_append, List.drop_drop, List.length_append, List.length_drop]
  congr 2 <;> omega

theorem rtake_eq_self {l : List α} {n : ℕ} (h : l.length ≤ n) : l.rtake n = l := by
  rw [List.rtake, Nat.sub_eq_zero_of_le h, List.drop_zero]

theorem length_rtake (l : List α) (n : ℕ) : (l.rtake n).length = min l.length n := by
  rw [List.rtake, List.length_drop]
  omega

end Last

section Filter

variable {α : Type*} {p : α → Bool} {l : List α} {i : ℕ} {a b : α}

/-- The place of an entry among those that pass a test. -/
def place (p : α → Bool) (l : List α) (i : ℕ) : ℕ := (l.take i).countP p

theorem length_filter_take : ((l.take i).filter p).length = place p l i :=
  List.countP_eq_length_filter.symm

/-- What passes a test before an entry, of it and behind it. -/
theorem filter_eq_append (p : α → Bool) (h : l[i]? = some a) :
    l.filter p = (l.take i).filter p ++ ([a].filter p ++ (l.drop (i + 1)).filter p) := by
  obtain ⟨hi, rfl⟩ := List.getElem?_eq_some_iff.mp h
  rw [← List.filter_append, ← List.filter_append, List.singleton_append, List.getElem_cons_drop,
    List.take_append_drop]

theorem filter_set_eq_append (p : α → Bool) (h : l[i]? = some a) (b : α) :
    (l.set i b).filter p = (l.take i).filter p ++ ([b].filter p ++ (l.drop (i + 1)).filter p) := by
  rw [filter_eq_append p (getElem?_set_of_getElem? h b), List.take_set_of_le le_rfl,
    List.drop_set_of_lt (Nat.lt_succ_self i)]

theorem getElem?_filter_place (h : l[i]? = some a) (ha : p a = true) :
    (l.filter p)[place p l i]? = some a := by
  rw [filter_eq_append p h, List.filter_cons_of_pos ha, ← length_filter_take]
  simp

theorem filter_set_of_pos (h : l[i]? = some a) (ha : p a = true) (hb : p b = true) :
    (l.set i b).filter p = (l.filter p).set (place p l i) b := by
  rw [filter_set_eq_append p h, filter_eq_append p h, List.filter_cons_of_pos ha,
    List.filter_cons_of_pos hb, ← length_filter_take]
  simp

theorem filter_set_of_neg (h : l[i]? = some a) (ha : p a = false) (hb : p b = false) :
    (l.set i b).filter p = l.filter p := by
  rw [filter_set_eq_append p h, filter_eq_append p h]
  simp [ha, hb]

end Filter

end Gdrl
