import Mathlib.Data.List.Perm.Basic
import Mathlib.Data.List.Flatten

/-!
# Lanes of a list

A list of entries with tags is several lists merged into one. The lane of a tag is what
the list has under it, in order. A list with tags among distinct keys is determined by its
lanes up to the order across them (`perm_flatMap_lane`).
-/

namespace Gdrl

variable {ι α : Type*} [DecidableEq ι]

/-- What a list has under one tag. -/
def lane (i : ι) (l : List (ι × α)) : List α :=
  l.filterMap fun e => if e.1 = i then some e.2 else none

section Lane

variable {i j : ι} {l l' : List (ι × α)}

@[simp] theorem lane_nil (i : ι) : lane i ([] : List (ι × α)) = [] := rfl

@[simp] theorem lane_append (i : ι) (l l' : List (ι × α)) :
    lane i (l ++ l') = lane i l ++ lane i l' := List.filterMap_append ..

@[simp] theorem lane_cons_self (i : ι) (a : α) (l : List (ι × α)) :
    lane i ((i, a) :: l) = a :: lane i l := List.filterMap_cons_some (by simp)

theorem lane_cons_of_ne {e : ι × α} (h : e.1 ≠ i) (l : List (ι × α)) :
    lane i (e :: l) = lane i l := List.filterMap_cons_none (by simp [h])

theorem mem_lane {a : α} : a ∈ lane i l ↔ (i, a) ∈ l := by
  simp only [lane, List.mem_filterMap, Option.ite_none_right_eq_some, Option.some.injEq]
  constructor
  · rintro ⟨⟨j, b⟩, he, rfl, rfl⟩
    exact he
  · intro h
    exact ⟨(i, a), h, rfl, rfl⟩

/-- A sublist has sublists for its lanes. -/
theorem List.Sublist.lane (h : l.Sublist l') (i : ι) : (lane i l).Sublist (Gdrl.lane i l') :=
  h.filterMap _

/-- The entries of the lane are those with the tag. -/
theorem map_lane (i : ι) (l : List (ι × α)) :
    (lane i l).map (fun a => (i, a)) = l.filter fun e => e.1 = i := by
  induction l with
  | nil => rfl
  | cons e l ih =>
    obtain ⟨j, a⟩ := e
    by_cases h : j = i
    · subst h
      simp [ih]
    · rw [lane_cons_of_ne h, ih, List.filter_cons_of_neg (by simpa using h)]

theorem lane_filter_of_ne (h : j ≠ i) (l : List (ι × α)) :
    lane j (l.filter fun e => ¬ e.1 = i) = lane j l := by
  induction l with
  | nil => rfl
  | cons e l ih =>
    obtain ⟨k, a⟩ := e
    by_cases hk : k = i
    · subst hk
      rw [List.filter_cons_of_neg (by simp), lane_cons_of_ne (Ne.symm h), ih]
    · rw [List.filter_cons_of_pos (by simpa using hk)]
      by_cases hj : k = j
      · subst hj
        rw [lane_cons_self, lane_cons_self, ih]
      · rw [lane_cons_of_ne hj, lane_cons_of_ne hj, ih]

/-- A list is its lanes one after the other, in another order. -/
theorem perm_flatMap_lane {ks : List ι} (hks : ks.Nodup) {l : List (ι × α)}
    (h : ∀ e ∈ l, e.1 ∈ ks) : l.Perm (ks.flatMap fun k => (lane k l).map fun a => (k, a)) := by
  induction ks generalizing l with
  | nil =>
    obtain rfl : l = [] := List.eq_nil_iff_forall_not_mem.mpr fun e he => by simpa using h e he
    exact .nil
  | cons k ks ih =>
    obtain ⟨hk, hks⟩ := List.nodup_cons.mp hks
    -- the entries of the other keys
    have hrest : ∀ e ∈ l.filter fun e => ¬ e.1 = k, e.1 ∈ ks := by
      intro e he
      obtain ⟨he, hne⟩ := List.mem_filter.mp he
      exact (List.mem_cons.mp (h e he)).resolve_left (by simpa using hne)
    have hlanes : (ks.flatMap fun j => (lane j (l.filter fun e => ¬ e.1 = k)).map fun a => (j, a)) =
        ks.flatMap fun j => (lane j l).map fun a => (j, a) := by
      refine List.flatMap_congr fun j hj => ?_
      have hjk : j ≠ k := fun heq => hk (heq ▸ hj)
      rw [lane_filter_of_ne hjk]
    rw [List.flatMap_cons, map_lane, ← hlanes]
    refine (List.filter_append_perm (fun e => e.1 = k) l).symm.trans (List.Perm.append_left _ ?_)
    simpa using ih hks hrest

end Lane

end Gdrl
