import Mathlib.Order.Basic
import Mathlib.Data.List.Basic

/-!
# Gossip

Two facts about replicas that exchange values and merge what they receive.

An action of messages on a state that is commutative and idempotent does not care in which
order or how often the messages come (`foldl_eq_of_mem_iff`).

A family of registers, one per owner and key, is kept by every replica. Values of the
owner travel in messages, and a replica takes over what it receives or keeps what it has.
`Registers.Step` is everything such a system may do in one step, and `Registers.Bounded.step`
says that no replica and no message ever gets ahead of the owner.
-/

namespace Gdrl

/-! ## Commutative idempotent actions -/

section Action

variable {σ α : Type*} {f : σ → α → σ}

theorem foldl_comm (hcomm : ∀ s a b, f (f s a) b = f (f s b) a) (s : σ) (a : α) (l : List α) :
    l.foldl f (f s a) = f (l.foldl f s) a := by
  induction l generalizing s with
  | nil => rfl
  | cons b l ih => rw [List.foldl_cons, List.foldl_cons, hcomm, ih]

/-- A message that is among those to come makes no difference in front of them. -/
theorem foldl_absorb (hcomm : ∀ s a b, f (f s a) b = f (f s b) a)
    (hidem : ∀ s a, f (f s a) a = f s a) {a : α} {l : List α} (ha : a ∈ l) (s : σ) :
    l.foldl f (f s a) = l.foldl f s := by
  induction l generalizing s with
  | nil => exact absurd ha List.not_mem_nil
  | cons b l ih =>
    rw [List.foldl_cons, List.foldl_cons]
    rcases List.mem_cons.mp ha with rfl | ha
    · rw [hidem]
    · rw [hcomm, ih ha]

theorem foldl_absorb_list (hcomm : ∀ s a b, f (f s a) b = f (f s b) a)
    (hidem : ∀ s a, f (f s a) a = f s a) {l l' : List α} (h : ∀ a ∈ l, a ∈ l') (s : σ) :
    l'.foldl f (l.foldl f s) = l'.foldl f s := by
  induction l generalizing s with
  | nil => rfl
  | cons a l ih =>
    rw [List.foldl_cons, ih (fun x hx => h x (List.mem_cons_of_mem a hx)),
      foldl_absorb hcomm hidem (h a List.mem_cons_self)]

theorem foldl_swap (hcomm : ∀ s a b, f (f s a) b = f (f s b) a) (l l' : List α) (s : σ) :
    l'.foldl f (l.foldl f s) = l.foldl f (l'.foldl f s) := by
  induction l generalizing s with
  | nil => rfl
  | cons a l ih => rw [List.foldl_cons, List.foldl_cons, ih, foldl_comm hcomm]

/-- The same messages, in any order and any number, lead to the same state. -/
theorem foldl_eq_of_mem_iff (hcomm : ∀ s a b, f (f s a) b = f (f s b) a)
    (hidem : ∀ s a, f (f s a) a = f s a) {l l' : List α} (h : ∀ a, a ∈ l ↔ a ∈ l') (s : σ) :
    l.foldl f s = l'.foldl f s := by
  rw [← foldl_absorb_list hcomm hidem (fun a ha => (h a).mpr ha) s, foldl_swap hcomm,
    foldl_absorb_list hcomm hidem fun a ha => (h a).mp ha]

end Action

/-! ## Single-writer registers -/

/-- Registers replicated over `ι`, for keys `κ` : `top k r` is the highest value that owner
`r` has ever given to the register of key `k`, `val q k r` what replica `q` holds there,
and `carried k r v` says that some message holds the value `v` for it. -/
structure Registers (ι κ α : Type*) where
  top : κ → ι → α
  val : ι → κ → ι → α
  carried : κ → ι → α → Prop

namespace Registers

variable {ι κ α : Type*}

/-- No replica and no message is ahead of the owner. -/
structure Bounded [LE α] (s : Registers ι κ α) : Prop where
  val_le : ∀ q k r, s.val q k r ≤ s.top k r
  carried_le : ∀ k r v, s.carried k r v → v ≤ s.top k r

/-- What one step may do : owners raise their registers, a replica loses a value, takes
over what a message carries, or what the owner has, and new messages hold no more than
their owner. -/
structure Step [LE α] (s s' : Registers ι κ α) : Prop where
  top : ∀ k r, s.top k r ≤ s'.top k r
  val : ∀ q k r, s'.val q k r ≤ s.val q k r ∨ s.carried k r (s'.val q k r) ∨
    s'.val q k r ≤ s'.top k r
  carried : ∀ k r v, s'.carried k r v → s.carried k r v ∨ v ≤ s.val r k r ∨ v ≤ s'.top k r

theorem Bounded.step [Preorder α] {s s' : Registers ι κ α} (hs : s.Bounded) (h : Step s s') :
    s'.Bounded := by
  refine ⟨fun q k r => ?_, fun k r v hv => ?_⟩
  · rcases h.val q k r with hle | hc | hle
    · exact (hle.trans (hs.val_le q k r)).trans (h.top k r)
    · exact (hs.carried_le k r _ hc).trans (h.top k r)
    · exact hle
  · rcases h.carried k r v hv with hc | hle | hle
    · exact (hs.carried_le k r v hc).trans (h.top k r)
    · exact (hle.trans (hs.val_le r k r)).trans (h.top k r)
    · exact hle

end Registers

end Gdrl
