import Gdrl.Relay

/-!
# Partitions by hand

`POST /admin/partition` and `POST /admin/heal` edit the partition table and the gauge
`rl_partition_active`, which is 1 for the pairs that the table blocks. A `heal` that does
not name a pair clears the table and leaves the gauge as it is. So the two go together
exactly as long as no such request meets a table that blocks something
(`mirrors_throughout_iff`).
-/

namespace Gdrl

namespace PartitionTable

theorem blocks_add (t : PartitionTable) (f g f' g' : Str) :
    (t.add f g).blocks f' g' = true ↔ (f', g') = (f, g) ∨ t.blocks f' g' = true := by
  simp [add, blocks]

theorem blocks_remove (t : PartitionTable) (f g f' g' : Str) :
    (t.remove f g).blocks f' g' = true ↔ (f', g') ≠ (f, g) ∧ t.blocks f' g' = true := by
  simp only [remove, blocks, List.contains_iff_mem, List.mem_filter, decide_eq_true_eq]
  exact and_comm

theorem not_blocks_empty (f g : Str) : ¬ empty.blocks f g = true := by simp [empty, blocks]

/-- The table has no rule. -/
def Idle (t : PartitionTable) : Prop := ∀ f g, ¬ t.blocks f g = true

end PartitionTable

/-- The partition table with the gauge of its pairs, an unset one reading as 0. -/
structure Admin where
  table : PartitionTable
  gauge : Str → Str → ℤ

namespace Admin

def init : Admin := ⟨.empty, fun _ _ => 0⟩

/-- A request, with what its body has for `from` and `to`. -/
inductive Request
  | partition (f t : Option Str)
  | heal (f t : Option Str)
  deriving DecidableEq

/-- The body of the response, or the detail of a 400. -/
inductive Response
  | partitioned (f t : Str)
  | healed (f t : Str)
  | healedAll
  | badRequest (detail : Str)
  deriving DecidableEq

/-- The two fields, where both are there and not empty. -/
def pair : Option Str → Option Str → Option (Str × Str)
  | some f, some t => if f = [] ∨ t = [] then none else some (f, t)
  | _, _ => none

/-- `PARTITION_ACTIVE.labels(...).set(v)` -/
def setGauge (s : Admin) (f t : Str) (v : ℤ) : Admin :=
  { s with gauge := fun f' t' => if (f', t') = (f, t) then v else s.gauge f' t' }

/-- `partition` -/
def partition (s : Admin) (f t : Option Str) : Response × Admin :=
  match pair f t with
  | none => (.badRequest (str "from and to are required"), s)
  | some (f, t) => (.partitioned f t, { s with table := s.table.add f t }.setGauge f t 1)

/-- `heal` -/
def heal (s : Admin) (f t : Option Str) : Response × Admin :=
  match pair f t with
  | some (f, t) => (.healed f t, { s with table := s.table.remove f t }.setGauge f t 0)
  | none => (.healedAll, { s with table := .empty })

def handle (s : Admin) : Request → Response × Admin
  | .partition f t => s.partition f t
  | .heal f t => s.heal f t

/-- The requests one after the other. -/
def serve (s : Admin) (rs : List Request) : Admin := rs.foldl (fun s r => (s.handle r).2) s

/-- A request to heal that does not name a pair. -/
def Request.healsAll : Request → Bool
  | .partition _ _ => false
  | .heal f t => (pair f t).isNone

/-- What a request is to the relay, `none` if the table stays. -/
def Request.edit : Request → Option Relay.Event
  | .partition f t => (pair f t).map fun (f, t) => .add f t
  | .heal f t =>
    match pair f t with
    | some (f, t) => some (.remove f t)
    | none => some .clear

/-- The relay's table follows the requests. -/
theorem table_handle (py : Python) (self : Region) {a : Admin} {s : Relay.State}
    (h : a.table = s.table) (r : Request) :
    (a.handle r).2.table = (r.edit.elim s fun e => (Relay.step py self s e).2).table := by
  cases r with
  | partition f t =>
    simp only [handle, partition, Request.edit]
    cases pair f t with
    | none => exact h
    | some p => exact congrArg (fun u => u.add p.1 p.2) h
  | heal f t =>
    simp only [handle, heal, Request.edit]
    cases pair f t with
    | none => rfl
    | some p => exact congrArg (fun u => u.remove p.1 p.2) h

/-- The gauge shows the table. -/
def Mirrors (s : Admin) : Prop := ∀ f t, s.gauge f t = 1 ↔ s.table.blocks f t = true

theorem init_mirrors : init.Mirrors := fun f t =>
  iff_of_false (by decide : (0 : ℤ) ≠ 1) (PartitionTable.not_blocks_empty f t)

theorem serve_append (s : Admin) (rs : List Request) (r : Request) :
    s.serve (rs ++ [r]) = ((s.serve rs).handle r).2 := List.foldl_append

/-- A request that clears the table leaves the gauge. -/
theorem handle_of_healsAll {r : Request} (h : r.healsAll = true) (s : Admin) :
    (s.handle r).2 = { s with table := .empty } := by
  cases r with
  | partition f t => exact absurd h Bool.false_ne_true
  | heal f t => simp only [handle, heal, Option.isNone_iff_eq_none.mp h]

/-- Any other request keeps table and gauge together. -/
theorem Mirrors.handle {s : Admin} (hs : s.Mirrors) {r : Request} (h : r.healsAll = false) :
    (s.handle r).2.Mirrors := by
  intro f' t'
  cases r with
  | partition f t =>
    simp only [Admin.handle, partition]
    split
    · exact hs f' t'
    · rename_i f t hpair
      dsimp only [setGauge]
      rw [PartitionTable.blocks_add]
      split_ifs with hft
      · exact iff_of_true rfl (Or.inl hft)
      · exact (hs f' t').trans (or_iff_right hft).symm
  | heal f t =>
    simp only [Admin.handle, heal]
    split
    · rename_i f t hpair
      dsimp only [setGauge]
      rw [PartitionTable.blocks_remove]
      split_ifs with hft
      · exact iff_of_false (by decide) fun h => h.1 hft
      · exact (hs f' t').trans (and_iff_right hft).symm
    · rename_i hpair
      exact absurd h (by simp [Request.healsAll, hpair])

/-- A request that clears the table keeps them together only if there is nothing to clear. -/
theorem mirrors_handle_iff {s : Admin} (hs : s.Mirrors) {r : Request} (h : r.healsAll = true) :
    (s.handle r).2.Mirrors ↔ s.table.Idle := by
  rw [handle_of_healsAll h]
  constructor
  · intro hmirrors f t hblocks
    exact PartitionTable.not_blocks_empty f t ((hmirrors f t).mp ((hs f t).mpr hblocks))
  · intro hidle f t
    exact (hs f t).trans (iff_of_false (hidle f t) (PartitionTable.not_blocks_empty f t))

/-- **The partition gauge.** For every sequence of requests, gauge and table agree after each
of them if and only if every request that clears the table finds it without a rule. -/
theorem mirrors_throughout_iff (rs : List Request) :
    (∀ before, before <+: rs → (init.serve before).Mirrors) ↔
      ∀ before r, before ++ [r] <+: rs → r.healsAll = true →
        (init.serve before).table.Idle := by
  constructor
  · intro h before r hprefix hall
    have hbefore := h before ((List.prefix_append before [r]).trans hprefix)
    have hafter := h (before ++ [r]) hprefix
    rw [serve_append] at hafter
    exact (mirrors_handle_iff hbefore hall).mp hafter
  · intro h before
    induction before using List.reverseRecOn with
    | nil => exact fun _ => init_mirrors
    | append_singleton before r ih =>
      intro hprefix
      have hbefore := ih ((List.prefix_append before [r]).trans hprefix)
      rw [serve_append]
      cases hall : r.healsAll with
      | false => exact hbefore.handle hall
      | true => exact (mirrors_handle_iff hbefore hall).mpr (h before r hprefix hall)

/-- A partition from us to eu, and a request to heal everything. -/
def samplePartition : List Request := [.partition (some (str "us")) (some (str "eu")),
  .heal none none]

/-- The gauge stays at 1 behind a request that heals everything. -/
theorem not_mirrors : (init.serve samplePartition).gauge (str "us") (str "eu") = 1 ∧
    (init.serve samplePartition).table.blocks (str "us") (str "eu") = false ∧
    ¬ ∀ before, before <+: samplePartition → (init.serve before).Mirrors := by
  have hgauge : (init.serve samplePartition).gauge (str "us") (str "eu") = 1 := by decide +kernel
  have hblocks : (init.serve samplePartition).table.blocks (str "us") (str "eu") = false := by
    decide +kernel
  refine ⟨hgauge, hblocks, fun h => ?_⟩
  have := (h samplePartition (List.prefix_refl _) _ _).mp hgauge
  rw [hblocks] at this
  exact absurd this Bool.false_ne_true

end Admin

end Gdrl
