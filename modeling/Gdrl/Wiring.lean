import Gdrl.Policy
import Gdrl.Dict
import Mathlib.Data.List.Infix

/-!
# The wiring of the peers

`amain` gets one URL for each peer and looks for the region of each in its text : it takes
the first name of a region not its own that the URL contains, wherever this is. The client
of the URL goes into a dictionary under the region found, and `Transport` tags what the
client yields with it.

The name of a peer's host may come behind another region's that happens to be part of the
URL, such as the `us` of a user `museum`. Then the peer is taken for that region, and the
client of one of the two is lost (`wired_iff`).
-/

namespace Gdrl

/-- `a` comes before `b` where `_infer_region_from_url` goes through the regions. -/
def Region.Before (a b : Region) : Prop := [a, b].Sublist Region.all

instance (a b : Region) : Decidable (a.Before b) := inferInstanceAs (Decidable (List.Sublist _ _))

theorem Region.before_iff {a b : Region} :
    a.Before b ↔ a = us ∧ b ≠ us ∨ a = eu ∧ b = asia := by
  cases a <;> cases b <;> decide

/-- The first region that satisfies a test. -/
theorem Region.find?_all_eq_some {p : Region → Bool} {q : Region} :
    all.find? p = some q ↔ p q = true ∧ ∀ r, r.Before q → p r = false := by
  have hall : ∀ {P : Region → Prop}, (∀ r, P r) ↔ P us ∧ P eu ∧ P asia := by
    intro P
    refine ⟨fun h => ⟨h us, h eu, h asia⟩, fun h r => ?_⟩
    cases r with
    | us => exact h.1
    | eu => exact h.2.1
    | asia => exact h.2.2
  rw [hall]
  cases q <;> cases hus : p us <;> cases heu : p eu <;> cases hasia : p asia <;>
    simp [before_iff, all, hus, heu, hasia]

namespace Wiring

/-! ## URLs -/

/-- `redis://[user[:password]@]host[:port][/db]`, with a region that the host names. -/
structure PeerUrl where
  credentials : Option (Str × Option Str)
  host : Str
  port : Option Str
  db : Option Str
  region : Region
  named : region.name <:+: host

namespace PeerUrl

/-- A part of a URL that may be absent, behind its separator. -/
def optional (separator : CodePoint) (part : Option Str) : Str := part.elim [] (separator :: ·)

/-- `user[:password]@` -/
def userinfo (u : PeerUrl) : Str :=
  u.credentials.elim [] fun c => c.1 ++ optional 58 c.2 ++ [64]

def text (u : PeerUrl) : Str :=
  str "redis://" ++ u.userinfo ++ u.host ++ optional 58 u.port ++ optional 47 u.db

theorem host_infix_text (u : PeerUrl) : u.host <:+: u.text :=
  List.infix_append_of_infix_left (List.infix_append_of_infix_left (List.infix_append_right ..))

theorem name_infix_text (u : PeerUrl) : u.region.name <:+: u.text :=
  u.named.trans u.host_infix_text

end PeerUrl

/-- The URLs of the peers of one region. -/
structure PeerUrls (own : Region) where
  urls : List PeerUrl
  distinct : (urls.map PeerUrl.region).Nodup
  foreign : ∀ u ∈ urls, u.region ≠ own

/-! ## The peers map -/

/-- `_infer_region_from_url`, `none` where it raises `RuntimeError`. -/
def inferRegionFromUrl (url : Str) (self : Region) : Option Region :=
  Region.all.find? fun r => r ≠ self ∧ r.name <:+: url

/-- `Redis.from_url` of a peer's URL, and the client of the local Redis. -/
inductive Client
  | peer (url : Str)
  | home
  deriving DecidableEq

/-- One round of the loop in `amain`. -/
def addPeer (self : Region) (peers : Dict Region Client) (url : Str) :
    Option (Dict Region Client) :=
  (inferRegionFromUrl url self).map fun r => peers.set r (.peer url)

/-- `peers` in `amain`, `none` where the loop raises. -/
def peersOf (self : Region) (urls : List Str) : Option (Dict Region Client) :=
  urls.foldlM (addPeer self) .empty

/-! ## Transport -/

/-- The `_peers` of a `Transport`, the local Redis among them. -/
def subscribed (self : Region) (peers : Dict Region Client) : Dict Region Client :=
  peers.set self .home

/-- What `_pump` puts into the queue, given what the Redis of each client publishes. -/
def pump (published : Client → List (List Byte)) (e : Region × Client) :
    List (Region × List Byte) :=
  (published e.2).map fun raw => (e.1, raw)

/-- What `subscribe_peers` may yield : what the pumps put into the queue, in some order. -/
def Yields (self : Region) (peers : Dict Region Client) (published : Client → List (List Byte))
    (out : List (Region × List Byte)) : Prop :=
  out.Perm ((subscribed self peers).entries.flatMap (pump published))

/-- The clients with their true origin. -/
def origins (self : Region) (urls : List PeerUrl) : List (Region × Client) :=
  urls.map (fun u => (u.region, .peer u.text)) ++ [(self, .home)]

/-- Each URL has its entry, under the region that its host names, and every message of a
peer and of the local Redis is yielded once, with its true origin. -/
structure Faithful (own : Region) (urls : List PeerUrl) (peers : Dict Region Client) : Prop where
  entries : peers.entries = urls.map fun u => (u.region, .peer u.text)
  yields : ∀ published out, Yields own peers published out →
    out.Perm ((origins own urls).flatMap (pump published))

/-! ## Inference -/

/-- The names that mislead : of a region not the own one that comes before the one named. -/
def Misleading (self : Region) (u : PeerUrl) (r : Region) : Prop :=
  r ≠ self ∧ r.Before u.region ∧ r.name <:+: u.text

instance (self : Region) (u : PeerUrl) (r : Region) : Decidable (Misleading self u r) :=
  inferInstanceAs (Decidable (_ ∧ _ ∧ _))

/-- A peer's URL always has a region. -/
theorem inferRegionFromUrl_isSome {self : Region} {u : PeerUrl} (h : u.region ≠ self) :
    (inferRegionFromUrl u.text self).isSome = true := by
  rw [inferRegionFromUrl, List.find?_isSome]
  exact ⟨u.region, u.region.mem_all, by simp [h, u.name_infix_text]⟩

/-- It is the region named unless an earlier name misleads. -/
theorem inferRegionFromUrl_eq_iff {self : Region} {u : PeerUrl} (h : u.region ≠ self) :
    inferRegionFromUrl u.text self = some u.region ↔ ∀ r, ¬ Misleading self u r := by
  rw [inferRegionFromUrl, Region.find?_all_eq_some]
  simp only [decide_eq_true_eq, decide_eq_false_iff_not]
  constructor
  · rintro ⟨-, hnone⟩ r ⟨hself, hbefore, hname⟩
    exact hnone r hbefore ⟨hself, hname⟩
  · intro hnone
    exact ⟨⟨h, u.name_infix_text⟩, fun r hbefore hr => hnone r ⟨hr.1, hbefore, hr.2⟩⟩

/-- The region that the loop takes for the peer's. -/
def inferred (self : Region) (u : PeerUrl) : Region :=
  (inferRegionFromUrl u.text self).getD u.region

theorem inferRegionFromUrl_eq_inferred {self : Region} {u : PeerUrl} (h : u.region ≠ self) :
    inferRegionFromUrl u.text self = some (inferred self u) := by
  obtain ⟨r, hr⟩ := Option.isSome_iff_exists.mp (inferRegionFromUrl_isSome h)
  rw [inferred, hr, Option.getD_some]

theorem foldlM_addPeer {self : Region} {urls : List PeerUrl} (h : ∀ u ∈ urls, u.region ≠ self)
    (peers : Dict Region Client) :
    (urls.map PeerUrl.text).foldlM (addPeer self) peers =
      some ((urls.map fun u => (inferred self u, Client.peer u.text)).foldl
        (fun d e => d.set e.1 e.2) peers) := by
  induction urls generalizing peers with
  | nil => rfl
  | cons u urls ih =>
    rw [List.forall_mem_cons] at h
    rw [List.map_cons, List.foldlM_cons, addPeer, inferRegionFromUrl_eq_inferred h.1]
    exact ih h.2 _

variable {self : Region}

/-- The loop never raises, and sets what it has inferred. -/
theorem peersOf_text (w : PeerUrls self) :
    peersOf self (w.urls.map PeerUrl.text) =
      some (.ofPairs (w.urls.map fun u => (inferred self u, Client.peer u.text))) :=
  foldlM_addPeer w.foreign .empty

/-- Where every entry is right, so are the tags. -/
theorem faithful_of_entries (w : PeerUrls self) {peers : Dict Region Client}
    (h : peers.entries = w.urls.map fun u => (u.region, Client.peer u.text)) :
    Faithful self w.urls peers := by
  refine ⟨h, fun published out hout => ?_⟩
  have hself : self ∉ peers.entries.map Prod.fst := by
    rw [h, List.map_map]
    intro hmem
    obtain ⟨u, hu, hregion⟩ := List.mem_map.mp hmem
    exact w.foreign u hu hregion
  have horigins : (subscribed self peers).entries = origins self w.urls := by
    rw [subscribed, Dict.entries_set_of_notMem hself, h, origins]
  rw [← horigins]
  exact hout

/-- **The wiring.** The peers map has its entry for each URL, under the region that the
host names, and so every message has its true origin, exactly if no URL holds the name of a
region not the own one that comes before the region named. -/
theorem wired_iff (w : PeerUrls self) :
    (∃ peers, peersOf self (w.urls.map PeerUrl.text) = some peers ∧
      Faithful self w.urls peers) ↔
      ∀ u ∈ w.urls, ∀ r, ¬ Misleading self u r := by
  rw [peersOf_text]
  constructor
  · rintro ⟨peers, hpeers, hfaithful⟩ u hu
    have hmem : (u.region, Client.peer u.text) ∈ peers.entries := by
      rw [hfaithful.entries]
      exact List.mem_map.mpr ⟨u, hu, rfl⟩
    rw [← Option.some.inj hpeers] at hmem
    obtain ⟨u', hu', he⟩ := List.mem_map.mp (Dict.mem_of_mem_ofPairs hmem)
    obtain ⟨hregion, hclient⟩ := Prod.mk.inj he
    -- an entry of the same text, and so of the same inference
    have hinfer := inferRegionFromUrl_eq_inferred (w.foreign u' hu')
    rw [Client.peer.inj hclient, hregion] at hinfer
    exact (inferRegionFromUrl_eq_iff (w.foreign u hu)).mp hinfer
  · intro h
    have hinferred : ∀ u ∈ w.urls, inferred self u = u.region := fun u hu => by
      rw [inferred, (inferRegionFromUrl_eq_iff (w.foreign u hu)).mpr (h u hu), Option.getD_some]
    have hpairs : (w.urls.map fun u => (inferred self u, Client.peer u.text)) =
        w.urls.map fun u => (u.region, Client.peer u.text) :=
      List.map_congr_left fun u hu => by rw [hinferred u hu]
    refine ⟨_, rfl, faithful_of_entries w ?_⟩
    rw [hpairs, Dict.entries_ofPairs]
    rw [List.map_map]
    exact w.distinct

/-- Two peers of `asia`, the second with a user whose name has `us` in it. -/
def museumUrls : PeerUrls .asia where
  urls := [⟨none, str "redis-us", some (str "6379"), none, .us, by decide⟩,
    ⟨some (str "museum", some (str "pw")), str "redis-eu", some (str "6379"), some (str "0"), .eu,
      by decide⟩]
  distinct := by decide
  foreign := by decide

/-- Each host has the name of one region only. The second client replaces the first, and no
one listens to `us`. -/
theorem not_wired :
    (∀ u ∈ museumUrls.urls, ∀ r : Region, r.name <:+: u.host ↔ r = u.region) ∧
    museumUrls.urls.map PeerUrl.text =
      [str "redis://redis-us:6379", str "redis://museum:pw@redis-eu:6379/0"] ∧
    (peersOf .asia (museumUrls.urls.map PeerUrl.text)).map Dict.entries =
      some [(.us, .peer (str "redis://museum:pw@redis-eu:6379/0"))] ∧
    ¬ ∃ peers, peersOf .asia (museumUrls.urls.map PeerUrl.text) = some peers ∧
      Faithful .asia museumUrls.urls peers := by
  have hpeers : (peersOf .asia (museumUrls.urls.map PeerUrl.text)).map Dict.entries =
      some [(.us, .peer (str "redis://museum:pw@redis-eu:6379/0"))] := by
    decide +kernel
  refine ⟨by decide +kernel, by decide +kernel, hpeers, ?_⟩
  rintro ⟨peers, h, hfaithful⟩
  rw [h, Option.map_some, hfaithful.entries] at hpeers
  exact absurd hpeers (by decide +kernel)

end Wiring

end Gdrl
