import CoroRpc.Lib.Memory
import CoroRpc.Lib.Turns

namespace CoroRpc.Rpc

open Memory Turns

structure Endpoint where
  host : Bytes
  port : UInt16
  weight : Int32
  healthy : Bool
  deriving DecidableEq

structure RoundRobinLoadBalancer where
  endpoints : List Endpoint := []
  current : UInt64 := 0

namespace RoundRobinLoadBalancer

def update (_ : RoundRobinLoadBalancer) (endpoints : List Endpoint) : RoundRobinLoadBalancer :=
  { endpoints, current := 0 }

def select (b : RoundRobinLoadBalancer) : Option Endpoint × RoundRobinLoadBalancer :=
  if b.endpoints = [] then (none, b)
  else
    let idx := b.current.toNat % b.endpoints.length
    (b.endpoints[idx]?, { b with current := b.current + 1 })

end RoundRobinLoadBalancer

def Endpoint.share (e : Endpoint) : Nat := (max 1 e.weight.toInt).toNat

structure WeightedRoundRobinLoadBalancer where
  endpoints : List Endpoint := []
  weightedIndices : List Nat := []
  current : UInt64 := 0

namespace WeightedRoundRobinLoadBalancer

def update (_ : WeightedRoundRobinLoadBalancer) (endpoints : List Endpoint) : WeightedRoundRobinLoadBalancer where
  endpoints
  weightedIndices := endpoints.zipIdx.flatMap fun x => List.replicate x.1.share x.2
  current := 0

def select (b : WeightedRoundRobinLoadBalancer) : Option Endpoint × WeightedRoundRobinLoadBalancer :=
  if b.weightedIndices = [] then (none, b)
  else
    let idx := b.current.toNat % b.weightedIndices.length
    (b.weightedIndices[idx]?.bind (b.endpoints[·]?), { b with current := b.current + 1 })

end WeightedRoundRobinLoadBalancer

/-- The results are those of positions of the list, each as often as `times` says. -/
def Serves (endpoints : List Endpoint) (times : Endpoint → Nat) (results : List (Option Endpoint)) : Prop :=
  ∃ positions : List Nat, results = positions.map (endpoints[·]?) ∧
    ∀ i, positions.count i = (endpoints[i]?.map times).getD 0

variable {endpoints : List Endpoint}

theorem count_weightedIndices (endpoints : List Endpoint) (k i : Nat) :
    ((endpoints.zipIdx k).flatMap fun x => List.replicate x.1.share x.2).count i =
      if k ≤ i then (endpoints[i - k]?.map Endpoint.share).getD 0 else 0 := by
  induction endpoints generalizing k with
  | nil => simp
  | cons e rest ih =>
      rw [List.zipIdx_cons, List.flatMap_cons, List.count_append, ih, List.count_replicate]
      by_cases hle : k ≤ i
      · by_cases heq : k = i
        · subst heq
          simp
        · have hsub : i - k = i - (k + 1) + 1 := by omega
          have hlt : k + 1 ≤ i := by omega
          simp [heq, hle, hlt, hsub]
      · have hlt : ¬k + 1 ≤ i := by omega
        have hne : k ≠ i := by omega
        simp [hle, hlt, hne]

theorem length_weightedIndices (endpoints : List Endpoint) (k : Nat) :
    ((endpoints.zipIdx k).flatMap fun x => List.replicate x.1.share x.2).length =
      (endpoints.map Endpoint.share).sum := by
  induction endpoints generalizing k with
  | nil => rfl
  | cons e rest ih =>
      rw [List.zipIdx_cons, List.flatMap_cons, List.length_append, List.length_replicate, ih, List.map_cons,
        List.sum_cons]

theorem Endpoint.share_pos (e : Endpoint) : 0 < e.share := by
  rw [share]
  omega

theorem serves_of_table {times : Endpoint → Nat} {table : List Nat} {k : Nat} {results : List (Option Endpoint)}
    (hresults : results = (List.range table.length).map fun j =>
      table[(k + j) % 2 ^ 64 % table.length]?.bind (endpoints[·]?))
    (hne : table ≠ []) (hk : k + table.length ≤ 2 ^ 64)
    (hcount : ∀ i, table.count i = (endpoints[i]?.map times).getD 0) : Serves endpoints times results := by
  have hpos : 0 < table.length := List.length_pos_iff.mpr hne
  have hlt : k % 2 ^ 64 + table.length ≤ 2 ^ 64 := by
    rw [Nat.mod_eq_of_lt (by omega)]
    exact hk
  obtain ⟨positions, hperm, hread⟩ := exists_perm_table hne hlt
  refine ⟨positions, ?_, fun i => ?_⟩
  · have hbind := congrArg (List.map fun p : Option Nat => p.bind (endpoints[·]?)) hread
    rw [List.map_map, List.map_map] at hbind
    exact hresults.trans hbind
  · rw [hperm.count_eq]
    exact hcount i

namespace RoundRobinLoadBalancer

def counting (endpoints : List Endpoint) (c : Nat) : RoundRobinLoadBalancer := ⟨endpoints, .ofNat c⟩

theorem select_counting (hne : endpoints ≠ []) (c : Nat) :
    select (counting endpoints c) =
      (endpoints[c % 2 ^ 64 % endpoints.length]?, counting endpoints (c + 1)) := by
  rw [select, counting, if_neg hne, UInt64.toNat_ofNat', counting, UInt64.ofNat_add]
  rfl

theorem serves_window (b : RoundRobinLoadBalancer) {k : Nat} (hne : endpoints ≠ [])
    (hk : k + endpoints.length ≤ 2 ^ 64) :
    Serves endpoints (fun _ => 1) (window select k endpoints.length (b.update endpoints)) := by
  have hpos : 0 < endpoints.length := List.length_pos_iff.mpr hne
  have hwindow := window_eq (select_counting hne) k endpoints.length
  have hresults : window select k endpoints.length (b.update endpoints) =
      (List.range (List.range endpoints.length).length).map fun j =>
        (List.range endpoints.length)[(k + j) % 2 ^ 64 % (List.range endpoints.length).length]?.bind
          (endpoints[·]?) := by
    rw [List.length_range]
    refine hwindow.trans (List.map_congr_left fun j _ => ?_)
    rw [List.getElem?_range (Nat.mod_lt _ hpos), Option.bind_some]
  refine serves_of_table hresults ?_ ?_ fun i => ?_
  · rw [ne_eq, List.range_eq_nil]
    exact Nat.ne_of_gt hpos
  · rwa [List.length_range]
  · by_cases hi : i < endpoints.length
    · rw [List.count_eq_one_of_mem List.nodup_range (List.mem_range.mpr hi), List.getElem?_eq_getElem hi]
      rfl
    · rw [List.count_eq_zero_of_not_mem (by simpa using hi), List.getElem?_eq_none (Nat.not_lt.mp hi)]
      rfl

theorem results_nil (b : RoundRobinLoadBalancer) (n : Nat) :
    results select n (b.update []) = List.replicate n none := by
  apply results_fixed
  rfl

end RoundRobinLoadBalancer

namespace WeightedRoundRobinLoadBalancer

def counting (endpoints : List Endpoint) (c : Nat) : WeightedRoundRobinLoadBalancer :=
  { update {} endpoints with current := .ofNat c }

theorem weightedIndices_ne_nil (b : WeightedRoundRobinLoadBalancer) (hne : endpoints ≠ []) :
    (b.update endpoints).weightedIndices ≠ [] := by
  obtain ⟨e, rest, rfl⟩ := List.exists_cons_of_ne_nil hne
  apply List.ne_nil_of_length_pos
  rw [update, length_weightedIndices, List.map_cons, List.sum_cons]
  exact Nat.add_pos_left e.share_pos _

theorem select_counting (hne : endpoints ≠ []) (c : Nat) :
    select (counting endpoints c) =
      ((update {} endpoints).weightedIndices[
          c % 2 ^ 64 % (update {} endpoints).weightedIndices.length]?.bind (endpoints[·]?),
        counting endpoints (c + 1)) := by
  have htable : (counting endpoints c).weightedIndices ≠ [] := weightedIndices_ne_nil {} hne
  rw [select, if_neg htable, counting, UInt64.toNat_ofNat', counting, UInt64.ofNat_add]
  rfl

theorem serves_window (b : WeightedRoundRobinLoadBalancer) {k : Nat} (hne : endpoints ≠ [])
    (hk : k + (endpoints.map Endpoint.share).sum ≤ 2 ^ 64) :
    Serves endpoints Endpoint.share
      (window select k (endpoints.map Endpoint.share).sum (b.update endpoints)) := by
  have hlen : (b.update endpoints).weightedIndices.length = (endpoints.map Endpoint.share).sum :=
    length_weightedIndices endpoints 0
  rw [← hlen] at hk ⊢
  refine serves_of_table (window_eq (select_counting hne) k _) (weightedIndices_ne_nil b hne) hk fun i => ?_
  have hcount := count_weightedIndices endpoints 0 i
  rwa [if_pos (Nat.zero_le i), Nat.sub_zero] at hcount

theorem results_nil (b : WeightedRoundRobinLoadBalancer) (n : Nat) :
    results select n (b.update []) = List.replicate n none := by
  apply results_fixed
  rfl

end WeightedRoundRobinLoadBalancer

/-- In every window of the calls behind an update, as long as the counter does not start again, the round
robin serves each endpoint once and the weighted one serves it as often as its weight says, and at least
once. -/
theorem load_balancers_fair (r : RoundRobinLoadBalancer) (w : WeightedRoundRobinLoadBalancer)
    (endpoints : List Endpoint) (k : Nat) :
    (endpoints ≠ [] →
      (k + endpoints.length ≤ 2 ^ 64 →
        Serves endpoints (fun _ => 1)
          (window RoundRobinLoadBalancer.select k endpoints.length (r.update endpoints))) ∧
      (k + (endpoints.map Endpoint.share).sum ≤ 2 ^ 64 →
        Serves endpoints Endpoint.share
          (window WeightedRoundRobinLoadBalancer.select k (endpoints.map Endpoint.share).sum
            (w.update endpoints)))) ∧
    (endpoints = [] →
      results RoundRobinLoadBalancer.select k (r.update endpoints) = List.replicate k none ∧
        results WeightedRoundRobinLoadBalancer.select k (w.update endpoints) = List.replicate k none) := by
  constructor
  · intro hne
    exact ⟨r.serves_window hne, w.serves_window hne⟩
  · rintro rfl
    exact ⟨r.results_nil k, w.results_nil k⟩

def twoEndpoints : List Endpoint := [⟨[65], 8001, 3, true⟩, ⟨[66], 8002, -1, true⟩]

theorem load_balancers_fair_two :
    Serves twoEndpoints (fun _ => 1) (window RoundRobinLoadBalancer.select 1 2 (.update {} twoEndpoints)) ∧
      Serves twoEndpoints Endpoint.share
        (window WeightedRoundRobinLoadBalancer.select 1 4 (.update {} twoEndpoints)) := by
  have h := (load_balancers_fair {} {} twoEndpoints 1).1 (by decide)
  exact ⟨h.1 (by decide), h.2 (by decide)⟩

end CoroRpc.Rpc
