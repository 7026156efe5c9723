import AnonyChat.Distribution

/-! # The search on any graph

The loop of `manage_graph` is a breadth-first search on whatever graph it is given: with
cycles, with connections entered several times or to the node itself, with nodes that
cannot be reached.  What it rests on is the list of nodes in sight.  `list_add` leaves the
`next` link of every cell but the first unset, and the search reads that link whenever it
looks for a node that is not in sight yet; `finds_iff` counts the words that matter.
-/
namespace AnonyChat
open Linked

/-- A finite graph; the connections of its nodes are nodes of it. -/
structure FiniteGraph where
  graph : Graph
  nodes : List Nat
  wellFormed : WellFormed graph
  closed : ∀ u ∈ nodes, ∀ v ∈ (graph u).connections, v ∈ nodes

/-- Every call that enqueued a node took two cells, and they have different nodes. -/
def EnqueuedOnce (s : Scan) : Prop :=
  ∃ cells q, Chained s.heap s.sight cells q ∧ s.calls = 2 * cells.length ∧
    (cells.map Prod.snd).Nodup

/-- The search for a value ends, enqueues no node twice, and its target has the value
exactly when a node with it can be reached. -/
def Finds (fuel : Nat) (malloc : Nat → Malloc Nat) (heap : Heap Nat) (g : Graph)
    (start val : Nat) : Prop :=
  ∃ s₀ target s, scan_start malloc heap start = .ok s₀ ∧
    scan_loop fuel malloc g val fuel none s₀ = .ok (some target, s) ∧ EnqueuedOnce s ∧
    ((g target).data = val ↔ ∃ v, Bfs.Reach (fun u => (g u).connections) start v ∧ (g v).data = val)

/-- The nodes a breadth-first search sees before it takes one with the value off its
queue. -/
def nodes_in_sight (G : FiniteGraph) (start val : Nat) : List Nat :=
  match Bfs.search (fun u => (G.graph u).connections) (fun u => (G.graph u).data == val)
      (G.nodes.length + 1) none ⟨[start], [start]⟩ with
  | some (_, b) => b.seen
  | none => []

section Search
variable {fuel start val : Nat} {malloc : Nat → Malloc Nat}

theorem FiniteGraph.mem_of_reach (G : FiniteGraph) (hstart : start ∈ G.nodes) {v : Nat}
    (hv : Bfs.Reach (fun u => (G.graph u).connections) start v) : v ∈ G.nodes := by
  induction hv with
  | refl => exact hstart
  | tail _ hedge ih => exact G.closed _ ih _ hedge

/-- **The abstract search** on the graph: it ends at a node with the value or at one
without it when there is none. -/
theorem FiniteGraph.search (G : FiniteGraph) (hstart : start ∈ G.nodes) (val : Nat)
    (hfuel : G.nodes.length < fuel) :
    ∃ target b, Bfs.search (fun u => (G.graph u).connections)
        (fun u => (G.graph u).data == val) fuel none ⟨[start], [start]⟩ = some (some target, b) ∧
      b.seen = nodes_in_sight G start val ∧ b.seen.Nodup ∧ b.seen.length ≤ G.nodes.length ∧
      ((G.graph target).data = val ↔
        ∃ v, Bfs.Reach (fun u => (G.graph u).connections) start v ∧ (G.graph v).data = val) := by
  obtain ⟨t, b, hsearch, -, hnodup, hreach, hfound⟩ :=
    Bfs.search_spec (fun v hv => G.mem_of_reach hstart hv)
      (Bfs.Inv.init _ (fun u => (G.graph u).data == val) start)
      (show G.nodes.length < G.nodes.length + 1 + 0 by omega)
      (fun v (hv : none = some v) => nomatch hv)
  obtain ⟨target, rfl⟩ := Option.isSome_iff_exists.mp
    (Bfs.search_isSome hsearch (Or.inl (List.cons_ne_nil _ _)))
  refine ⟨target, b, Bfs.search_fuel_le hsearch hfuel, ?_, hnodup, ?_, ?_⟩
  · rw [nodes_in_sight, hsearch]
  · exact (List.subperm_of_subset hnodup fun v hv =>
      G.mem_of_reach hstart (hreach v hv)).length_le
  · rcases hfound with ⟨v, ht, hv, hvr⟩ | ⟨hlast, hnone⟩
    · cases ht
      have hdata : (G.graph target).data = val := by simpa using hv
      exact iff_of_true hdata ⟨target, hvr, hdata⟩
    · refine iff_of_false (by simpa using hlast target rfl) ?_
      rintro ⟨v, hvr, hv⟩
      simpa [hv] using hnone v hvr

theorem Carries.enqueuedOnce {s : Scan} {b : Bfs.State Nat} (h : Carries malloc s b)
    (hnodup : b.seen.Nodup) : EnqueuedOnce s := by
  obtain ⟨cs, ds, q, h⟩ := h
  refine ⟨ds, _, h.sight, ?_, by rwa [h.seen]⟩
  rw [h.calls, ← h.seen, List.length_map]

/-- The search is right exactly when the words `malloc` left in the second to the last but
one cell of the nodes in sight are zero. -/
theorem finds_iff (G : FiniteGraph) (hstart : start ∈ G.nodes) (val : Nat)
    (malloc : Nat → Malloc Nat) (heap : Heap Nat) (hfuel : G.nodes.length < fuel) :
    Finds fuel malloc heap G.graph start val ↔
      WordsZeroed malloc (nodes_in_sight G start val).length := by
  obtain ⟨s₀, hs₀, hcarries⟩ := enqueue_spec (carries_empty malloc heap) start
  obtain ⟨target, b, hsearch, hseen, hnodup, hlen, hfound⟩ := G.search hstart val hfuel
  have hloop := scan_loop_carries G.wellFormed hcarries hsearch (Nat.lt_of_le_of_lt hlen hfuel)
  have hwords : Readable malloc 1 b.seen.length ↔
      WordsZeroed malloc (nodes_in_sight G start val).length := by
    rw [hseen]
    exact readable_iff_wordsZeroed
  rw [← hwords]
  constructor
  · rintro ⟨s₁, target', s, hs₁, hok, -⟩
    cases hs₀.symm.trans hs₁
    by_contra hnot
    rw [hloop.2 hnot] at hok
    cases hok
  · intro hread
    obtain ⟨⟨t, s⟩, hok, rfl, hs⟩ := hloop.1 hread
    exact ⟨s₀, target, s, hs₀, hok, hs.enqueuedOnce hnodup, hfound⟩

end Search

/-- A node with connections to itself and to two others, one of them twice, and a node
apart. -/
def small_graph : FiniteGraph where
  graph u := if u = 0 then ⟨4, 10, [0, 1, 1, 2]⟩ else ⟨0, u + 10, []⟩
  nodes := [0, 1, 2, 3]
  wellFormed u := by
    by_cases hu : u = 0 <;> simp [hu]
  closed u _ v hv := by
    by_cases hu : u = 0
    · rw [if_pos hu] at hv
      have hall : ∀ v ∈ [0, 1, 1, 2], v ∈ [0, 1, 2, 3] := by decide
      exact hall v hv
    · rw [if_neg hu] at hv
      cases hv

/-- Both others are found in zeroed memory. -/
theorem finds_iff_small :
    Finds 5 (fun _ => next_malloc true) ∅ small_graph.graph 0 12 ↔
      WordsZeroed (fun _ => next_malloc true) (nodes_in_sight small_graph 0 12).length :=
  finds_iff small_graph (by decide) 12 _ ∅ (by decide)

/-- In memory that is not zeroed the second one is looked for behind the first. -/
theorem search_lost_behind_second :
    (small_graph.nodes.map fun u => (small_graph.graph u).data).Nodup ∧
      Bfs.Reach (fun u => (small_graph.graph u).connections) 0 2 ∧
      (scan_start (fun _ => next_malloc false) ∅ 0 >>= fun s =>
        (scan_loop 5 (fun _ => next_malloc false) small_graph.graph 12 5 none s).map Prod.fst) =
          .error .invalid_access ∧
      ¬ Finds 5 (fun _ => next_malloc false) ∅ small_graph.graph 0 12 := by
  have hlost : (scan_start (fun _ => next_malloc false) ∅ 0 >>= fun s =>
      (scan_loop 5 (fun _ => next_malloc false) small_graph.graph 12 5 none s).map Prod.fst) =
        .error .invalid_access := by decide +kernel
  refine ⟨by decide, Relation.ReflTransGen.single (by decide), hlost, ?_⟩
  rintro ⟨s₀, target, s, hs₀, hok, -⟩
  rw [hs₀] at hlost
  simp [bind, Except.bind, hok, Except.map] at hlost

end AnonyChat
