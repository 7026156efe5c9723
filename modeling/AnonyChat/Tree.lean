import AnonyChat.Lib.Bfs
import Mathlib.Data.List.Dedup
import Mathlib.Data.List.Flatten
import Mathlib.Data.List.Nodup
import Mathlib.Logic.Function.Basic

/-! # Nodes and their connections (`tree.c`)

A node has an array of pointers to nodes and a count of them.  `combineNodesToGraph`
connects the nodes of an array by a fixed sequence of `addConnection` calls, which
depends only on the number of nodes and on `minConnections`.  A connection is entered at
both ends, and every two nodes are connected by at least one call
(`index_pairs_complete`), so each node ends up with all the others
(`mem_connections_iff`).
-/
namespace AnonyChat

/-- `node`; a pointer to a node is its address, and `data` points to a client. -/
structure node where
  numConnections : Nat
  data : Nat
  connections : List Nat
  deriving DecidableEq, Repr

/-- The nodes in memory. -/
abbrev Graph := Nat → node

/-- `createNode`. -/
def createNode (data : Nat) : node := ⟨0, data, []⟩

/-- The pointer `dos` is written behind the `numConnections` pointers of `uno`. -/
def connect (g : Graph) (uno dos : Nat) : Graph :=
  Function.update g uno
    { g uno with connections := (g uno).connections.take (g uno).numConnections ++ [dos]
                 numConnections := (g uno).numConnections + 1 }

/-- `addConnection`: the nodes and the value returned. -/
def addConnection (g : Graph) (uno dos : Nat) : Graph × Nat :=
  if uno = dos then (g, 1) else (connect (connect g uno dos) dos uno, 0)

/-- The positions in `group` of the nodes that `combineNodesToGraph` connects, in the
order of its loops. -/
def index_pairs (minConnections size : Nat) : List (Nat × Nat) :=
  if size = 1 then []
  else if size < minConnections - 1 then
    (List.range size).flatMap fun count =>
      -- past the end the source does not wrap around: it counts from the first node again
      let target := if size < minConnections then size else minConnections
      ((List.range target).filter fun sub => 1 ≤ sub).map fun sub =>
        if count + sub ≥ size then (count, 0 + sub) else (count, count + sub)
  else
    (List.range size).flatMap fun count =>
      ((List.range size).filter fun subCount => count ≠ subCount).map fun subCount =>
        (count, subCount)

/-- `combineNodesToGraph`: the nodes and the pointer returned, `none` when an index runs
past the array. -/
def combineNodesToGraph (g : Graph) (group : List Nat) (minConnections size : Nat) :
    Option (Graph × Nat) := do
  let g ← (index_pairs minConnections size).foldlM (fun g e => do
    return (addConnection g (← group[e.1]?) (← group[e.2]?)).1) g
  return (g, ← group[size - 1]?)

/-- The pointers a loop up to `numConnections` reads, `none` when there are fewer. -/
def edges (n : node) : Option (List Nat) :=
  if n.numConnections ≤ n.connections.length then some (n.connections.take n.numConnections)
  else none

/-- Every node counts its connections. -/
def WellFormed (g : Graph) : Prop := ∀ u, (g u).numConnections = (g u).connections.length

theorem edges_of_wellFormed {g : Graph} (hg : WellFormed g) (u : Nat) :
    edges (g u) = some (g u).connections := by
  rw [edges, hg u, if_pos (Nat.le_refl _), List.take_length]

/-! ## Connections -/

/-- What a call of `addConnection` enters at the node `u`. -/
def other_end (u : Nat) (e : Nat × Nat) : List Nat :=
  if e.1 = e.2 then [] else if e.1 = u then [e.2] else if e.2 = u then [e.1] else []

theorem mem_other_end {u w : Nat} {e : Nat × Nat} :
    w ∈ other_end u e ↔ w ≠ u ∧ (e = (u, w) ∨ e = (w, u)) := by
  obtain ⟨a, b⟩ := e
  simp only [other_end, Prod.mk.injEq]
  constructor
  · intro hw
    by_cases hab : a = b
    · rw [if_pos hab] at hw
      cases hw
    · rw [if_neg hab] at hw
      by_cases ha : a = u
      · rw [if_pos ha] at hw
        obtain rfl := List.mem_singleton.mp hw
        exact ⟨fun he => hab (ha.trans he.symm), Or.inl ⟨ha, rfl⟩⟩
      · rw [if_neg ha] at hw
        by_cases hb : b = u
        · rw [if_pos hb] at hw
          obtain rfl := List.mem_singleton.mp hw
          exact ⟨ha, Or.inr ⟨rfl, hb⟩⟩
        · rw [if_neg hb] at hw
          cases hw
  · intro hends
    obtain ⟨hne, ⟨rfl, rfl⟩ | ⟨rfl, rfl⟩⟩ := hends
    · simp [Ne.symm hne]
    · simp [hne]

theorem other_end_nodup (u : Nat) (e : Nat × Nat) : (other_end u e).Nodup := by
  rw [other_end]
  split
  · exact List.nodup_nil
  · split
    · exact List.nodup_singleton _
    · split
      · exact List.nodup_singleton _
      · exact List.nodup_nil

/-- A call enters its ends at each other. -/
theorem count_other_end (u w : Nat) (e : Nat × Nat) :
    (other_end u e).count w = (other_end w e).count u := by
  have hmem : w ∈ other_end u e ↔ u ∈ other_end w e := by
    rw [mem_other_end, mem_other_end, ne_comm, or_comm]
  rw [(other_end_nodup u e).count, (other_end_nodup w e).count]
  exact if_congr hmem rfl rfl

/-- The node counts its connections. -/
def Counted (n : node) : Prop := n.numConnections = n.connections.length

/-- What holds of the node `u` after `added` was entered at it. -/
structure Extended (g g' : Graph) (u : Nat) (added : List Nat) : Prop where
  counted : Counted (g' u)
  connections : (g' u).connections = (g u).connections ++ added
  data : (g' u).data = (g u).data

theorem connect_spec {g : Graph} {u : Nat} (hu : Counted (g u)) (uno dos : Nat) :
    Extended g (connect g uno dos) u (if u = uno then [dos] else []) := by
  unfold Counted at hu
  by_cases h : u = uno
  · subst h
    constructor <;> simp [connect, Counted, hu]
  · constructor <;> simp [connect, Counted, h, hu]

/-- **One call** enters each end at the other, and nothing else. -/
theorem addConnection_spec {g : Graph} {u : Nat} (hu : Counted (g u)) (uno dos : Nat) :
    Extended g (addConnection g uno dos).1 u (other_end u (uno, dos)) := by
  by_cases he : uno = dos
  · rw [addConnection, if_pos he, other_end, if_pos he]
    exact ⟨hu, (List.append_nil _).symm, rfl⟩
  · have h₁ := connect_spec hu uno dos
    have h₂ := connect_spec h₁.counted dos uno
    rw [addConnection, if_neg he]
    refine ⟨h₂.counted, ?_, h₂.data.trans h₁.data⟩
    rw [h₂.connections, h₁.connections, other_end, if_neg he]
    by_cases hu : u = uno
    · subst hu
      simp [he]
    · by_cases hd : u = dos
      · subst hd
        simp [hu, he]
      · simp [hu, hd, Ne.symm hu, Ne.symm hd]

/-- **A sequence of calls** enters its ends in order. -/
theorem addConnections_spec {g : Graph} {u : Nat} (hu : Counted (g u)) (es : List (Nat × Nat)) :
    Extended g (es.foldl (fun g e => (addConnection g e.1 e.2).1) g) u
      (es.flatMap (other_end u)) := by
  induction es generalizing g with
  | nil => exact ⟨hu, (List.append_nil _).symm, rfl⟩
  | cons e es ih =>
    have h₁ := addConnection_spec hu e.1 e.2
    have h₂ := ih h₁.counted
    refine ⟨h₂.counted, ?_, h₂.data.trans h₁.data⟩
    rw [List.foldl_cons, h₂.connections, h₁.connections, List.flatMap_cons, List.append_assoc]

/-! ## The pairs -/

theorem index_pairs_lt {minConnections size : Nat} {e : Nat × Nat}
    (he : e ∈ index_pairs minConnections size) : e.1 < size ∧ e.2 < size := by
  unfold index_pairs at he
  split at he
  · cases he
  · split at he
    · simp only [List.mem_flatMap, List.mem_range, List.mem_map, List.mem_filter] at he
      obtain ⟨count, hcount, sub, ⟨hsub, -⟩, rfl⟩ := he
      split <;> split at hsub <;> exact ⟨by assumption, by simp only; omega⟩
    · simp only [List.mem_flatMap, List.mem_range, List.mem_map, List.mem_filter] at he
      obtain ⟨count, hcount, subCount, ⟨hsub, -⟩, rfl⟩ := he
      exact ⟨hcount, hsub⟩

/-- **Every two positions are connected**, one way or the other. -/
theorem index_pairs_complete {minConnections size i j : Nat} (hij : i < j) (hj : j < size) :
    (i, j) ∈ index_pairs minConnections size := by
  have hone : ¬ size = 1 := by omega
  rw [index_pairs, if_neg hone]
  split
  · rename_i hlt
    simp only [List.mem_flatMap, List.mem_range, List.mem_map, List.mem_filter]
    have htarget : size < minConnections := by omega
    refine ⟨i, by omega, j - i, ⟨?_, by simp; omega⟩, ?_⟩
    · rw [if_pos htarget]
      omega
    · rw [if_neg (by omega), show i + (j - i) = j by omega]
  · simp only [List.mem_flatMap, List.mem_range, List.mem_map, List.mem_filter]
    exact ⟨i, by omega, j, ⟨hj, by simp; omega⟩, rfl⟩

/-- From three connections less one on, every position is connected to every other one. -/
theorem mem_index_pairs {minConnections size i j : Nat} (hone : size ≠ 1)
    (hsize : ¬ size < minConnections - 1) (hi : i < size) (hj : j < size) (hij : i ≠ j) :
    (i, j) ∈ index_pairs minConnections size := by
  rw [index_pairs, if_neg hone, if_neg hsize]
  simp only [List.mem_flatMap, List.mem_range, List.mem_map, List.mem_filter]
  exact ⟨i, hi, j, ⟨hj, by simpa using hij⟩, rfl⟩

/-- The nodes of the array that `combineNodesToGraph` connects, in the order of its calls. -/
def node_pairs (minConnections : Nat) (group : List Nat) : List (Nat × Nat) :=
  (index_pairs minConnections group.length).map fun e => (group.getD e.1 0, group.getD e.2 0)

/-- No index runs past the array: the loops are the calls for these pairs. -/
theorem combineNodesToGraph_eq (g : Graph) {group : List Nat} (hne : group ≠ [])
    (minConnections : Nat) :
    combineNodesToGraph g group minConnections group.length =
      some ((node_pairs minConnections group).foldl (fun g e => (addConnection g e.1 e.2).1) g,
        group.getLast hne) := by
  have hfold : ∀ (es : List (Nat × Nat)) (g : Graph),
      (∀ e ∈ es, e.1 < group.length ∧ e.2 < group.length) →
      es.foldlM (fun g e => do return (addConnection g (← group[e.1]?) (← group[e.2]?)).1) g =
        some ((es.map fun e => (group.getD e.1 0, group.getD e.2 0)).foldl
          (fun g e => (addConnection g e.1 e.2).1) g) := by
    intro es
    induction es with
    | nil => intro g _; rfl
    | cons e es ih =>
      intro g hes
      obtain ⟨h₁, h₂⟩ := hes e List.mem_cons_self
      have ih := ih (addConnection g group[e.1] group[e.2]).1
        fun e he => hes e (List.mem_cons_of_mem _ he)
      simpa [h₁, h₂] using ih
  have hlast : group[group.length - 1]? = some (group.getLast hne) := by
    rw [← List.getLast?_eq_getElem?, List.getLast?_eq_some_getLast hne]
  rw [combineNodesToGraph, hfold _ g fun e he => index_pairs_lt he]
  simp [hlast, node_pairs]

/-- What the calls enter at a node of the array: all the others, and nothing else. -/
theorem mem_entered_iff {group : List Nat} (minConnections : Nat) {u : Nat} (hu : u ∈ group)
    (w : Nat) :
    w ∈ (node_pairs minConnections group).flatMap (other_end u) ↔ w ∈ group ∧ w ≠ u := by
  rw [List.mem_flatMap]
  have hget : ∀ i, i < group.length → group.getD i 0 ∈ group := by
    intro i hi
    rw [List.getD_eq_getElem?_getD, List.getElem?_eq_getElem hi]
    exact List.getElem_mem hi
  constructor
  · intro hentered
    obtain ⟨e, he, hw⟩ := hentered
    obtain ⟨⟨i, j⟩, hij, rfl⟩ := List.mem_map.mp he
    obtain ⟨hi, hj⟩ := index_pairs_lt hij
    obtain ⟨hne, heq | heq⟩ := mem_other_end.mp hw
    · exact ⟨(Prod.mk.inj heq).2 ▸ hget j hj, hne⟩
    · exact ⟨(Prod.mk.inj heq).1 ▸ hget i hi, hne⟩
  · intro hother
    obtain ⟨hw, hwu⟩ := hother
    obtain ⟨i, hi, rfl⟩ := List.mem_iff_getElem.mp hu
    obtain ⟨j, hj, rfl⟩ := List.mem_iff_getElem.mp hw
    -- the call for the two positions was made from one of its ends
    rcases Nat.lt_trichotomy i j with hij | rfl | hji
    · refine ⟨(group[i], group[j]), List.mem_map.mpr ⟨(i, j), index_pairs_complete hij hj, ?_⟩,
        mem_other_end.mpr ⟨hwu, Or.inl rfl⟩⟩
      simp [hi, hj]
    · exact absurd rfl hwu
    · refine ⟨(group[j], group[i]), List.mem_map.mpr ⟨(j, i), index_pairs_complete hji hi, ?_⟩,
        mem_other_end.mpr ⟨hwu, Or.inr rfl⟩⟩
      simp [hi, hj]

/-- A call from each of two nodes enters each of them twice at the other. -/
theorem two_le_count_entered {es : List (Nat × Nat)} {u w : Nat} (hne : u ≠ w)
    (huw : (u, w) ∈ es) (hwu : (w, u) ∈ es) : 2 ≤ (es.flatMap (other_end u)).count w := by
  have hboth : [(u, w), (w, u)].Nodup := by simp [hne]
  have hsubset : [(u, w), (w, u)] ⊆ es := by
    intro e he
    simp only [List.mem_cons, List.not_mem_nil, or_false] at he
    rcases he with rfl | rfl
    · exact huw
    · exact hwu
  obtain ⟨calls, hperm, hsub⟩ := List.subperm_of_subset hboth hsubset
  have hcount : ([(u, w), (w, u)].flatMap (other_end u)).count w = 2 := by
    simp [other_end, hne, Ne.symm hne]
  rw [← hcount, ← (hperm.flatMap_right (other_end u)).count_eq w]
  exact (hsub.flatMap (other_end u)).count_le w

/-- A node is entered at another only by the calls for the two. -/
theorem count_entered_le (es : List (Nat × Nat)) (u w : Nat) :
    (es.flatMap (other_end u)).count w ≤ es.count (u, w) + es.count (w, u) := by
  induction es with
  | nil => exact Nat.le_refl 0
  | cons e es ih =>
    rw [List.flatMap_cons, List.count_append, List.count_cons, List.count_cons]
    by_cases hw : w ∈ other_end u e
    · have hone := List.nodup_iff_count_le_one.mp (other_end_nodup u e) w
      obtain ⟨-, rfl | rfl⟩ := mem_other_end.mp hw
      · simp only [BEq.rfl, if_true]
        omega
      · simp only [BEq.rfl, if_true]
        omega
    · rw [List.count_eq_zero_of_not_mem hw]
      omega

/-- The calls from every position to every other one are all different. -/
theorem node_pairs_nodup {minConnections : Nat} {group : List Nat} (hgroup : group.Nodup)
    (hone : group.length ≠ 1) (hsize : ¬ group.length < minConnections - 1) :
    (node_pairs minConnections group).Nodup := by
  rw [node_pairs, index_pairs, if_neg hone, if_neg hsize]
  refine List.Nodup.map_on ?_ (List.nodup_flatMap.mpr ⟨fun count _ => ?_, ?_⟩)
  · intro e he e' he' heq
    simp only [List.mem_flatMap, List.mem_range, List.mem_map, List.mem_filter] at he he'
    obtain ⟨i, hi, j, ⟨hj, -⟩, rfl⟩ := he
    obtain ⟨i', hi', j', ⟨hj', -⟩, rfl⟩ := he'
    simp only [List.getD_eq_getElem?_getD, List.getElem?_eq_getElem hi,
      List.getElem?_eq_getElem hj, List.getElem?_eq_getElem hi', List.getElem?_eq_getElem hj',
      Option.getD_some, Prod.mk.injEq, hgroup.getElem_inj_iff] at heq
    rw [heq.1, heq.2]
  · exact (List.nodup_range.filter _).map fun _ _ heq => (Prod.mk.inj heq).2
  · refine List.nodup_range.imp fun hne => ?_
    intro e he he'
    obtain ⟨_, -, rfl⟩ := List.mem_map.mp he
    obtain ⟨_, -, heq⟩ := List.mem_map.mp he'
    exact hne (Prod.mk.inj heq).1.symm

/-- **The graph is complete.**  The nodes of an array of distinct fresh nodes end up
connected to all the others of the array and to no other node. -/
theorem mem_connections_iff {g : Graph} (hg : WellFormed g) {group : List Nat}
    (hgroup : ∀ u ∈ group, (g u).connections = []) (hne : group ≠ []) (minConnections : Nat) :
    ∃ g', combineNodesToGraph g group minConnections group.length =
        some (g', group.getLast hne) ∧
      WellFormed g' ∧ (∀ u, (g' u).data = (g u).data) ∧
      ∀ u ∈ group, ∀ w, w ∈ (g' u).connections ↔ w ∈ group ∧ w ≠ u := by
  have hspec := fun u => addConnections_spec (hg u) (node_pairs minConnections group)
  refine ⟨_, combineNodesToGraph_eq g hne minConnections, fun u => (hspec u).counted,
    fun u => (hspec u).data, fun u hu w => ?_⟩
  rw [(hspec u).connections, hgroup u hu, List.nil_append]
  exact mem_entered_iff minConnections hu w

/-! ## A symmetric graph -/

/-- What the builder is for: every node of the array is connected to every other one and
to nothing else, as often as the other is to it, and counts its connections; it has as
many neighbours as asked for or as there are; and the head reaches all of them. -/
structure Connects (minConnections : Nat) (group : List Nat) (g : Graph) (head : Nat) :
    Prop where
  mem_iff : ∀ u ∈ group, ∀ w, w ∈ (g u).connections ↔ w ∈ group ∧ w ≠ u
  counted : ∀ u ∈ group, Counted (g u)
  symmetric : ∀ u ∈ group, ∀ w ∈ group,
    (g u).connections.count w = (g w).connections.count u
  neighbours : ∀ u ∈ group,
    min minConnections (group.length - 1) ≤ (g u).connections.dedup.length
  reach : ∀ u ∈ group, Bfs.Reach (fun u => (g u).connections) head u

/-- An array of distinct fresh nodes, somewhere in memory, becomes a symmetric graph on
these nodes; every index used is one of the array's. -/
theorem combineNodesToGraph_connects {g : Graph} {group : List Nat} (hdistinct : group.Nodup)
    (hfresh : ∀ u ∈ group, g u = createNode (g u).data) (hne : group ≠ [])
    (minConnections : Nat) :
    (∀ e ∈ index_pairs minConnections group.length, e.1 < group.length ∧ e.2 < group.length) ∧
    ∃ g', combineNodesToGraph g group minConnections group.length =
        some (g', group.getLast hne) ∧
      Connects minConnections group g' (group.getLast hne) := by
  have hspec : ∀ u ∈ group, Extended g _ u _ := fun u hu =>
    addConnections_spec (u := u) (by rw [hfresh u hu]; rfl) (node_pairs minConnections group)
  have hconn : ∀ u ∈ group, (((node_pairs minConnections group).foldl
      (fun g e => (addConnection g e.1 e.2).1) g) u).connections =
        (node_pairs minConnections group).flatMap (other_end u) := by
    intro u hu
    rw [(hspec u hu).connections, hfresh u hu]
    rfl
  have hmem := fun u hu w => hconn u hu ▸ mem_entered_iff minConnections hu w
  refine ⟨fun e he => index_pairs_lt he, _, combineNodesToGraph_eq g hne minConnections, ?_⟩
  refine ⟨hmem, fun u hu => (hspec u hu).counted, fun u hu w hw => ?_, fun u hu => ?_,
    fun u hu => ?_⟩
  · rw [hconn u hu, hconn w hw, List.count_flatMap, List.count_flatMap]
    exact congrArg List.sum (List.map_congr_left fun e _ => count_other_end u w e)
  · -- without repetitions the neighbours are the array without the node itself
    have hperm : (((node_pairs minConnections group).foldl
        (fun g e => (addConnection g e.1 e.2).1) g) u).connections.dedup.Perm (group.erase u) := by
      apply (List.perm_ext_iff_of_nodup (List.nodup_dedup _) (hdistinct.erase u)).mpr
      intro w
      rw [List.mem_dedup, hmem u hu, hdistinct.mem_erase_iff, and_comm]
    rw [hperm.length_eq, List.length_erase_of_mem hu]
    exact Nat.min_le_right _ _
  · by_cases h : u = group.getLast hne
    · rw [h]
      exact Relation.ReflTransGen.refl
    · apply Relation.ReflTransGen.single
      exact (hmem _ (List.getLast_mem hne) u).mpr ⟨hu, h⟩

/-- Three nodes, at least one connection each. -/
theorem combineNodesToGraph_connects_three :
    (∀ e ∈ index_pairs 1 [4, 6, 5].length, e.1 < [4, 6, 5].length ∧ e.2 < [4, 6, 5].length) ∧
    ∃ g', combineNodesToGraph createNode [4, 6, 5] 1 [4, 6, 5].length =
        some (g', [4, 6, 5].getLast (by decide)) ∧
      Connects 1 [4, 6, 5] g' ([4, 6, 5].getLast (by decide)) :=
  combineNodesToGraph_connects (by decide) (fun _ _ => rfl) (by decide) 1

end AnonyChat
