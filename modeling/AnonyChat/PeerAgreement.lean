import AnonyChat.PeerList

/-! # Two ways to list the peers of a client

`client_peers_static` lists the connected clients, `client_peers_rand` the connections of
the client's node.  The last loops of `combineNodesToGraph` call `addConnection` for both
orders of every two positions, and each call enters both ends, so that from three clients
on every peer is a connection twice.  Two clients are connected by the other loops, once.
-/
namespace AnonyChat
open CString

section Agreement
variable {deref : Nat → client} {client_list : List Nat} {g : Graph} {head pos : Nat}

/-- `manage_graph` built this graph. -/
def BuiltGraph (rand : Nat → Nat) (client_list : List Nat) (g : Graph) (head : Nat) : Prop :=
  combineNodesToGraph (client_nodes client_list)
    (shuffle rand (client_list.length - 1) (List.range client_list.length)) 4
      client_list.length = some (g, head)

theorem BuiltGraph.meshed {rand : Nat → Nat} (hg : BuiltGraph rand client_list g head)
    (hne : client_list ≠ []) : Meshed client_list g := by
  obtain ⟨g', graph, hg', hmeshed, -⟩ := AnonyChat.meshed rand hne
  rw [BuiltGraph, hg'] at hg
  cases hg
  exact hmeshed

/-- The connections of a node are what the calls for the shuffled nodes entered there. -/
theorem BuiltGraph.connections {rand : Nat → Nat} (hg : BuiltGraph rand client_list g head)
    (hne : client_list ≠ []) (u : Nat) :
    (g u).connections = (node_pairs 4 (shuffle rand (client_list.length - 1)
      (List.range client_list.length))).flatMap (other_end u) := by
  have hlen := shuffle_range_length rand client_list.length
  have hnil : shuffle rand (client_list.length - 1) (List.range client_list.length) ≠ [] := by
    apply List.ne_nil_of_length_pos
    rw [hlen]
    exact List.length_pos_iff.mpr hne
  have heq := combineNodesToGraph_eq (client_nodes client_list) hnil 4
  rw [hlen] at heq
  cases hg.symm.trans heq
  exact (addConnections_spec (g := client_nodes client_list) rfl _).connections

/-- Two clients are connected by one call. -/
theorem BuiltGraph.nodup_of_two {rand : Nat → Nat} (hg : BuiltGraph rand client_list g head)
    (htwo : client_list.length = 2) (u : Nat) : (g u).connections.Nodup := by
  have hne : client_list ≠ [] := List.ne_nil_of_length_pos (by omega)
  have hlen := shuffle_range_length rand client_list.length
  rw [htwo] at hlen
  obtain ⟨a, b, hab⟩ := List.length_eq_two.mp hlen
  -- the call for the second node is refused, it names the node itself
  rw [hg.connections hne, htwo, hab]
  show (other_end u (a, b) ++ (other_end u (b, b) ++ [])).Nodup
  rw [List.append_nil, show other_end u (b, b) = [] by simp [other_end], List.append_nil]
  exact other_end_nodup u (a, b)

/-- From three clients on every other node is entered twice. -/
theorem BuiltGraph.two_le_count {rand : Nat → Nat} (hg : BuiltGraph rand client_list g head)
    (hthree : 3 ≤ client_list.length) {u w : Nat} (hu : u < client_list.length)
    (hw : w < client_list.length) (hne : u ≠ w) : 2 ≤ (g u).connections.count w := by
  have hnil : client_list ≠ [] := List.ne_nil_of_length_pos (by omega)
  have hlen := shuffle_range_length rand client_list.length
  have hmem := mem_shuffle_range_iff rand client_list.length
  have hcall : ∀ {a b : Nat}, a < client_list.length → b < client_list.length → a ≠ b →
      (a, b) ∈ node_pairs 4 (shuffle rand (client_list.length - 1)
        (List.range client_list.length)) := by
    intro a b ha hb hab
    obtain ⟨i, hi, hia⟩ := List.mem_iff_getElem.mp ((hmem a).mpr ha)
    obtain ⟨j, hj, hjb⟩ := List.mem_iff_getElem.mp ((hmem b).mpr hb)
    have hij : i ≠ j := by
      rintro rfl
      exact hab (hia.symm.trans hjb)
    refine List.mem_map.mpr ⟨(i, j), mem_index_pairs (by omega) (by omega) hi hj hij, ?_⟩
    simp [hi, hj, hia, hjb]
  rw [hg.connections hnil]
  exact two_le_count_entered hne (hcall hu hw hne) (hcall hw hu (Ne.symm hne))

theorem BuiltGraph.count_le_two {rand : Nat → Nat} (hg : BuiltGraph rand client_list g head)
    (hthree : 3 ≤ client_list.length) (u w : Nat) : (g u).connections.count w ≤ 2 := by
  have hnil : client_list ≠ [] := List.ne_nil_of_length_pos (by omega)
  have hlen := shuffle_range_length rand client_list.length
  have hnodup := (shuffle_range_perm rand client_list.length).nodup_iff.mpr List.nodup_range
  have hpairs := List.nodup_iff_count_le_one.mp
    (node_pairs_nodup hnodup (by omega) (show ¬ _ < 4 - 1 by omega))
  have hle := count_entered_le (node_pairs 4 (shuffle rand (client_list.length - 1)
    (List.range client_list.length))) u w
  have huw := hpairs (u, w)
  have hwu := hpairs (w, u)
  rw [hg.connections hnil]
  omega

/-- **From three clients on** the connections are the other nodes, each of them twice. -/
theorem BuiltGraph.connections_perm {rand : Nat → Nat} (hg : BuiltGraph rand client_list g head)
    (hthree : 3 ≤ client_list.length) {u : Nat} (hu : u < client_list.length) :
    (g u).connections.Perm ((List.range client_list.length).erase u ++
      (List.range client_list.length).erase u) := by
  have hne : client_list ≠ [] := List.ne_nil_of_length_pos (by omega)
  have hmem := (hg.meshed hne).connected u hu
  have hnodup : ((List.range client_list.length).erase u).Nodup := List.nodup_range.erase u
  have hother : ∀ w, w ∈ (List.range client_list.length).erase u ↔
      w < client_list.length ∧ w ≠ u := by
    intro w
    rw [List.nodup_range.mem_erase_iff, List.mem_range, and_comm]
  rw [List.perm_iff_count]
  intro w
  rw [List.count_append]
  by_cases hw : w < client_list.length ∧ w ≠ u
  · have htwo := hg.two_le_count hthree hu hw.1 (Ne.symm hw.2)
    have hle := hg.count_le_two hthree u w
    have hone := List.count_eq_one_of_mem hnodup ((hother w).mpr hw)
    omega
  · rw [List.count_eq_zero_of_not_mem (mt (hmem w).mp hw),
      List.count_eq_zero_of_not_mem (mt (hother w).mp hw)]

theorem rand_clients_length {rand : Nat → Nat} (hg : BuiltGraph rand client_list g head)
    (hthree : 3 ≤ client_list.length) (hpos : pos < client_list.length) :
    (rand_clients g pos).length = 2 * (client_list.length - 1) := by
  have hne : client_list ≠ [] := List.ne_nil_of_length_pos (by omega)
  rw [rand_clients, edges_of_wellFormed (hg.meshed hne).wellFormed, Option.getD_some,
    List.length_map, (hg.connections_perm hthree hpos).length_eq, List.length_append,
    List.length_erase_of_mem (List.mem_range.mpr hpos), List.length_range]
  omega

/-- The two lists have the same entries, each as often, only for two clients; from three
on every peer is listed twice. -/
theorem builders_agree_iff (hn : 2 ≤ client_list.length)
    (hfd : (client_list.map fun c => (deref c).socket_fd).Nodup) {rand : Nat → Nat}
    (hg : BuiltGraph rand client_list g head) (hpos : pos < client_list.length) :
    (((rand_clients g pos).map fun c => entry_text (deref c)).Perm
        ((static_clients deref client_list (deref client_list[pos])).map
          fun c => entry_text (deref c)) ↔ client_list.length = 2) ∧
      ((rand_clients g pos).Nodup ↔ client_list.length = 2) := by
  have hne : client_list ≠ [] := List.ne_nil_of_length_pos (by omega)
  have hmeshed := hg.meshed hne
  have hnodup : client_list.Nodup := hfd.of_map
  have hstatic : (static_clients deref client_list (deref client_list[pos])).Nodup :=
    hnodup.filter _
  have hmem : ∀ d, d ∈ rand_clients g pos ↔
      d ∈ static_clients deref client_list (deref client_list[pos]) := fun d =>
    (mem_rand_clients_iff hmeshed hnodup hpos d).trans
      (mem_static_clients_iff hfd (List.getElem_mem hpos) d).symm
  have hlen : (static_clients deref client_list (deref client_list[pos])).length =
      client_list.length - 1 := by
    have hperm : (static_clients deref client_list (deref client_list[pos])).Perm
        (client_list.erase client_list[pos]) := by
      apply (List.perm_ext_iff_of_nodup hstatic (hnodup.erase _)).mpr
      intro d
      rw [mem_static_clients_iff hfd (List.getElem_mem hpos), hnodup.mem_erase_iff, and_comm]
    rw [hperm.length_eq, List.length_erase_of_mem (List.getElem_mem hpos)]
  -- the lengths differ from three clients on
  have htwo : (rand_clients g pos).length ≤ client_list.length - 1 → client_list.length = 2 := by
    intro hle
    by_contra hnot
    have := rand_clients_length hg (by omega) hpos
    omega
  have hrand : client_list.length = 2 → (rand_clients g pos).Nodup := by
    intro h
    rw [rand_clients, edges_of_wellFormed hmeshed.wellFormed, Option.getD_some]
    refine (hg.nodup_of_two h pos).map_on fun u hu w hw he => ?_
    have hlt := fun v hv => ((hmeshed.connected pos hpos v).mp hv).1
    rw [hmeshed.data w, List.getD_eq_getElem?_getD, List.getElem?_eq_getElem (hlt w hw)] at he
    exact (hmeshed.data_eq_iff hnodup (hlt u hu) (hlt w hw)).mp he
  refine ⟨⟨fun hperm => htwo ?_, fun h => ?_⟩, ⟨fun hperm => htwo ?_, hrand⟩⟩
  · have := hperm.length_eq
    rw [List.length_map, List.length_map, hlen] at this
    omega
  · exact ((List.perm_ext_iff_of_nodup (hrand h) hstatic).mpr hmem).map _
  · rw [((List.perm_ext_iff_of_nodup hperm hstatic).mpr hmem).length_eq, hlen]

end Agreement

/-- Two clients. -/
theorem builders_agree_iff_two :
    ∃ g head, BuiltGraph (fun _ => 0) [4, 5] g head ∧
      ((((rand_clients g 0).map fun c => entry_text (three_clients c)).Perm
          ((static_clients three_clients [4, 5] (three_clients [4, 5][0])).map
            fun c => entry_text (three_clients c)) ↔ [4, 5].length = 2) ∧
        ((rand_clients g 0).Nodup ↔ [4, 5].length = 2)) := by
  obtain ⟨g, head, hg, -⟩ := meshed (fun _ => 0) (List.cons_ne_nil 4 [5])
  exact ⟨g, head, hg, builders_agree_iff (by decide) (by decide) hg (by decide)⟩

/-- Of five clients, the first is sent every other one twice. -/
theorem peers_listed_twice :
    ∃ g head, BuiltGraph (fun _ => 0) [4, 5, 6, 7, 8] g head ∧
      rand_clients g 0 = [5, 6, 7, 8, 5, 6, 7, 8] ∧
      static_clients three_clients [4, 5, 6, 7, 8] (three_clients 4) = [5, 6, 7, 8] ∧
      ¬ ((rand_clients g 0).map fun c => entry_text (three_clients c)).Perm
        ((static_clients three_clients [4, 5, 6, 7, 8] (three_clients 4)).map
          fun c => entry_text (three_clients c)) := by
  refine ⟨_, _, rfl, ?_, ?_, ?_⟩
  · rfl
  · rfl
  · decide

end AnonyChat
