import AnonyChat.GraphSearch

/-! # Who is sent whose address

`combineNodesToGraph` connects every two nodes (`meshed`), so each search should end at
the node of its own client, and each client be sent all the others.  The shuffle only
decides which node the searches start from: the last of the array, which is the one at
`rand() % (size - 1)` of the first turn.  What can go wrong is a search itself: all but
the one for that first node look through a list of nodes in sight whose last link was
never set.  `manage_graph_iff` is the exact condition on the memory.
-/
namespace AnonyChat
open CString Linked

/-! ## Texts -/

/-- The text of one peer, each field cut at the size given. -/
def entry_upto (max_msg_size : Nat) (client_p : client) : Str :=
  strncat (strncat (strncat [] client_p.address max_msg_size) colon max_msg_size) client_p.port
    max_msg_size

/-- The text of one peer, without the space behind it. -/
def entry (client_p : client) : Str :=
  strncat (strncat (strncat [] client_p.address (SERVER_MAX_MESSAGE - 2 - 6)) colon
    (SERVER_MAX_MESSAGE - 2 - 6)) client_p.port (SERVER_MAX_MESSAGE - 2 - 6)

/-- The peer message with these entries, as far as a message goes. -/
def peers_message (others : List client) : Str :=
  strncat (strncat [] PEERS SERVER_MAX_MESSAGE) (space.intercalate (others.map entry))
    SERVER_MAX_MESSAGE

section Texts
variable {max_msg_size : Nat} (hsize : 1 ≤ max_msg_size)
include hsize

theorem append_entry_eq (msg : Str) (client_p : client) :
    append_entry max_msg_size msg client_p =
      msg ++ (entry_upto max_msg_size client_p ++ space) := by
  have hspace : space.length ≤ max_msg_size := hsize
  rw [append_entry, entry_upto, strncat_of_le hspace]
  simp [strncat]

theorem foldl_append_entry (msg : Str) (others : List client) :
    others.foldl (append_entry max_msg_size) msg =
      msg ++ (others.map fun client_p => entry_upto max_msg_size client_p ++ space).flatten := by
  induction others generalizing msg with
  | nil => simp
  | cons c others ih => rw [List.foldl_cons, ih, append_entry_eq hsize, List.map_cons,
      List.flatten_cons, List.append_assoc]

/-- Removing the extra space at the end leaves the entries with spaces in between. -/
theorem entries_eq_intercalate (others : List client) :
    (others.foldl (append_entry max_msg_size) []).dropLast =
      space.intercalate (others.map (entry_upto max_msg_size)) := by
  rw [foldl_append_entry hsize, List.nil_append]
  induction others with
  | nil => rfl
  | cons c others ih =>
    cases others with
    | nil => simp [List.intercalate, space]
    | cons d others =>
      have hne : ((d :: others).map fun client_p =>
          entry_upto max_msg_size client_p ++ space).flatten ≠ [] := by
        simp [space]
      rw [List.map_cons, List.flatten_cons, List.dropLast_append_of_ne_nil hne, ih]
      simp [List.intercalate]

/-- The clients `client_peers_rand` lists, in order. -/
def rand_clients (g : Graph) (graph : Nat) : List Nat :=
  ((edges (g graph)).getD []).map fun u => (g u).data

/-- The clients `client_peers_static` lists, in order. -/
def static_clients (deref : Nat → client) (client_list : List Nat) (client_o : client) :
    List Nat :=
  client_list.filter fun c => (deref c).socket_fd ≠ client_o.socket_fd

theorem client_peers_rand_eq (deref : Nat → client) {g : Graph} (hg : WellFormed g)
    (graph : Nat) :
    client_peers_rand deref max_msg_size g graph =
      .ok (space.intercalate (((rand_clients g graph).map deref).map
        (entry_upto max_msg_size))) := by
  have htext := entries_eq_intercalate hsize ((g graph).connections.map fun u => deref (g u).data)
  have hclients : (rand_clients g graph).map deref =
      (g graph).connections.map fun u => deref (g u).data := by
    rw [rand_clients, edges_of_wellFormed hg, Option.getD_some, List.map_map]
    rfl
  rw [client_peers_rand, edges_of_wellFormed hg, hclients]
  exact congrArg Except.ok htext

theorem client_peers_static_eq (deref : Nat → client) {client_list : List Nat}
    (client_o : client) (hlen : client_list.length ≠ 1) :
    client_peers_static deref client_list client_o max_msg_size =
      some (space.intercalate (((static_clients deref client_list client_o).map deref).map
        (entry_upto max_msg_size))) := by
  rw [client_peers_static, if_neg hlen, entries_eq_intercalate hsize, List.filter_map]
  rfl

end Texts

/-- Entries that fit are sent whole. -/
theorem peers_message_of_fits {others : List client}
    (hfits : (space.intercalate (others.map entry)).length ≤ SERVER_MAX_MESSAGE) :
    peers_message others = PEERS ++ space.intercalate (others.map entry) := by
  rw [peers_message, strncat_of_le hfits, strncat_of_le (by decide), List.nil_append]

/-! ## The shuffle -/

theorem exchange_perm {randArray : List Nat} {num counter : Nat} (hnum : num < randArray.length)
    (hcounter : counter < randArray.length) :
    (exchange randArray num counter).Perm randArray := by
  have := List.set_set_perm hnum hcounter
  simpa [exchange, hnum, hcounter] using this

/-- **The shuffle** permutes the array. -/
theorem shuffle_perm (rand : Nat → Nat) {counter : Nat} {randArray : List Nat}
    (h : counter < randArray.length) : (shuffle rand counter randArray).Perm randArray := by
  induction counter generalizing randArray with
  | zero => exact List.Perm.refl _
  | succ counter ih =>
    have hmod : rand (counter + 1) % (counter + 1) < counter + 1 := Nat.mod_lt _ (by omega)
    have hperm : (exchange randArray (rand (counter + 1) % (counter + 1)) (counter + 1)).Perm
        randArray := exchange_perm (by omega) h
    exact (ih (by rw [hperm.length_eq]; omega)).trans hperm

theorem shuffle_range_perm (rand : Nat → Nat) (n : Nat) :
    (shuffle rand (n - 1) (List.range n)).Perm (List.range n) := by
  cases n with
  | zero => exact List.Perm.refl _
  | succ n =>
    apply shuffle_perm
    rw [List.length_range]
    exact Nat.lt_succ_self n

theorem shuffle_range_length (rand : Nat → Nat) (n : Nat) :
    (shuffle rand (n - 1) (List.range n)).length = n := by
  rw [(shuffle_range_perm rand n).length_eq, List.length_range]

theorem mem_shuffle_range_iff (rand : Nat → Nat) (n u : Nat) :
    u ∈ shuffle rand (n - 1) (List.range n) ↔ u < n :=
  (shuffle_range_perm rand n).mem_iff.trans List.mem_range

theorem shuffle_getElem? (rand : Nat → Nat) {counter i : Nat} (randArray : List Nat)
    (hi : counter < i) : (shuffle rand counter randArray)[i]? = randArray[i]? := by
  induction counter generalizing randArray with
  | zero => rfl
  | succ counter ih =>
    have hmod : rand (counter + 1) % (counter + 1) < counter + 1 := Nat.mod_lt _ (by omega)
    rw [shuffle, ih _ (by omega), exchange, List.getElem?_set_ne (by omega),
      List.getElem?_set_ne (by omega)]

/-- Only the first turn moves the last node of the array. -/
theorem shuffle_range_getLast (rand : Nat → Nat) {n : Nat} (hn : 2 ≤ n)
    (hne : shuffle rand (n - 1) (List.range n) ≠ []) :
    (shuffle rand (n - 1) (List.range n)).getLast hne = rand (n - 1) % (n - 1) := by
  obtain ⟨m, rfl⟩ := Nat.exists_eq_add_of_le' hn
  have hmod : rand (m + 1) % (m + 1) < m + 1 := Nat.mod_lt _ (by omega)
  apply Option.some.inj
  rw [← List.getLast?_eq_some_getLast, List.getLast?_eq_getElem?, shuffle_range_length]
  show (shuffle rand (m + 1) (List.range (m + 2)))[m + 1]? = some (rand (m + 1) % (m + 1))
  rw [shuffle, shuffle_getElem? rand _ (Nat.lt_succ_self m), exchange,
    List.getElem?_set_self (by simp), List.getD_eq_getElem?_getD, List.getElem?_range (by omega)]
  rfl

/-! ## The graph -/

/-- Every two nodes of the clients are connected, and each still is its client's. -/
structure Meshed (client_list : List Nat) (g : Graph) : Prop where
  wellFormed : WellFormed g
  data : ∀ u, (g u).data = client_list.getD u 0
  connected : ∀ u, u < client_list.length →
    ∀ w, w ∈ (g u).connections ↔ w < client_list.length ∧ w ≠ u

/-- **The graph that is built.**  The node it starts from is one of the clients' nodes,
and from two clients on it is the one the first turn of the shuffle picked. -/
theorem meshed (rand : Nat → Nat) {client_list : List Nat} (hne : client_list ≠ []) :
    ∃ g graph, combineNodesToGraph (client_nodes client_list)
        (shuffle rand (client_list.length - 1) (List.range client_list.length)) 4
          client_list.length = some (g, graph) ∧
      Meshed client_list g ∧ graph < client_list.length ∧
      (2 ≤ client_list.length →
        graph = rand (client_list.length - 1) % (client_list.length - 1)) := by
  have hlen := shuffle_range_length rand client_list.length
  have hmem := mem_shuffle_range_iff rand client_list.length
  have hnil : shuffle rand (client_list.length - 1) (List.range client_list.length) ≠ [] := by
    apply List.ne_nil_of_length_pos
    rw [hlen]
    exact List.length_pos_iff.mpr hne
  obtain ⟨g, hg, hwf, hdata, hconn⟩ := mem_connections_iff
    (show WellFormed (client_nodes client_list) from fun _ => rfl) (fun _ _ => rfl) hnil 4
  rw [hlen] at hg
  refine ⟨g, _, hg, ⟨hwf, hdata, fun u hu w => ?_⟩, (hmem _).mp (List.getLast_mem hnil),
    fun hn => shuffle_range_getLast rand hn hnil⟩
  rw [hconn u ((hmem u).mpr hu) w, hmem]

section Search
variable {client_list : List Nat} {g : Graph} {graph pos fuel : Nat}

theorem Meshed.lt_of_reach (hg : Meshed client_list g) (hgraph : graph < client_list.length)
    {v : Nat} (hv : Bfs.Reach (fun u => (g u).connections) graph v) : v < client_list.length := by
  induction hv with
  | refl => exact hgraph
  | tail _ hedge ih => exact ((hg.connected _ ih _).mp hedge).1

theorem Meshed.data_eq_iff (hg : Meshed client_list g) (hnodup : client_list.Nodup) {u : Nat}
    (hu : u < client_list.length) (hpos : pos < client_list.length) :
    (g u).data = client_list[pos] ↔ u = pos := by
  rw [hg.data, List.getD_eq_getElem?_getD, List.getElem?_eq_getElem hu, Option.getD_some]
  exact hnodup.getElem_inj_iff

/-- **A search on the graph** ends at the client's node, and unless it started there it
has every node in sight by then. -/
theorem Meshed.search (hg : Meshed client_list g) (hnodup : client_list.Nodup)
    (hgraph : graph < client_list.length) (hpos : pos < client_list.length)
    (hfuel : client_list.length < fuel) :
    ∃ b, Bfs.search (fun u => (g u).connections) (fun u => (g u).data == client_list[pos]) fuel
        none ⟨[graph], [graph]⟩ = some (some pos, b) ∧
      b.seen.length = if pos = graph then 1 else client_list.length := by
  by_cases he : graph = pos
  · subst he
    obtain ⟨turns, rfl⟩ := Nat.exists_eq_add_of_lt hfuel
    rw [Bfs.search, if_pos (by simpa using (hg.data_eq_iff hnodup hgraph hgraph).mpr rfl),
      if_pos rfl]
    exact ⟨_, rfl, rfl⟩
  · have hstop : ((g graph).data == client_list[pos]) = false := by
      simpa using fun h => he ((hg.data_eq_iff hnodup hgraph hpos).mp h)
    obtain ⟨t, b, hsearch, hnear, hseen, hreach, hfound⟩ :=
      Bfs.search_from (fun u => (g u).data == client_list[pos])
        (fun v hv => List.mem_range.mpr (hg.lt_of_reach hgraph hv)) (by simpa using hfuel) hstop
    -- every node is the one it started from or connected to it
    have hmem : ∀ v, v ∈ b.seen ↔ v < client_list.length := by
      intro v
      refine ⟨fun hv => hg.lt_of_reach hgraph (hreach v hv), fun hv => hnear v ?_⟩
      by_cases hvg : v = graph
      · exact Or.inl hvg
      · exact Or.inr ((hg.connected graph hgraph v).mpr ⟨hv, hvg⟩)
    refine ⟨b, ?_, ?_⟩
    · rcases hfound with ⟨v, rfl, hv, hvr⟩ | ⟨-, hnone⟩
      · have hdata : (g v).data = client_list[pos] := by simpa using hv
        rw [hsearch, (hg.data_eq_iff hnodup (hg.lt_of_reach hgraph hvr) hpos).mp hdata]
      · have hdata : (g pos).data = client_list[pos] :=
          (hg.data_eq_iff hnodup hpos hpos).mpr rfl
        have := hnone pos (hreach pos ((hmem pos).mpr hpos))
        simp [hdata] at this
    · rw [if_neg (Ne.symm he)]
      have hperm : b.seen.Perm (List.range client_list.length) :=
        (List.perm_ext_iff_of_nodup hseen List.nodup_range).mpr fun v =>
          (hmem v).trans List.mem_range.symm
      rw [hperm.length_eq, List.length_range]

/-- The words `malloc` left in the second and all later nodes in sight are zero, but for
the last, behind which nothing is looked for. -/
def WordsZeroed (malloc : Nat → Malloc Nat) (n : Nat) : Prop :=
  ∀ size, 2 ≤ size → size < n → (malloc (2 * size - 1)).zeroed = true

theorem readable_iff_wordsZeroed {malloc : Nat → Malloc Nat} {n : Nat} :
    Readable malloc 1 n ↔ WordsZeroed malloc n := by
  constructor
  · intro h size hle hlt
    exact last_word_eq_null_iff.mp (h size (by omega) hlt) hle
  · intro h size hle hlt
    exact last_word_eq_null_iff.mpr fun hle' => h size hle' hlt

/-- **The search for one client** ends at its node, or is lost. -/
theorem scan_spec (hg : Meshed client_list g) (hnodup : client_list.Nodup)
    (hgraph : graph < client_list.length) (hpos : pos < client_list.length)
    (hfuel : client_list.length < fuel) (malloc : Nat → Malloc Nat) (heap : Heap Nat) :
    ∃ s, scan_start malloc heap graph = .ok s ∧
      LostUnless (pos ≠ graph → WordsZeroed malloc client_list.length)
        (scan_loop fuel malloc g client_list[pos] fuel none s) fun r => r.1 = some pos := by
  obtain ⟨s, hstart, hcarries⟩ := enqueue_spec (carries_empty malloc heap) graph
  obtain ⟨b, hsearch, hlen⟩ := hg.search hnodup hgraph hpos hfuel
  have hbound : b.seen.length < fuel := by
    rw [hlen]
    split <;> omega
  refine ⟨s, hstart, (scan_loop_spec hg.wellFormed hcarries hsearch hbound).congr ?_⟩
  rw [hlen]
  by_cases he : pos = graph
  · rw [if_pos he]
    exact iff_of_true (fun hne => absurd he hne) (readable_self malloc 1)
  · rw [if_neg he]
    exact (imp_iff_right he).trans readable_iff_wordsZeroed.symm

end Search

/-! ## What a client is sent -/

section Send
variable {deref : Nat → client} {client_list : List Nat} {g : Graph} {pos : Nat}

/-- The client is sent the entries of exactly the other clients; alone, it is sent
nothing. -/
def SentOthers (deref : Nat → client) (client_list : List Nat) (c : Nat) (sent : Option Str) :
    Prop :=
  (client_list.length = 1 → sent = none) ∧
    (2 ≤ client_list.length → ∃ others : List Nat, sent = some (peers_message (others.map deref)) ∧
      ∀ d, d ∈ others ↔ d ∈ client_list ∧ d ≠ c)

theorem mem_static_clients_iff (hfd : (client_list.map fun c => (deref c).socket_fd).Nodup)
    {c : Nat} (hc : c ∈ client_list) (d : Nat) :
    d ∈ static_clients deref client_list (deref c) ↔ d ∈ client_list ∧ d ≠ c := by
  rw [static_clients, List.mem_filter, decide_eq_true_iff]
  refine and_congr_right fun hd => not_congr ⟨fun he => ?_, fun he => he ▸ rfl⟩
  exact List.inj_on_of_nodup_map hfd hd hc he

theorem mem_rand_clients_iff (hg : Meshed client_list g) (hnodup : client_list.Nodup)
    (hpos : pos < client_list.length) (d : Nat) :
    d ∈ rand_clients g pos ↔ d ∈ client_list ∧ d ≠ client_list[pos] := by
  rw [rand_clients, edges_of_wellFormed hg.wellFormed, Option.getD_some, List.mem_map]
  constructor
  · rintro ⟨u, hu, rfl⟩
    obtain ⟨hlt, hne⟩ := (hg.connected pos hpos u).mp hu
    refine ⟨?_, fun he => hne ((hg.data_eq_iff hnodup hlt hpos).mp he)⟩
    rw [hg.data, List.getD_eq_getElem?_getD, List.getElem?_eq_getElem hlt]
    exact List.getElem_mem hlt
  · rintro ⟨hd, hne⟩
    obtain ⟨u, hu, rfl⟩ := List.mem_iff_getElem.mp hd
    refine ⟨u, (hg.connected pos hpos u).mpr ⟨hu, ?_⟩, (hg.data_eq_iff hnodup hu hu).mpr rfl⟩
    rintro rfl
    exact hne rfl

/-- Fewer clients than a pool: the list without the sockets of the client. -/
theorem client_peers_static_spec (hfd : (client_list.map fun c => (deref c).socket_fd).Nodup)
    {c : Nat} (hc : c ∈ client_list) (hlen : client_list.length ≠ 1) :
    ∃ others : List Nat,
      client_peers_static deref client_list (deref c) (SERVER_MAX_MESSAGE - 2 - 6) =
        some (space.intercalate ((others.map deref).map entry)) ∧
      ∀ d, d ∈ others ↔ d ∈ client_list ∧ d ≠ c :=
  ⟨static_clients deref client_list (deref c),
    client_peers_static_eq (by decide) deref (deref c) hlen, mem_static_clients_iff hfd hc⟩

/-- A pool of clients or more: the connections of the client's node. -/
theorem client_peers_rand_spec (deref : Nat → client) (hg : Meshed client_list g)
    (hnodup : client_list.Nodup) (hpos : pos < client_list.length) :
    ∃ others : List Nat, client_peers_rand deref (SERVER_MAX_MESSAGE - 2 - 6) g pos =
        .ok (space.intercalate ((others.map deref).map entry)) ∧
      ∀ d, d ∈ others ↔ d ∈ client_list ∧ d ≠ client_list[pos] :=
  ⟨rand_clients g pos, client_peers_rand_eq (by decide) deref hg.wellFormed pos,
    mem_rand_clients_iff hg hnodup hpos⟩

theorem client_send_peers_spec (hg : Meshed client_list g)
    (hfd : (client_list.map fun c => (deref c).socket_fd).Nodup) (hpos : pos < client_list.length) :
    ∃ sent, client_send_peers deref client_list g (deref client_list[pos]) pos = .ok sent ∧
      SentOthers deref client_list client_list[pos] sent := by
  have hmem : client_list[pos] ∈ client_list := List.getElem_mem hpos
  unfold client_send_peers
  by_cases hpool : PEER_POOL_SIZE > client_list.length
  · rw [if_pos hpool]
    by_cases hone : client_list.length = 1
    · rw [client_peers_static, if_pos hone]
      exact ⟨none, rfl, fun _ => rfl, fun hlen => absurd hlen (by omega)⟩
    · obtain ⟨others, hstatic, hothers⟩ := client_peers_static_spec hfd hmem hone
      rw [hstatic]
      exact ⟨_, rfl, fun he => absurd he hone, fun _ => ⟨others, rfl, hothers⟩⟩
  · rw [if_neg hpool]
    have hlen : client_list.length ≠ 1 := by
      have : PEER_POOL_SIZE = 5 := rfl
      omega
    obtain ⟨others, hrand, hothers⟩ := client_peers_rand_spec deref hg hfd.of_map hpos
    rw [hrand]
    exact ⟨_, rfl, fun he => absurd he hlen, fun _ => ⟨others, rfl, hothers⟩⟩

end Send

/-! ## The round -/

section Round
variable {deref : Nat → client} {client_list : List Nat} {g : Graph} {graph fuel : Nat}

/-- The search for the client ended at its own node, and it is sent the others. -/
structure Served (deref : Nat → client) (client_list : List Nat) (v : Visit) : Prop where
  found : v.target = v.client
  sent : SentOthers deref client_list v.client v.sent

/-- **The clients one after the other**, from any position and with any memory. -/
theorem visit_clients_spec (hg : Meshed client_list g)
    (hfd : (client_list.map fun c => (deref c).socket_fd).Nodup)
    (hgraph : graph < client_list.length) (hfuel : client_list.length < fuel)
    (malloc : Nat → Nat → Malloc Nat) {pre rest : List Nat} (hsplit : client_list = pre ++ rest)
    (heap : Heap Nat) :
    LostUnless (∀ pos, pre.length ≤ pos → pos < client_list.length → pos ≠ graph →
        WordsZeroed (malloc pos) client_list.length)
      (visit_clients fuel deref malloc client_list g graph pre.length rest heap)
      fun visits => visits.map Visit.client = rest ∧ ∀ v ∈ visits, Served deref client_list v := by
  induction rest generalizing pre heap with
  | nil =>
    refine LostUnless.of_ok (fun pos hle hlt => ?_) rfl ⟨rfl, by simp⟩
    rw [hsplit, List.append_nil] at hlt
    omega
  | cons here rest ih =>
    have hpos : pre.length < client_list.length := by simp [hsplit]
    have hhere : client_list[pre.length] = here := by simp [hsplit]
    have hnext : client_list = (pre ++ [here]) ++ rest := by simp [hsplit]
    obtain ⟨s, hstart, hscan⟩ :=
      scan_spec hg hfd.of_map hgraph hpos hfuel (malloc pre.length) heap
    obtain ⟨sent, hsend, hsent⟩ := client_send_peers_spec hg hfd hpos
    rw [hhere] at hscan hsend hsent
    rw [visit_clients, hstart]
    -- the condition splits into the one for this client and the one for the rest
    have hcond : (∀ pos, pre.length ≤ pos → pos < client_list.length → pos ≠ graph →
          WordsZeroed (malloc pos) client_list.length) ↔
        (pre.length ≠ graph → WordsZeroed (malloc pre.length) client_list.length) ∧
          ∀ pos, (pre ++ [here]).length ≤ pos → pos < client_list.length → pos ≠ graph →
            WordsZeroed (malloc pos) client_list.length := by
      rw [List.length_append, List.length_singleton]
      constructor
      · intro h
        exact ⟨h _ (Nat.le_refl _) hpos, fun pos hle => h pos (by omega)⟩
      · rintro ⟨hfirst, hrest⟩ pos hle hlt
        rcases Nat.eq_or_lt_of_le hle with rfl | hlt'
        · exact hfirst
        · exact hrest pos hlt' hlt
    refine LostUnless.congr (hscan.bind ?_) hcond
    rintro ⟨target, s'⟩ rfl
    have ih := ih hnext s'.heap
    rw [List.length_append, List.length_singleton] at ih
    rw [List.length_append, List.length_singleton]
    simp only [access, hsend, bind, Except.bind]
    apply ih.map
    rintro visits ⟨hclients, hserved⟩
    have hfound : (g pre.length).data = here :=
      hhere ▸ (hg.data_eq_iff hfd.of_map hpos hpos).mpr rfl
    refine ⟨by rw [List.map_cons, hclients], fun v hv => ?_⟩
    rcases List.mem_cons.mp hv with rfl | hv
    · exact ⟨hfound, hsent⟩
    · exact hserved v hv

/-- The round ends, and every client is served in its turn. -/
def Distributes (fuel : Nat) (deref : Nat → client) (malloc : Nat → Nat → Malloc Nat)
    (rand : Nat → Nat) (heap : Heap Nat) (client_list : List Nat) : Prop :=
  ∃ visits, manage_graph fuel deref malloc rand heap client_list = .ok visits ∧
    visits.map Visit.client = client_list ∧ ∀ v ∈ visits, Served deref client_list v

/-- **When the peers are distributed.**  Whatever `rand()` returns, the round serves every
client exactly when, in the search of each client but the one whose node the first turn
of the shuffle moves to the end, the words `malloc` left in the second to the last but
one cell of the nodes in sight are zero.  With one or two clients there are none. -/
theorem manage_graph_iff (malloc : Nat → Nat → Malloc Nat) (rand : Nat → Nat) (heap : Heap Nat)
    (hne : client_list ≠ []) (hfd : (client_list.map fun c => (deref c).socket_fd).Nodup)
    (hfuel : client_list.length < fuel) :
    Distributes fuel deref malloc rand heap client_list ↔
      ∀ pos, pos < client_list.length →
        pos ≠ rand (client_list.length - 1) % (client_list.length - 1) →
        WordsZeroed (malloc pos) client_list.length := by
  obtain ⟨g, graph, hcombine, hg, hgraph, hlast⟩ := meshed rand hne
  have hspec :=
    visit_clients_spec hg hfd hgraph hfuel malloc (List.nil_append client_list).symm heap
  have hround : manage_graph fuel deref malloc rand heap client_list =
      visit_clients fuel deref malloc client_list g graph 0 client_list heap := by
    rw [manage_graph, hcombine]
    rfl
  have hcond : (∀ pos, ([] : List Nat).length ≤ pos → pos < client_list.length → pos ≠ graph →
        WordsZeroed (malloc pos) client_list.length) ↔
      ∀ pos, pos < client_list.length →
        pos ≠ rand (client_list.length - 1) % (client_list.length - 1) →
        WordsZeroed (malloc pos) client_list.length := by
    by_cases hn : 2 ≤ client_list.length
    · rw [← hlast hn]
      exact ⟨fun h pos => h pos (Nat.zero_le _), fun h pos _ => h pos⟩
    · have hwords : ∀ pos, WordsZeroed (malloc pos) client_list.length :=
        fun pos size hle hlt => by omega
      exact iff_of_true (fun pos _ _ _ => hwords pos) fun pos _ _ => hwords pos
  rw [← hcond, Distributes, hround]
  constructor
  · rintro ⟨visits, hok, -⟩
    by_contra hnot
    rw [List.length_nil] at hspec
    rw [hspec.2 hnot] at hok
    cases hok
  · intro h
    exact hspec.1 h

end Round

/-- Three clients. -/
def three_clients (c : Nat) : client := ⟨c, [49], [48 + UInt8.ofNat c]⟩

/-- In zeroed memory they are all served. -/
theorem manage_graph_iff_three :
    Distributes 8 three_clients (fun _ _ => next_malloc true) (fun _ => 0) ∅ [4, 5, 6] ↔
      ∀ pos, pos < [4, 5, 6].length → pos ≠ 0 % 2 →
        WordsZeroed ((fun _ _ => next_malloc true) pos) [4, 5, 6].length :=
  manage_graph_iff _ _ _ (by decide) (by decide) (by decide)

/-- In memory that is not, the search for the second client is lost. -/
theorem search_lost :
    ¬ Distributes 8 three_clients (fun _ _ => next_malloc false) (fun _ => 0) ∅ [4, 5, 6] := by
  have hlost : manage_graph 8 three_clients (fun _ _ => next_malloc false) (fun _ => 0) ∅
      [4, 5, 6] = .error .invalid_access := by decide +kernel
  rintro ⟨visits, hok, -⟩
  rw [hlost] at hok
  cases hok

end AnonyChat
