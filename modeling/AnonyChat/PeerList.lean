import AnonyChat.Distribution

/-! # The peer list on its way to a client

The name server writes entries with spaces in between; `parse_peers` reads the text
back with two cursors, one over the entries and one inside an entry.  Entries the format
can carry come back whole and in order (`parse_peers_built`).  A client may choose its
port to be a colon, though, and then its entry has none: every client it is sent to
stays in its loop for ever (`advancesOnce_iff`).
-/
namespace AnonyChat
open CString

/-! ## Termination -/

/-- The call returns, and the loop takes one turn for each space-separated token and one
for the end of the text: every token is passed once. -/
def AdvancesOnce (fd : Nat → Int) (t : Peers) (peer_msg : Str) : Prop :=
  Returns fd t peer_msg ∧
    parse_peers fd ((tokens peer_msg space).length + 1) t peer_msg =
      some (if peer_msg = [] then (1, t)
        else (0, (tokens peer_msg space).foldl (add_entry fd) (clean_peers_list t)))

/-- `parse_peers` passes every token exactly when each has two parts between its colons;
if one has not, it never returns. -/
theorem advancesOnce_iff (fd : Nat → Int) (t : Peers) (peer_msg : Str) :
    AdvancesOnce fd t peer_msg ↔
      ∀ tok ∈ tokens peer_msg space, 2 ≤ (tokens tok colon).length := by
  simp only [← complete_iff]
  constructor
  · intro h
    exact (returns_iff fd t peer_msg).mp h.1
  · intro h
    refine ⟨(returns_iff fd t peer_msg).mpr h, ?_⟩
    by_cases hne : peer_msg = []
    · subst hne
      rfl
    · have hparse := parse_peers_tokens fd hne h 0 t
      rw [Nat.zero_add] at hparse
      rw [if_neg hne, hparse]

/-- The port a client gets by a `PORTUPD` message: its second token, as far as the field
goes; without one the message is ignored. -/
def portupd_port (buffer : Str) : Option Str :=
  (strtok_r (strtok_r buffer space).2 space).1.map fun tok => tok.take NI_MAXSERV

/-- Two clients, the second after `PORTUPD :`. -/
def colon_clients (c : Nat) : client := ⟨c, [49, 46, 50], if c = 1 then colon else [57]⟩

/-- The first of them is sent `PEERS 1.2::`, and never returns from reading it. -/
theorem advancesOnce_fails_portupd :
    portupd_port ([80, 79, 82, 84, 85, 80, 68] ++ 32 :: colon) = some (colon_clients 1).port ∧
    client_send_peers colon_clients [0, 1] (client_nodes [0, 1]) (colon_clients 0) 0 =
      .ok (some (PEERS ++ [49, 46, 50, 58, 58])) ∧
    (∀ fuel, parse_peers (fun _ => 0) fuel ⟨[], 0, []⟩ [49, 46, 50, 58, 58] = none) ∧
    ¬ AdvancesOnce (fun _ => 0) ⟨[], 0, []⟩ [49, 46, 50, 58, 58] := by
  have hstuck : ¬ ∀ tok ∈ tokens [49, 46, 50, 58, 58] space, Complete tok := by decide
  refine ⟨rfl, rfl, fun fuel => parse_peers_stuck _ hstuck fuel _, ?_⟩
  exact fun h => hstuck ((returns_iff _ _ _).mp h.1)

/-! ## From the server's clients to the client's peers -/

/-- The fields of an entry that the text format can carry: not empty, without a space,
a colon or a terminator, and shorter than the field that receives them. -/
structure Carried (client_p : client) : Prop where
  address_ne_nil : client_p.address ≠ []
  port_ne_nil : client_p.port ≠ []
  address_plain : ∀ c ∈ client_p.address, c ≠ 32 ∧ c ≠ 58 ∧ c ≠ 0
  port_plain : ∀ c ∈ client_p.port, c ≠ 32 ∧ c ≠ 58 ∧ c ≠ 0
  address_lt : client_p.address.length < NI_MAXHOST
  port_lt : client_p.port.length < NI_MAXSERV

/-- The text of an entry. -/
def entry_text (client_p : client) : Str := client_p.address ++ 58 :: client_p.port

/-- The entries, each with a space behind it, and a terminator fit the block a builder
allocates in front of the message of `max_message` bytes. -/
def Fits (max_message : Nat) (others : List client) : Prop :=
  ((others.map fun c => entry_text c ++ space).flatten).length + 1 ≤ max_message - 2 - 6

/-- The message around the text of a builder. -/
def message_of (max_message : Nat) (to_cat : Str) : Str :=
  strncat (strncat [] PEERS max_message) to_cat max_message

/-- `msg` is the message of one of the builders, with room for `max_message` bytes, and
`others` are the clients it puts into it, in order. -/
inductive Built (deref : Nat → client) (max_message : Nat) : List client → Str → Prop
  /-- The connected clients with another socket. -/
  | static {client_list client_o to_cat}
      (h : client_peers_static deref client_list client_o (max_message - 2 - 6) = some to_cat) :
      Built deref max_message
        ((client_list.map deref).filter fun client_p => client_p.socket_fd ≠ client_o.socket_fd)
        (message_of max_message to_cat)
  /-- The clients whose nodes are connected to the node. -/
  | rand {g graph connections to_cat} (hedges : edges (g graph) = some connections)
      (h : client_peers_rand deref (max_message - 2 - 6) g graph = .ok to_cat) :
      Built deref max_message (connections.map fun u => deref (g u).data)
        (message_of max_message to_cat)

/-- What `client_send_peers` sends is the message of a builder. -/
theorem client_send_peers_built {deref : Nat → client} {client_list : List Nat} {g : Graph}
    {client_o : client} {graph : Nat} {msg : Str}
    (h : client_send_peers deref client_list g client_o graph = .ok (some msg)) :
    ∃ others, Built deref SERVER_MAX_MESSAGE others msg := by
  simp only [client_send_peers] at h
  split at h
  · split at h
    · cases h
    · rename_i to_cat hstatic
      cases h
      exact ⟨_, Built.static hstatic⟩
  · cases hedges : edges (g graph) with
    | none =>
      simp [client_peers_rand, hedges, access, bind, Except.bind] at h
    | some connections =>
      cases hrand : client_peers_rand deref (SERVER_MAX_MESSAGE - 2 - 6) g graph with
      | error stuck => simp [hrand, bind, Except.bind] at h
      | ok to_cat =>
        simp only [hrand, bind, Except.bind, pure, Except.pure] at h
        cases h
        exact ⟨_, Built.rand hedges hrand⟩

section Built
variable {deref : Nat → client} {max_message : Nat} {others : List client} {msg : Str}

theorem entry_upto_of_fits (hfits : Fits max_message others) {c : client} (hc : c ∈ others) :
    entry_upto (max_message - 2 - 6) c = entry_text c := by
  have hlen : (entry_text c ++ space).length ≤
      ((others.map fun c => entry_text c ++ space).flatten).length :=
    List.Sublist.length_le (List.sublist_flatten_of_mem (List.mem_map_of_mem hc))
  simp only [Fits, entry_text, space, List.length_append, List.length_cons,
    List.length_nil] at hfits hlen
  rw [entry_upto, strncat_of_le (by omega), strncat_of_le (show colon.length ≤ _ by
    simp only [colon, List.length_singleton]; omega), strncat_of_le (by omega)]
  simp [entry_text, colon]

/-- Both builders write the same text for the same clients. -/
theorem built_text (hbuilt : Built deref max_message others msg)
    (hsize : 1 ≤ max_message - 2 - 6) :
    msg = message_of max_message
      (space.intercalate (others.map (entry_upto (max_message - 2 - 6)))) := by
  cases hbuilt with
  | static h =>
    rw [client_peers_static] at h
    split at h
    · cases h
    · obtain rfl := Option.some.inj h
      rw [entries_eq_intercalate hsize]
  | rand hedges h =>
    simp only [client_peers_rand, hedges, access, bind, Except.bind, pure, Except.pure] at h
    cases h
    rw [entries_eq_intercalate hsize]

/-- Without truncation the message is `PEERS` and the entries with spaces in between. -/
theorem built_eq (hbuilt : Built deref max_message others msg) (hfits : Fits max_message others) :
    msg = PEERS ++ space.intercalate (others.map entry_text) := by
  have hsize : 1 ≤ max_message - 2 - 6 := by
    simp only [Fits] at hfits
    omega
  have hentries : others.map (entry_upto (max_message - 2 - 6)) = others.map entry_text :=
    List.map_congr_left fun c hc => entry_upto_of_fits hfits hc
  have hlen : (space.intercalate (others.map entry_text)).length ≤ max_message := by
    have htext := entries_eq_intercalate hsize others
    rw [foldl_append_entry hsize, List.nil_append, hentries] at htext
    have hflat : (others.map fun c => entry_upto (max_message - 2 - 6) c ++ space) =
        others.map fun c => entry_text c ++ space :=
      List.map_congr_left fun c hc => by rw [entry_upto_of_fits hfits hc]
    rw [← htext, hflat, List.length_dropLast]
    simp only [Fits] at hfits
    omega
  have hpeers : PEERS.length ≤ max_message := by
    show 6 ≤ max_message
    omega
  rw [built_text hbuilt hsize, message_of, hentries, strncat_of_le hlen, strncat_of_le hpeers,
    List.nil_append]

theorem Carried.tokens_entry {c : client} (hc : Carried c) :
    tokens (entry_text c) colon = [c.address, c.port] := by
  have haddress : ∀ ch ∈ c.address, ch ∉ colon := by
    intro ch hch
    simpa [colon] using (hc.address_plain ch hch).2.1
  have hport : ∀ ch ∈ c.port, ch ∉ colon := by
    intro ch hch
    simpa [colon] using (hc.port_plain ch hch).2.1
  rw [entry_text, tokens_token hc.address_ne_nil haddress (by simp [colon]),
    tokens_last hc.port_ne_nil hport]

/-- The text of an entry is one token of the message. -/
theorem Carried.entry_plain {c : client} (hc : Carried c) :
    entry_text c ≠ [] ∧ ∀ ch ∈ entry_text c, ch ∉ space := by
  refine ⟨by simp [entry_text], fun ch hch => ?_⟩
  rw [space, List.mem_singleton]
  rcases List.mem_append.mp hch with h | h
  · exact (hc.address_plain ch h).1
  · rcases List.mem_cons.mp h with rfl | h
    · decide
    · exact (hc.port_plain ch h).1

/-- The entry comes back as a peer that is not connected. -/
theorem Carried.add_entry {c : client} (hc : Carried c) (fd : Nat → Int) (t : Peers) :
    (add_entry fd t (entry_text c)).peer_list =
      t.peer_list ++ [⟨t.peer_id, c.address, c.port, fd t.peer_id, false⟩] := by
  rw [AnonyChat.add_entry, split_entry_eq, hc.tokens_entry]
  simp only [List.head?_cons, List.tail_cons, add_peer, create_peer]
  rw [List.take_of_length_le (Nat.le_of_lt hc.address_lt),
    List.take_of_length_le (Nat.le_of_lt hc.port_lt)]

theorem foldl_add_entry (fd : Nat → Int) (t : Peers) (hcarried : ∀ c ∈ others, Carried c) :
    (((others.map entry_text).foldl (add_entry fd) t).peer_list).map
        (fun p => (p.address, p.port, p.open_con)) =
      t.peer_list.map (fun p => (p.address, p.port, p.open_con)) ++
        others.map fun c => (c.address, c.port, false) := by
  induction others generalizing t with
  | nil => simp
  | cons c others ih =>
    rw [List.map_cons, List.foldl_cons, ih _ fun d hd => hcarried d (List.mem_cons_of_mem _ hd),
      (hcarried c List.mem_cons_self).add_entry]
    simp

/-- The clients a builder put into its message are the peers after `parse_peers`, in
order and not connected, and no peer of before is left. -/
theorem parse_peers_built (hbuilt : Built deref max_message others msg)
    (hfits : Fits max_message others) (hcarried : ∀ c ∈ others, Carried c) (hne : others ≠ [])
    (fd : Nat → Int) (t : Peers) {fuel : Nat} (hfuel : others.length < fuel) :
    ∃ t', parse_peers fd fuel t (msg.drop PEERS.length) = some (0, t') ∧
      t'.peer_list.map (fun p => (p.address, p.port, p.open_con)) =
        others.map fun c => (c.address, c.port, false) := by
  have htokens : tokens (space.intercalate (others.map entry_text)) space =
      others.map entry_text := by
    refine tokens_intercalate (d := 32) (fun tok htok => ?_) (by simp [space])
    obtain ⟨c, hc, rfl⟩ := List.mem_map.mp htok
    exact (hcarried c hc).entry_plain
  have htext : space.intercalate (others.map entry_text) ≠ [] := by
    intro he
    rw [he, tokens_nil, List.nil_eq, List.map_eq_nil_iff] at htokens
    exact hne htokens
  have hcomplete : ∀ tok ∈ tokens (space.intercalate (others.map entry_text)) space,
      Complete tok := by
    intro tok htok
    rw [htokens] at htok
    obtain ⟨c, hc, rfl⟩ := List.mem_map.mp htok
    rw [complete_iff, (hcarried c hc).tokens_entry]
    exact Nat.le_refl 2
  obtain ⟨extra, rfl⟩ := Nat.exists_eq_add_of_lt hfuel
  have hparse := parse_peers_tokens fd htext hcomplete extra t
  rw [htokens, List.length_map, Nat.add_comm extra] at hparse
  refine ⟨(others.map entry_text).foldl (add_entry fd) (clean_peers_list t), ?_, ?_⟩
  · rw [built_eq hbuilt hfits, List.drop_left]
    exact hparse
  · rw [foldl_add_entry fd _ hcarried]
    rfl

end Built

theorem three_clients_carried {c : Nat} (hc : c ∈ [4, 5, 6]) : Carried (three_clients c) := by
  refine ⟨List.cons_ne_nil _ _, List.cons_ne_nil _ _, fun ch hch => ?_, fun ch hch => ?_, ?_, ?_⟩
  · obtain rfl := List.mem_singleton.mp hch
    decide
  · obtain rfl := List.mem_singleton.mp hch
    simp only [List.mem_cons, List.not_mem_nil, or_false] at hc
    rcases hc with rfl | rfl | rfl
    · decide
    · decide
    · decide
  · show 1 < NI_MAXHOST
    decide
  · show 1 < NI_MAXSERV
    decide

/-- A client that has an open peer receives two others. -/
theorem parse_peers_built_three :
    ∃ t', parse_peers (fun _ => 0) 3 ⟨[⟨0, [49], [57], 7, true⟩], 1, []⟩
        ((PEERS ++ [49, 58, 53, 32, 49, 58, 54]).drop PEERS.length) = some (0, t') ∧
      t'.peer_list.map (fun p => (p.address, p.port, p.open_con)) =
        (([4, 5, 6].map three_clients).filter fun client_p =>
          client_p.socket_fd ≠ (three_clients 4).socket_fd).map
            fun c => (c.address, c.port, false) :=
  have hstatic : client_peers_static three_clients [4, 5, 6] (three_clients 4)
      (SERVER_MAX_MESSAGE - 2 - 6) = some [49, 58, 53, 32, 49, 58, 54] := rfl
  have hbuilt : Built three_clients SERVER_MAX_MESSAGE
      (([4, 5, 6].map three_clients).filter fun client_p =>
        client_p.socket_fd ≠ (three_clients 4).socket_fd)
      (PEERS ++ [49, 58, 53, 32, 49, 58, 54]) :=
    Built.static hstatic
  have hcarried : ∀ client_p ∈ ([4, 5, 6].map three_clients).filter fun client_p =>
      client_p.socket_fd ≠ (three_clients 4).socket_fd, Carried client_p := by
    intro client_p hmem
    obtain ⟨c, hc, rfl⟩ := List.mem_map.mp (List.mem_filter.mp hmem).1
    exact three_clients_carried hc
  parse_peers_built hbuilt (by unfold Fits; decide) hcarried (by decide) _ _ (by decide)

/-- A node without connections: `parse_peers` has nothing to parse and keeps the peers. -/
theorem parse_peers_no_entries :
    client_send_peers three_clients [4, 5, 6, 7, 8] (client_nodes [4, 5, 6, 7, 8])
      (three_clients 4) 0 = .ok (some PEERS) ∧
    Built three_clients SERVER_MAX_MESSAGE [] PEERS ∧
    parse_peers (fun _ => 0) 3 ⟨[⟨0, [49], [57], 7, true⟩], 1, []⟩ (PEERS.drop PEERS.length) =
      some (1, ⟨[⟨0, [49], [57], 7, true⟩], 1, []⟩) :=
  have hedges : edges (client_nodes [4] 0) = some [] := rfl
  have hrand : client_peers_rand three_clients (SERVER_MAX_MESSAGE - 2 - 6) (client_nodes [4]) 0 =
    .ok [] := rfl
  ⟨rfl, Built.rand hedges hrand, rfl⟩

end AnonyChat
