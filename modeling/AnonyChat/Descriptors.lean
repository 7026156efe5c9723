import AnonyChat.Connections
import AnonyChat.Receive

/-! # The descriptors of a client

Three kinds of threads of a client open and close descriptors: `listen_for_clients` accepts
connections, each `client_handle` reads its own and closes it, and the thread of the name server
connects to peers and closes their sockets when it empties the list; `client_send_to_all_peers`
sends on them in between.  The kernel gives a descriptor out again as soon as it is closed.
Still nothing reads, closes or sends on a connection of somebody else: what is kept is always
the descriptor of a connection that is open and one's own, or -1 (`descriptors_owned`).
-/
namespace AnonyChat
open CString Machine

/-! ## The process -/

/-- What an open descriptor belongs to. -/
inductive Remote where
  /-- The connection to a peer, made to this address and port. -/
  | peer (peer_id : Nat) (address port : Str)
  /-- The connection of a thread of `client_handle`. -/
  | accepted (client_id : Nat)
  /-- A socket whose `connect` failed. -/
  | unconnected
  /-- Anything else: files, the server socket, the connection to the name server. -/
  | other
  deriving DecidableEq, Repr

/-- The open descriptors of a client, its peers, and the connections its threads of
`client_handle` have or had. -/
structure ClientProcess where
  fds : List (Int × Remote)
  peers : Peers
  handlers : List client_o

/-- A step of one of the threads. -/
inductive ProcessInput where
  /-- `clean_peers_list`. -/
  | clean
  /-- `list_add` of the peer created from an address and a port. -/
  | add (entry : Str × Str)
  /-- `connect_to_peers` at the peer with this index. -/
  | connect (i : Nat) (o : ConnectOutcome)
  /-- `client_send_to_all_peers`. -/
  | broadcast
  /-- `listen_for_clients` accepts a connection. -/
  | accept (m : NewSocket)
  /-- `client_handle` calls `recv`. -/
  | receive (j : Nat)
  /-- `client_handle` behind its loop. -/
  | hang_up (j : Nat)
  /-- Another descriptor is opened. -/
  | open_other (m : NewSocket)

/-- A descriptor is used on behalf of its owner; `remote` is what it belongs to at that time. -/
structure Use where
  owner : Remote
  fd : Int
  remote : Option Remote
  deriving DecidableEq, Repr

/-- What the descriptor belongs to, if it is open. -/
def remote_of (fds : List (Int × Remote)) (fd : Int) : Option Remote :=
  (fds.find? fun e => e.1 = fd).map Prod.snd

/-- `close`. -/
def close_fd (fds : List (Int × Remote)) (fd : Int) : List (Int × Remote) :=
  fds.filter fun e => e.1 ≠ fd

/-- A new descriptor. -/
def open_fd (fds : List (Int × Remote)) (m : NewSocket) (r : Remote) : List (Int × Remote) :=
  fds ++ [(m.pick (fds.map Prod.fst), r)]

/-- The connection to a peer. -/
def peer_remote (peer : peer_o) : Remote := .peer peer.peer_id peer.address peer.port

/-- `connect_to_host` for a peer: the descriptors and the value returned. -/
def dial (fds : List (Int × Remote)) (peer : peer_o) :
    ConnectOutcome → List (Int × Remote) × Int
  | .getaddrinfo_failed => (fds, -1)
  | .socket_failed => (fds, -1)
  -- the error path does not close the socket
  | .connect_failed m => (open_fd fds m .unconnected, -1)
  | .connected m => (open_fd fds m (peer_remote peer), m.pick (fds.map Prod.fst))

/-- A call with the socket of a peer. -/
def use_peer (fds : List (Int × Remote)) (peer : peer_o) : Use :=
  ⟨peer_remote peer, peer.socket_fd, remote_of fds peer.socket_fd⟩

/-- A call with the socket of a client. -/
def use_client (fds : List (Int × Remote)) (client : client_o) : Use :=
  ⟨.accepted client.client_id, client.socket_fd, remote_of fds client.socket_fd⟩

/-- The loop of `clean_peers_list`. -/
def clean_loop : List peer_o → List (Int × Remote) → List (Int × Remote) × List Use
  | [], fds => (fds, [])
  | tmp_peer :: rest, fds =>
    if tmp_peer.open_con then
      ((clean_loop rest (close_fd fds tmp_peer.socket_fd)).1,
        use_peer fds tmp_peer :: (clean_loop rest (close_fd fds tmp_peer.socket_fd)).2)
    else clean_loop rest fds

/-- One step; `fd` is what the socket field of a new peer holds, which is not set.  The thread
of a client is there as long as its connection is open. -/
def process_step (fd : Nat → Int) (s : ClientProcess) : ProcessInput → ClientProcess × List Use
  | .clean =>
    ({ s with fds := (clean_loop s.peers.peer_list s.fds).1, peers := clean_peers_list s.peers },
      (clean_loop s.peers.peer_list s.fds).2)
  | .add entry => ({ s with peers := add_peer fd s.peers entry.1 entry.2 }, [])
  | .connect i o =>
    match s.peers.peer_list[i]? with
    | none => (s, [])
    | some to_con =>
      if to_con.open_con then (s, [])
      else
        let r := dial s.fds to_con o
        ({ s with
            fds := r.1
            peers := { s.peers with
              peer_list := s.peers.peer_list.set i (connect_to_peer r.2 to_con) } }, [])
  | .broadcast => (s, (s.peers.peer_list.filter (·.open_con)).map (use_peer s.fds))
  | .accept m =>
    ({ s with
        fds := open_fd s.fds m (.accepted s.handlers.length)
        handlers := s.handlers ++
          [⟨s.handlers.length, m.pick (s.fds.map Prod.fst), true⟩] }, [])
  | .receive j =>
    match s.handlers[j]? with
    | none => (s, [])
    | some client => (s, if client.open_con then [use_client s.fds client] else [])
  | .hang_up j =>
    match s.handlers[j]? with
    | none => (s, [])
    | some client =>
      if client.open_con then
        ({ s with
            fds := close_fd s.fds client.socket_fd
            handlers := s.handlers.set j { client with socket_fd := -1, open_con := false } },
          [use_client s.fds client])
      else (s, [])
  | .open_other m => ({ s with fds := open_fd s.fds m .other }, [])

/-- The process before the first connection; `others` are the descriptors it has by then. -/
def no_connections (others : List Int) : ClientProcess :=
  ⟨others.map fun fd => (fd, .other), ⟨[], 0, []⟩, []⟩

section Calls
variable {fds : List (Int × Remote)}

/-- The descriptors are those of `connect_to_host`. -/
theorem dial_eq_connect_to_host {k : Sockets} (hk : k.held = fds.map Prod.fst) (peer : peer_o)
    (o : ConnectOutcome) :
    (connect_to_host k o).1.held = (dial fds peer o).1.map Prod.fst ∧
      (connect_to_host k o).2 = (dial fds peer o).2 := by
  cases o with
  | getaddrinfo_failed => exact ⟨hk, rfl⟩
  | socket_failed => exact ⟨hk, rfl⟩
  | connect_failed m => simp [connect_to_host, dial, open_fd, Sockets.socket, hk]
  | connected m => simp [connect_to_host, dial, open_fd, Sockets.socket, Sockets.connect, hk]

/-- What is closed are the sockets that `clean_peers_list` closes. -/
theorem clean_loop_closes (t : Peers) :
    (clean_peers_list t).closed = t.closed ++ (clean_loop t.peer_list fds).2.map Use.fd := by
  have hloop : ∀ (l : List peer_o) (fds : List (Int × Remote)),
      (clean_loop l fds).2.map Use.fd = (l.filter (·.open_con)).map (·.socket_fd) := by
    intro l
    induction l with
    | nil => exact fun fds => rfl
    | cons tmp_peer rest ih =>
      intro fds
      cases hopen : tmp_peer.open_con with
      | false => simp [clean_loop, hopen, ih]
      | true => simp [clean_loop, hopen, ih, use_peer]
  rw [hloop, clean_peers_list]

/-- A broadcast sends where `client_send_to_all_peers` does. -/
theorem broadcast_sends (fd : Nat → Int) (s : ClientProcess) (msg : List UInt8) :
    (client_send_to_all_peers s.peers.peer_list msg).map (·.socket_fd) =
      (process_step fd s .broadcast).2.map Use.fd := by
  rw [client_send_to_all_peers_eq, process_step, List.map_map, List.map_map]
  rfl

end Calls

/-! ## Who owns what -/

/-- The descriptor is that of the connection it is used for, or -1, which is none. -/
def Use.Own (u : Use) : Prop := u.remote = some u.owner ∨ u.fd = -1 ∧ u.remote = none

/-- A descriptor is open once, and none is negative. -/
structure OpenOnce (fds : List (Int × Remote)) : Prop where
  nodup : (fds.map Prod.fst).Nodup
  nonneg : ∀ e ∈ fds, 0 ≤ e.1

/-- The connections to peers are those of the peers marked as open that hold a descriptor. -/
structure PeersOwn (fds : List (Int × Remote)) (t : Peers) : Prop where
  mem_iff : ∀ socket_fd peer_id address port, (socket_fd, .peer peer_id address port) ∈ fds ↔
    ∃ peer ∈ t.peer_list, peer.open_con = true ∧ peer.socket_fd = socket_fd ∧
      peer.socket_fd ≠ -1 ∧ peer_remote peer = .peer peer_id address port
  nodup : (t.peer_list.map (·.peer_id)).Nodup
  fresh : ∀ peer ∈ t.peer_list, peer.peer_id < t.peer_id

/-- The connections accepted are those of the threads that are there. -/
structure HandlersOwn (fds : List (Int × Remote)) (handlers : List client_o) : Prop where
  mem_iff : ∀ socket_fd client_id, (socket_fd, .accepted client_id) ∈ fds ↔
    ∃ client, handlers[client_id]? = some client ∧ client.open_con = true ∧
      client.socket_fd = socket_fd
  numbered : ∀ j (client : client_o), handlers[j]? = some client → client.client_id = j

/-- Every descriptor has its owner. -/
structure OwnsDescriptors (s : ClientProcess) : Prop where
  opened : OpenOnce s.fds
  peers : PeersOwn s.fds s.peers
  handlers : HandlersOwn s.fds s.handlers

section Table
variable {fds : List (Int × Remote)} {fd : Int} {r : Remote} {e : Int × Remote} {m : NewSocket}

theorem mem_close_fd : e ∈ close_fd fds fd ↔ e ∈ fds ∧ e.1 ≠ fd := by
  simp [close_fd]

theorem mem_open_fd : e ∈ open_fd fds m r ↔ e ∈ fds ∨ e = (m.pick (fds.map Prod.fst), r) := by
  simp [open_fd]

theorem OpenOnce.unique {r' : Remote} (h : OpenOnce fds) (hr : (fd, r) ∈ fds)
    (hr' : (fd, r') ∈ fds) : r = r' := by
  have hsame := List.inj_on_of_nodup_map h.nodup hr hr' rfl
  exact (Prod.ext_iff.mp hsame).2

theorem OpenOnce.ne_neg_one (h : OpenOnce fds) (hr : (fd, r) ∈ fds) : fd ≠ -1 := by
  have hnonneg : 0 ≤ fd := h.nonneg _ hr
  omega

theorem remote_of_of_mem (h : OpenOnce fds) (hr : (fd, r) ∈ fds) : remote_of fds fd = some r := by
  rw [remote_of]
  cases hfind : fds.find? fun e => e.1 = fd with
  | none => simpa using List.find?_eq_none.mp hfind _ hr
  | some e =>
    have hkey : e.1 = fd := by simpa using List.find?_some hfind
    have hmem : (fd, e.2) ∈ fds := by
      rw [← hkey]
      exact List.mem_of_find?_eq_some hfind
    rw [Option.map_some, h.unique hmem hr]

theorem remote_of_neg_one (h : OpenOnce fds) : remote_of fds (-1) = none := by
  rw [remote_of, Option.map_eq_none_iff, List.find?_eq_none]
  intro e he
  have hne := h.ne_neg_one (r := e.2) he
  simpa using hne

theorem OpenOnce.close (h : OpenOnce fds) (fd : Int) : OpenOnce (close_fd fds fd) where
  nodup := h.nodup.sublist (List.filter_sublist.map Prod.fst)
  nonneg e he := h.nonneg e (mem_close_fd.mp he).1

theorem OpenOnce.new (h : OpenOnce fds) (m : NewSocket) (r : Remote) :
    OpenOnce (open_fd fds m r) where
  nodup := by
    rw [open_fd, List.map_append, List.map_cons, List.map_nil, List.nodup_append]
    refine ⟨h.nodup, List.nodup_singleton _, ?_⟩
    rintro a ha b hb rfl
    rw [List.mem_singleton.mp hb] at ha
    exact m.fresh _ ha
  nonneg e he := by
    rcases mem_open_fd.mp he with he | rfl
    · exact h.nonneg e he
    · exact m.nonneg _

end Table

/-! ## Using and closing them -/

section Peers
variable {fds : List (Int × Remote)} {t : Peers}

/-- An open peer has its connection or none. -/
theorem PeersOwn.connected (h : PeersOwn fds t) {peer : peer_o} (hpeer : peer ∈ t.peer_list)
    (hopen : peer.open_con = true) (hfd : peer.socket_fd ≠ -1) :
    (peer.socket_fd, peer_remote peer) ∈ fds :=
  (h.mem_iff _ _ _ _).mpr ⟨peer, hpeer, hopen, rfl, hfd, rfl⟩

/-- A call with the socket of a peer that has its connection or none. -/
theorem use_peer_own (h : OpenOnce fds) {peer : peer_o}
    (hpeer : peer.socket_fd ≠ -1 → (peer.socket_fd, peer_remote peer) ∈ fds) :
    (use_peer fds peer).Own := by
  by_cases hfd : peer.socket_fd = -1
  · refine Or.inr ⟨hfd, ?_⟩
    rw [use_peer, hfd]
    exact remote_of_neg_one h
  · exact Or.inl (remote_of_of_mem h (hpeer hfd))

/-- What the loop of `clean_peers_list` leaves open. -/
structure Cleaned (fds : List (Int × Remote)) (l : List peer_o)
    (r : List (Int × Remote) × List Use) : Prop where
  opened : OpenOnce r.1
  mem_iff : ∀ e, e ∈ r.1 ↔ e ∈ fds ∧ ∀ peer ∈ l, peer.open_con = true → e.1 ≠ peer.socket_fd
  own : ∀ u ∈ r.2, u.Own

/-- **Emptying the list** closes what its peers hold, and each of them only its own: by the
time the loop comes to a peer, the others have closed something else. -/
theorem clean_loop_cleaned {l : List peer_o} (hopened : OpenOnce fds)
    (hconnected : ∀ peer ∈ l, peer.open_con = true → peer.socket_fd ≠ -1 →
      (peer.socket_fd, peer_remote peer) ∈ fds)
    (hnodup : (l.map (·.peer_id)).Nodup) : Cleaned fds l (clean_loop l fds) := by
  induction l generalizing fds with
  | nil => exact ⟨hopened, by simp [clean_loop], by simp [clean_loop]⟩
  | cons tmp_peer rest ih =>
    obtain ⟨hnotin, hrest⟩ := List.nodup_cons.mp hnodup
    cases hopen : tmp_peer.open_con with
    | false =>
      rw [clean_loop, if_neg (by simp [hopen])]
      obtain ⟨hopened', hmem, hown⟩ :=
        ih hopened (fun peer h => hconnected peer (List.mem_cons_of_mem _ h)) hrest
      refine ⟨hopened', fun e => ?_, hown⟩
      rw [hmem, List.forall_mem_cons]
      simp [hopen]
    | true =>
      have hkept : ∀ peer ∈ rest, peer.open_con = true → peer.socket_fd ≠ -1 →
          (peer.socket_fd, peer_remote peer) ∈ close_fd fds tmp_peer.socket_fd := by
        intro peer hpeer hpeer_open hfd
        have hmem := hconnected peer (List.mem_cons_of_mem _ hpeer) hpeer_open hfd
        refine mem_close_fd.mpr ⟨hmem, fun hsame => ?_⟩
        -- one descriptor for two peers would be one connection with two numbers
        have hsame : peer.socket_fd = tmp_peer.socket_fd := hsame
        have hown := hconnected tmp_peer List.mem_cons_self hopen (hsame ▸ hfd)
        rw [← hsame] at hown
        have hid := hopened.unique hmem hown
        simp only [peer_remote, Remote.peer.injEq] at hid
        exact hnotin (List.mem_map.mpr ⟨peer, hpeer, hid.1⟩)
      obtain ⟨hopened', hmem, hown⟩ := ih (hopened.close _) hkept hrest
      rw [clean_loop, if_pos hopen]
      refine ⟨hopened', fun e => ?_, ?_⟩
      · rw [hmem, mem_close_fd, List.forall_mem_cons, and_assoc]
        simp [hopen]
      · rw [List.forall_mem_cons]
        exact ⟨use_peer_own hopened (hconnected tmp_peer List.mem_cons_self hopen), hown⟩

/-- Descriptors of other kinds do not matter to the peers. -/
theorem PeersOwn.congr {fds' : List (Int × Remote)} (h : PeersOwn fds t)
    (hsame : ∀ socket_fd peer_id address port, (socket_fd, .peer peer_id address port) ∈ fds' ↔
      (socket_fd, .peer peer_id address port) ∈ fds) : PeersOwn fds' t where
  mem_iff socket_fd peer_id address port := by rw [hsame, h.mem_iff]
  nodup := h.nodup
  fresh := h.fresh

/-- No peers hold no connection to a peer. -/
theorem PeersOwn.clean {r : List (Int × Remote) × List Use} (h : PeersOwn fds t)
    (hr : Cleaned fds t.peer_list r) : PeersOwn r.1 (clean_peers_list t) where
  mem_iff socket_fd peer_id address port := by
    constructor
    · intro hmem
      obtain ⟨hfds, hother⟩ := (hr.mem_iff _).mp hmem
      obtain ⟨peer, hpeer, hopen, hfd, -, -⟩ := (h.mem_iff _ _ _ _).mp hfds
      exact absurd hfd.symm (hother peer hpeer hopen)
    · rintro ⟨peer, hpeer, -⟩
      exact absurd hpeer List.not_mem_nil
  nodup := List.nodup_nil
  fresh peer hpeer := absurd hpeer List.not_mem_nil

/-- A new peer is not connected, and its number is new. -/
theorem PeersOwn.add (h : PeersOwn fds t) (fd : Nat → Int) (ip_addr port : Str) :
    PeersOwn fds (add_peer fd t ip_addr port) where
  mem_iff socket_fd peer_id address port := by
    rw [h.mem_iff, add_peer]
    simp [create_peer, or_and_right, exists_or]
  nodup := by
    rw [add_peer, List.map_append, List.nodup_append]
    refine ⟨h.nodup, List.nodup_singleton _, ?_⟩
    rintro a ha b hb rfl
    obtain ⟨peer, hpeer, rfl⟩ := List.mem_map.mp ha
    have hlt := h.fresh peer hpeer
    have hsame : peer.peer_id = t.peer_id := by simpa [create_peer] using hb
    omega
  fresh peer hpeer := by
    rcases List.mem_append.mp hpeer with hpeer | hpeer
    · exact Nat.lt_succ_of_lt (h.fresh peer hpeer)
    · rw [List.mem_singleton.mp hpeer]
      exact Nat.lt_succ_self _

/-- Elements of a list with one of them replaced that did not count before. -/
theorem exists_mem_set {α : Type} {P : α → Prop} {l : List α} {i : Nat} {x : α} (y : α)
    (hx : l[i]? = some x) (hnot : ¬ P x) : (∃ z ∈ l.set i y, P z) ↔ P y ∨ ∃ z ∈ l, P z := by
  constructor
  · rintro ⟨z, hz, hP⟩
    rcases List.mem_or_eq_of_mem_set hz with hz | rfl
    · exact Or.inr ⟨z, hz, hP⟩
    · exact Or.inl hP
  · rintro (hP | ⟨z, hz, hP⟩)
    · obtain ⟨hi, -⟩ := List.getElem?_eq_some_iff.mp hx
      exact ⟨y, List.mem_set hi y, hP⟩
    · obtain ⟨j, hj⟩ := List.mem_iff_getElem?.mp hz
      have hne : i ≠ j := by
        rintro rfl
        cases hx.symm.trans hj
        exact hnot hP
      refine ⟨z, List.mem_iff_getElem?.mpr ⟨j, ?_⟩, hP⟩
      rw [List.getElem?_set_ne hne, hj]

/-- **A connection is made, or not.**  What is new among the connections to peers is that of
this peer. -/
theorem PeersOwn.connect {fds' : List (Int × Remote)} {i : Nat} {to_con : peer_o} {res : Int}
    (h : PeersOwn fds t) (hi : t.peer_list[i]? = some to_con) (hclosed : to_con.open_con = false)
    (hmem : ∀ socket_fd peer_id address port, (socket_fd, .peer peer_id address port) ∈ fds' ↔
      (socket_fd, .peer peer_id address port) ∈ fds ∨
        res = socket_fd ∧ res ≠ -1 ∧ peer_remote to_con = .peer peer_id address port) :
    PeersOwn fds' { t with peer_list := t.peer_list.set i (connect_to_peer res to_con) } where
  mem_iff socket_fd peer_id address port := by
    rw [hmem, h.mem_iff, exists_mem_set _ hi (by simp [hclosed]), Or.comm]
    simp [connect_to_peer, peer_remote]
  nodup := by
    obtain ⟨hlt, rfl⟩ := List.getElem?_eq_some_iff.mp hi
    have hlt' : i < (t.peer_list.map (·.peer_id)).length := by rwa [List.length_map]
    have hsame : (connect_to_peer res t.peer_list[i]).peer_id =
        (t.peer_list.map (·.peer_id))[i] := by rw [List.getElem_map, connect_to_peer]
    rw [List.map_set, hsame, List.set_getElem_self]
    exact h.nodup
  fresh peer hpeer := by
    rcases List.mem_or_eq_of_mem_set hpeer with hpeer | rfl
    · exact h.fresh peer hpeer
    · exact h.fresh to_con (List.mem_of_getElem? hi)

/-- What `connect_to_host` opens. -/
structure Dialled (fds : List (Int × Remote)) (peer : peer_o)
    (r : List (Int × Remote) × Int) : Prop where
  opened : OpenOnce r.1
  peers : ∀ socket_fd peer_id address port, (socket_fd, .peer peer_id address port) ∈ r.1 ↔
    (socket_fd, .peer peer_id address port) ∈ fds ∨
      r.2 = socket_fd ∧ r.2 ≠ -1 ∧ peer_remote peer = .peer peer_id address port
  accepted : ∀ socket_fd client_id, (socket_fd, .accepted client_id) ∈ r.1 ↔
    (socket_fd, .accepted client_id) ∈ fds

theorem dial_dialled (h : OpenOnce fds) (peer : peer_o) (o : ConnectOutcome) :
    Dialled fds peer (dial fds peer o) := by
  cases o with
  | getaddrinfo_failed => exact ⟨h, by simp [dial], by simp [dial]⟩
  | socket_failed => exact ⟨h, by simp [dial], by simp [dial]⟩
  | connect_failed m =>
    exact ⟨h.new m _, by simp [dial, mem_open_fd], by simp [dial, mem_open_fd]⟩
  | connected m =>
    have hne := (h.new m (peer_remote peer)).ne_neg_one (mem_open_fd.mpr (Or.inr rfl))
    refine ⟨h.new m _, ?_, ?_⟩
    · intro socket_fd peer_id address port
      rw [dial, mem_open_fd, Prod.ext_iff, eq_comm (b := m.pick _),
        eq_comm (b := peer_remote peer)]
      simp [hne]
    · simp [dial, mem_open_fd, peer_remote]

end Peers

section Handlers
variable {fds : List (Int × Remote)} {handlers : List client_o}

/-- Descriptors of other kinds do not matter to the threads of the clients. -/
theorem HandlersOwn.congr {fds' : List (Int × Remote)} (h : HandlersOwn fds handlers)
    (hsame : ∀ socket_fd client_id, (socket_fd, .accepted client_id) ∈ fds' ↔
      (socket_fd, .accepted client_id) ∈ fds) : HandlersOwn fds' handlers where
  mem_iff socket_fd client_id := by rw [hsame, h.mem_iff]
  numbered := h.numbered

/-- The thread of a client has its connection as long as it is there. -/
theorem HandlersOwn.connected (h : HandlersOwn fds handlers) {j : Nat} {client : client_o}
    (hj : handlers[j]? = some client) (hopen : client.open_con = true) :
    (client.socket_fd, .accepted client.client_id) ∈ fds := by
  rw [h.numbered j client hj]
  exact (h.mem_iff _ _).mpr ⟨client, hj, hopen, rfl⟩

theorem HandlersOwn.use (h : HandlersOwn fds handlers) (hopened : OpenOnce fds) {j : Nat}
    {client : client_o} (hj : handlers[j]? = some client) (hopen : client.open_con = true) :
    (use_client fds client).Own :=
  Or.inl (remote_of_of_mem hopened (h.connected hj hopen))

/-- A new thread with a new connection. -/
theorem HandlersOwn.accept (h : HandlersOwn fds handlers) (m : NewSocket) :
    HandlersOwn (open_fd fds m (.accepted handlers.length))
      (handlers ++ [⟨handlers.length, m.pick (fds.map Prod.fst), true⟩]) where
  mem_iff socket_fd client_id := by
    rw [mem_open_fd, h.mem_iff]
    rcases Nat.lt_trichotomy client_id handlers.length with hlt | rfl | hgt
    · rw [List.getElem?_append_left hlt]
      simp [hlt.ne]
    · rw [List.getElem?_concat_length, List.getElem?_eq_none le_rfl]
      constructor
      · rintro (⟨client, hnone, -⟩ | hnew)
        · cases hnone
        · cases hnew
          exact ⟨_, rfl, rfl, rfl⟩
      · rintro ⟨client, hnew, -, rfl⟩
        cases hnew
        exact Or.inr rfl
    · have hlen : (handlers ++ [(⟨handlers.length, m.pick (fds.map Prod.fst), true⟩ :
          client_o)]).length ≤ client_id := by
        rw [List.length_append]
        exact hgt
      rw [List.getElem?_eq_none hgt.le, List.getElem?_eq_none hlen]
      simp [hgt.ne']
  numbered j client hj := by
    rcases Nat.lt_trichotomy j handlers.length with hlt | rfl | hgt
    · rw [List.getElem?_append_left hlt] at hj
      exact h.numbered j client hj
    · rw [List.getElem?_concat_length, Option.some.injEq] at hj
      rw [← hj]
    · rw [List.getElem?_eq_none (by rw [List.length_append]; exact hgt)] at hj
      cases hj

/-- A thread that ends closes its own connection and no other. -/
theorem HandlersOwn.hang_up (h : HandlersOwn fds handlers) (hopened : OpenOnce fds) {j : Nat}
    {client : client_o} (hj : handlers[j]? = some client) (hopen : client.open_con = true) :
    HandlersOwn (close_fd fds client.socket_fd)
      (handlers.set j { client with socket_fd := -1, open_con := false }) where
  mem_iff socket_fd client_id := by
    obtain ⟨hlt, -⟩ := List.getElem?_eq_some_iff.mp hj
    have hown := h.connected hj hopen
    rw [mem_close_fd, h.mem_iff]
    by_cases hid : client_id = j
    · subst hid
      rw [List.getElem?_set_self hlt, hj]
      constructor
      · rintro ⟨⟨_, hsame, -, hfd⟩, hne⟩
        cases hsame
        exact absurd hfd.symm hne
      · rintro ⟨_, hended, hstill, -⟩
        cases hended
        cases hstill
    · rw [List.getElem?_set_ne (Ne.symm hid), and_iff_left_iff_imp]
      rintro hother rfl
      have hsame := hopened.unique ((h.mem_iff _ _).mpr hother) hown
      rw [Remote.accepted.injEq, h.numbered j client hj] at hsame
      exact hid hsame
  numbered k other hk := by
    by_cases hid : k = j
    · subst hid
      obtain ⟨hlt, -⟩ := List.getElem?_eq_some_iff.mp hj
      rw [List.getElem?_set_self hlt, Option.some.injEq] at hk
      rw [← hk]
      exact h.numbered k client hj
    · rw [List.getElem?_set_ne (Ne.symm hid)] at hk
      exact h.numbered k other hk

end Handlers

/-! ## Runs -/

section Runs
variable (fd : Nat → Int)

/-- The descriptor of a thread is not that of a peer. -/
theorem OwnsDescriptors.accepted_ne {s : ClientProcess} (h : OwnsDescriptors s) {socket_fd : Int}
    {client_id : Nat} (hmem : (socket_fd, .accepted client_id) ∈ s.fds) {peer : peer_o}
    (hpeer : peer ∈ s.peers.peer_list) (hopen : peer.open_con = true) :
    socket_fd ≠ peer.socket_fd := by
  rintro rfl
  have hne := h.opened.ne_neg_one hmem
  have hsame := h.opened.unique hmem (h.peers.connected hpeer hopen hne)
  cases hsame

/-- The descriptor of a peer is not that of a thread. -/
theorem OwnsDescriptors.peer_ne {s : ClientProcess} (h : OwnsDescriptors s) {socket_fd : Int}
    {peer_id : Nat} {address port : Str} (hmem : (socket_fd, .peer peer_id address port) ∈ s.fds)
    {j : Nat} {client : client_o} (hj : s.handlers[j]? = some client)
    (hopen : client.open_con = true) : socket_fd ≠ client.socket_fd := by
  rintro rfl
  have hsame := h.opened.unique hmem (h.handlers.connected hj hopen)
  cases hsame

/-- **One step of any thread** leaves every descriptor with its owner, and uses its own. -/
theorem process_step_owns {s : ClientProcess} (h : OwnsDescriptors s) (i : ProcessInput) :
    OwnsDescriptors (process_step fd s i).1 ∧ ∀ u ∈ (process_step fd s i).2, u.Own := by
  obtain ⟨hopened, hpeers, hhandlers⟩ := h
  have h : OwnsDescriptors s := ⟨hopened, hpeers, hhandlers⟩
  cases i with
  | clean =>
    have hcleaned := clean_loop_cleaned hopened
      (fun peer hpeer hopen hfd => hpeers.connected hpeer hopen hfd) hpeers.nodup
    refine ⟨⟨hcleaned.opened, hpeers.clean hcleaned, ?_⟩, hcleaned.own⟩
    refine hhandlers.congr fun socket_fd client_id => ?_
    rw [process_step, hcleaned.mem_iff, and_iff_left_iff_imp]
    intro hmem peer hpeer hopen
    exact h.accepted_ne hmem hpeer hopen
  | add entry =>
    exact ⟨⟨hopened, hpeers.add fd entry.1 entry.2, hhandlers⟩, List.forall_mem_nil _⟩
  | connect j o =>
    cases hj : s.peers.peer_list[j]? with
    | none =>
      rw [process_step, hj]
      exact ⟨h, List.forall_mem_nil _⟩
    | some to_con =>
      cases hopen : to_con.open_con with
      | true =>
        rw [process_step, hj]
        simp only [hopen, if_true]
        exact ⟨h, List.forall_mem_nil _⟩
      | false =>
        have hdial := dial_dialled hopened to_con o
        rw [process_step, hj]
        simp only [hopen, Bool.false_eq_true, if_false]
        exact ⟨⟨hdial.opened, hpeers.connect hj hopen hdial.peers,
          hhandlers.congr hdial.accepted⟩, List.forall_mem_nil _⟩
  | broadcast =>
    refine ⟨h, fun u hu => ?_⟩
    obtain ⟨peer, hpeer, rfl⟩ := List.mem_map.mp hu
    obtain ⟨hmem, hopen⟩ := List.mem_filter.mp hpeer
    exact use_peer_own hopened (hpeers.connected hmem hopen)
  | accept m =>
    refine ⟨⟨hopened.new m _, hpeers.congr ?_, hhandlers.accept m⟩, List.forall_mem_nil _⟩
    simp [process_step, mem_open_fd]
  | receive j =>
    cases hj : s.handlers[j]? with
    | none =>
      rw [process_step, hj]
      exact ⟨h, List.forall_mem_nil _⟩
    | some client =>
      rw [process_step, hj]
      refine ⟨h, ?_⟩
      cases hopen : client.open_con with
      | true => simpa [hopen] using hhandlers.use hopened hj hopen
      | false => simp [hopen]
  | hang_up j =>
    cases hj : s.handlers[j]? with
    | none =>
      rw [process_step, hj]
      exact ⟨h, List.forall_mem_nil _⟩
    | some client =>
      cases hopen : client.open_con with
      | true =>
        rw [process_step, hj]
        simp only [hopen, if_true]
        refine ⟨⟨hopened.close _, hpeers.congr ?_, hhandlers.hang_up hopened hj hopen⟩, ?_⟩
        · intro socket_fd peer_id address port
          rw [mem_close_fd, and_iff_left_iff_imp]
          exact fun hmem => h.peer_ne hmem hj hopen
        · simpa using hhandlers.use hopened hj hopen
      | false =>
        rw [process_step, hj]
        simp only [hopen, Bool.false_eq_true, if_false]
        exact ⟨h, List.forall_mem_nil _⟩
  | open_other m =>
    refine ⟨⟨hopened.new m _, hpeers.congr ?_, hhandlers.congr ?_⟩, List.forall_mem_nil _⟩
    · simp [process_step, mem_open_fd]
    · simp [process_step, mem_open_fd]

/-- Before the first connection nobody owns anything. -/
theorem no_connections_owns {others : List Int} (hnodup : others.Nodup)
    (hnonneg : ∀ other ∈ others, 0 ≤ other) : OwnsDescriptors (no_connections others) where
  opened := by
    refine ⟨?_, ?_⟩
    · simpa [no_connections, Function.comp_def] using hnodup
    · simpa [no_connections] using hnonneg
  peers := ⟨by simp [no_connections], by simp [no_connections], by simp [no_connections]⟩
  handlers := ⟨by simp [no_connections], by simp [no_connections]⟩

/-- **Nobody touches the connection of somebody else.**  Whatever order the threads of a client
run in and whatever fails, `recv`, `send` and `close` are called with the descriptor of the
caller's own connection, open at that time, or with -1; and every connection that is open is
that of exactly the peer or thread that keeps its descriptor. -/
theorem descriptors_owned {others : List Int} (hnodup : others.Nodup)
    (hnonneg : ∀ other ∈ others, 0 ≤ other) (is : List ProcessInput) :
    (∀ u ∈ (exec (process_step fd) (no_connections others) is).2, u.Own) ∧
      OwnsDescriptors (exec (process_step fd) (no_connections others) is).1 := by
  refine exec_invariant (process_step fd) (fun s uses => (∀ u ∈ uses, u.Own) ∧ OwnsDescriptors s)
    ⟨List.forall_mem_nil _, no_connections_owns hnodup hnonneg⟩ ?_ is
  rintro s uses i ⟨hown, hs⟩
  obtain ⟨hs', hown'⟩ := process_step_owns fd hs i
  exact ⟨List.forall_mem_append.mpr ⟨hown, hown'⟩, hs'⟩

end Runs

/-- A thread ends while the name server's thread connects to the peer `1:2`: the descriptor 3 is
given out twice. -/
def descriptor_reused : List ProcessInput :=
  [.accept next_socket, .receive 0, .hang_up 0, .add ([49], [50]),
    .connect 0 (.connected next_socket), .receive 0, .broadcast, .clean, .broadcast]

/-- Each of the two uses it as long as it is its own. -/
theorem descriptors_owned_reused :
    (exec (process_step fun _ => 3) (no_connections [0, 1, 2]) descriptor_reused).2 =
        [⟨.accepted 0, 3, some (.accepted 0)⟩, ⟨.accepted 0, 3, some (.accepted 0)⟩,
          ⟨.peer 0 [49] [50], 3, some (.peer 0 [49] [50])⟩,
          ⟨.peer 0 [49] [50], 3, some (.peer 0 [49] [50])⟩] ∧
      (∀ u ∈ (exec (process_step fun _ => 3) (no_connections [0, 1, 2]) descriptor_reused).2,
        u.Own) ∧
      OwnsDescriptors (exec (process_step fun _ => 3) (no_connections [0, 1, 2])
        descriptor_reused).1 := by
  refine ⟨by decide, descriptors_owned (fun _ => 3) (by decide) (by decide) descriptor_reused⟩

end AnonyChat
