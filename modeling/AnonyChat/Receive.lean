import AnonyChat.Lib.RecvLoop
import AnonyChat.Fields

/-! # The receive loops

Four threads read from a connection until it is closed: in a client one for each incoming
connection, one for the name server and one for each peer, and in the name server one for
each client.  All four test the result of `recv` against 0 only, so an error is handled
like a message of length -1: the terminator is written before the buffer, and the text of
the last message is processed once more, for as long as `recv` fails
(`receive_loops_iff`).
-/
namespace AnonyChat
open CString RecvLoop

/-! ## A client's connections from other clients -/

/-- `client_o`, without its thread and its socket address. -/
structure client_o where
  client_id : Nat
  socket_fd : Int
  open_con : Bool
  deriving DecidableEq, Repr

/-- The thread of `client_handle` in a client: the process, the connection, the list of
clients and the sockets the thread has closed. -/
structure ClientThread (evp : EVP) (Conn : Type) where
  node : ClientState evp Conn
  client : client_o
  client_list : List Conn
  closed : List Int

section Client
variable {evp : EVP} {Conn : Type} [DecidableEq Conn]

/-- The thread at its start: nothing is ever added to the list of clients. -/
def client_thread (node : ClientState evp Conn) (client : client_o) : ClientThread evp Conn :=
  ⟨node, client, [], []⟩

/-- A turn of the loop ends when the process outlives it. -/
def ClientThread.outlive (s : ClientThread evp Conn) (node : ClientState evp Conn)
    (buffer : List UInt8) : Option (ClientThread evp Conn × List UInt8) :=
  if node.fault = none then some ({ s with node := node }, buffer) else none

/-- One turn of the loop of `client_handle`. -/
def client_turn (c : Conn) (w : World evp) (s : ClientThread evp Conn) (buffer : List UInt8)
    (res : Int) : Option (ClientThread evp Conn × List UInt8) :=
  if res < 0 then
    let node := { s.node with buffer := Function.update s.node.buffer c (cstr buffer) }
    -- the text of the last message is parsed again; what a `send` of -1 bytes does is not known
    if client_has_seen_msg (node.mem w) node.message_hash_table (.recv c) ||
        node.peer_list.all (!·.open_con) then
      s.outlive (client_parse_msg node w c 0).1 buffer
    else none
  else s.outlive (client_handle s.node w c (buffer.take res.toNat)).1 buffer

/-- `client_handle` behind its loop. -/
def client_cleanup (c : Conn) (s : ClientThread evp Conn) : ClientThread evp Conn where
  node := s.node
  closed := s.closed ++ [s.client.socket_fd]
  client := { s.client with socket_fd := -1, open_con := false }
  client_list := s.client_list.erase c

/-- `client_handle` of a client. -/
def client_handle_thread (c : Conn) (s : ClientThread evp Conn) (buffer : List UInt8)
    (results : List (World evp × Result BUFFER_SIZE)) : Run (ClientThread evp Conn) :=
  handle (client_turn c) (client_cleanup c) s buffer results

/-- The process outlives the message: it was seen before, or none of its fields is missing. -/
def Outlives (c : Conn) (w : World evp) (s : ClientThread evp Conn) (bytes : List UInt8) : Prop :=
  s.node.fault = none ∧
    (Recognised s.node w c (cstr bytes) ∨ ∃ m, parse_str_encrypted_msg (cstr bytes) = .ok m)

/-- The thread after a message. -/
def client_next (c : Conn) (w : World evp) (s : ClientThread evp Conn) (bytes : List UInt8) :
    ClientThread evp Conn :=
  { s with node := (client_handle s.node w c bytes).1 }

theorem client_handle_fault_iff (s : ClientThread evp Conn) (w : World evp) (c : Conn)
    (bytes : List UInt8) :
    (client_handle s.node w c bytes).1.fault = none ↔ Outlives c w s bytes := by
  rcases client_handle_cases s.node w c bytes with ⟨hrec, h⟩ | ⟨hrec, ctx, texts, h⟩
  · rw [h, Outlives]
    simp only [hrec, true_or, and_true]
  · rw [h, Outlives]
    simp only [hrec, false_or, accepted, fault_after]
    cases hparse : parse_str_encrypted_msg (cstr bytes) with
    | error f => simp
    | ok m => simp

theorem client_turn_behaves (c : Conn) :
    Behaves (Outlives c) (client_next c) (client_turn c : World evp → _) := by
  have hturn : ∀ (w : World evp) (s : ClientThread evp Conn) bytes behind,
      client_turn c w s (bytes ++ 0 :: behind) bytes.length =
        s.outlive (client_handle s.node w c bytes).1 (bytes ++ 0 :: behind) := by
    intro w s bytes behind
    rw [client_turn, if_neg (Int.not_lt.mpr (Int.natCast_nonneg _)), Int.toNat_natCast,
      List.take_left]
  constructor
  · intro w s bytes behind hready
    rw [hturn, ClientThread.outlive, if_pos ((client_handle_fault_iff s w c bytes).mpr hready)]
    exact ⟨_, rfl⟩
  · intro w s bytes behind hready
    rw [hturn, ClientThread.outlive, if_neg (mt (client_handle_fault_iff s w c bytes).mp hready)]

end Client

/-! ## A client's connection to the name server -/

/-- `name_server_o`, without its address, its port and its thread. -/
structure name_server_o where
  socket_fd : Int
  open_con : Bool
  deriving DecidableEq, Repr

/-- The thread of `name_server_handle`: the peers and the connection. -/
structure NameServerThread where
  peers : Peers
  name_server : name_server_o
  deriving DecidableEq, Repr

/-- What the surroundings supply to a turn: the socket field of a new peer, and what the
connection to the peer at an index returns. -/
structure Refresh where
  fd : Nat → Int
  sock : Nat → Int

/-- The peers after a text from the name server, `none` when `parse_peers` does not come
back. -/
def refresh_peers (w : Refresh) (peers : Peers) (text : Str) : Option Peers :=
  if str_starts_with text PEERS then
    let peer_msg := text.drop PEERS.length
    (parse_peers w.fd (peer_msg.length + 2) peers peer_msg).map fun r =>
      { r.2 with peer_list := (connect_to_peers w.sock r.2.peer_list).1 }
  else some peers

/-- What the text reads as afterwards: the calls of `strtok_r` and `strtok` cut it off behind
the first address. -/
def text_after (text : Str) : Str :=
  if str_starts_with text PEERS then
    let peer_msg := text.drop PEERS.length
    PEERS ++ ((peer_msg.takeWhile fun c => space.contains c) ++
      strtok_head ((strtok_r peer_msg space).1.getD []) colon)
  else text

/-- One turn of the loop of `name_server_handle`. -/
def name_server_turn (w : Refresh) (s : NameServerThread) (buffer : List UInt8) (_res : Int) :
    Option (NameServerThread × List UInt8) :=
  (refresh_peers w s.peers (cstr buffer)).map fun peers =>
    ({ s with peers := peers }, text_after (cstr buffer))

/-- `name_server_handle` behind its loop.  The socket is the one of `main`, which ends the
process when this thread has ended. -/
def name_server_cleanup (s : NameServerThread) : NameServerThread :=
  { s with name_server := ⟨-1, false⟩ }

/-- `name_server_handle`. -/
def name_server_handle_thread (s : NameServerThread) (buffer : List UInt8)
    (results : List (Refresh × Result BUFFER_SIZE)) : Run NameServerThread :=
  handle name_server_turn name_server_cleanup s buffer results

/-- A list of peers has complete entries only. -/
def ListsPeers (_w : Refresh) (_s : NameServerThread) (bytes : List UInt8) : Prop :=
  str_starts_with (cstr bytes) PEERS = true →
    ∀ tok ∈ tokens ((cstr bytes).drop PEERS.length) space, Complete tok

/-- The thread after a message. -/
def name_server_next (w : Refresh) (s : NameServerThread) (bytes : List UInt8) :
    NameServerThread :=
  { s with peers := (refresh_peers w s.peers (cstr bytes)).getD s.peers }

theorem refresh_peers_isSome_iff (w : Refresh) (s : NameServerThread) (bytes : List UInt8) :
    (refresh_peers w s.peers (cstr bytes)).isSome ↔ ListsPeers w s bytes := by
  rw [refresh_peers, ListsPeers]
  by_cases hpeers : str_starts_with (cstr bytes) PEERS = true
  · rw [if_pos hpeers, Option.isSome_map, forall_prop_of_true hpeers,
      ← returns_iff w.fd s.peers ((cstr bytes).drop PEERS.length)]
    exact parse_peers_isSome_iff (Nat.le_refl _)
  · rw [if_neg hpeers]
    exact iff_of_true rfl fun h => absurd h hpeers

theorem name_server_turn_behaves : Behaves ListsPeers name_server_next name_server_turn := by
  constructor
  · intro w s bytes behind hready
    obtain ⟨peers, hpeers⟩ :=
      Option.isSome_iff_exists.mp ((refresh_peers_isSome_iff w s bytes).mpr hready)
    rw [name_server_turn, name_server_next, cstr_append_cons_nul, hpeers]
    exact ⟨_, rfl⟩
  · intro w s bytes behind hready
    have hnone := mt (refresh_peers_isSome_iff w s bytes).mp hready
    rw [Option.not_isSome_iff_eq_none] at hnone
    rw [name_server_turn, cstr_append_cons_nul, hnone]
    rfl

/-! ## A client's connections to its peers -/

/-- `PEER_PUB_KEY_MSG`. -/
def PEER_PUB_KEY_MSG : Str := [80, 85, 66, 75, 69, 89, 32]

/-- The thread of `peer_handle`: the peer and its key, `none` for NULL. -/
structure PeerThread (Key : Type) where
  peer : peer_o
  public_key : Option Key
  deriving DecidableEq, Repr

section Peer
variable {Key : Type} (copy_parameters : List UInt8 → Key)

/-- `client_parse_public_key`, with the key that OpenSSL makes of the bytes. -/
def client_parse_public_key (encoded_key : Str) : Option Key :=
  if Base64decode_ret encoded_key < 1 then none
  else some (copy_parameters (Base64decode encoded_key))

/-- One turn of the loop of `peer_handle`. -/
def peer_turn (_w : Unit) (s : PeerThread Key) (buffer : List UInt8) (_res : Int) :
    Option (PeerThread Key × List UInt8) :=
  let text := cstr buffer
  if str_starts_with text PEER_PUB_KEY_MSG then
    let encoded_key := text.drop PEER_PUB_KEY_MSG.length
    some ({ s with public_key := client_parse_public_key copy_parameters encoded_key }, buffer)
  else some (s, buffer)

/-- `peer_handle`.  The socket is the one of the peer list. -/
def peer_handle_thread (s : PeerThread Key) (buffer : List UInt8)
    (results : List (Unit × Result BUFFER_SIZE)) : Run (PeerThread Key) :=
  handle (peer_turn copy_parameters) id s buffer results

/-- The thread after a message. -/
def peer_next (_w : Unit) (s : PeerThread Key) (bytes : List UInt8) : PeerThread Key :=
  if str_starts_with (cstr bytes) PEER_PUB_KEY_MSG then
    { s with public_key :=
        client_parse_public_key copy_parameters ((cstr bytes).drop PEER_PUB_KEY_MSG.length) }
  else s

theorem peer_turn_behaves :
    Behaves (fun _ _ _ => True) (peer_next copy_parameters) (peer_turn copy_parameters) := by
  constructor
  · intro w s bytes behind _
    rw [peer_turn, peer_next, cstr_append_cons_nul]
    split
    · exact ⟨_, rfl⟩
    · exact ⟨_, rfl⟩
  · intro w s bytes behind hready
    exact absurd trivial hready

end Peer

/-! ## The name server's connections -/

/-- What the surroundings supply to a call of `manage_graph`. -/
structure Round where
  fuel : Nat
  deref : Nat → client
  malloc : Nat → Nat → Malloc Nat
  rand : Nat → Nat
  heap : Linked.Heap Nat

/-- The call. -/
def Round.manage_graph (w : Round) (client_list : List Nat) : Except Stuck (List Visit) :=
  AnonyChat.manage_graph w.fuel w.deref w.malloc w.rand w.heap client_list

/-- The thread of `client_handle` in the name server: the list of clients, the socket and the
port of its own, what it sent to whom, and the sockets closed and the clients freed. -/
structure ServerThread where
  client_list : List Nat
  socket_fd : Int
  port : Block NI_MAXSERV
  visits : List Visit
  closed : List Int
  freed : List Nat

/-- The thread in front of its loop: the client is in the list. -/
def server_thread (client_list : List Nat) (client_o : Nat) (socket_fd : Int)
    (port : Block NI_MAXSERV) : ServerThread :=
  ⟨client_list ++ [client_o], socket_fd, port, [], [], []⟩

/-- A `PORTUPD` without a port makes the loop go on at once. -/
def ignored (buffer : Str) : Bool :=
  !str_starts_with buffer PEERREQ && str_starts_with buffer PORTUPD &&
    (strtok_r (strtok_r buffer space).2 space).1.isNone

/-- One turn of the loop of `client_handle`. -/
def server_turn (w : Round) (s : ServerThread) (buffer : List UInt8) (_res : Int) :
    Option (ServerThread × List UInt8) :=
  if ignored (cstr buffer) then some (s, strtok_head (cstr buffer) space)
  else
    match client_handle_port s.port buffer, w.manage_graph s.client_list with
    | .ok port, .ok visits =>
      some ({ s with port := port, visits := s.visits ++ visits },
        List.replicate (SERVER_MAX_MESSAGE + 1) 0)
    | _, _ => none

/-- `client_handle` behind its loop. -/
def server_cleanup (client_o : Nat) (s : ServerThread) : ServerThread :=
  { s with client_list := s.client_list.erase client_o
           closed := s.closed ++ [s.socket_fd]
           freed := s.freed ++ [client_o] }

/-- `client_handle` of the name server. -/
def server_handle_thread (client_o : Nat) (s : ServerThread) (buffer : List UInt8)
    (results : List (Round × Result SERVER_MAX_MESSAGE)) : Run ServerThread :=
  handle server_turn (server_cleanup client_o) s buffer results

/-- The call of `manage_graph`, where there is one, comes back. -/
def RoundReturns (w : Round) (s : ServerThread) (bytes : List UInt8) : Prop :=
  ignored (cstr bytes) = false → (w.manage_graph s.client_list).isOk = true

/-- The thread after a message. -/
def server_next (w : Round) (s : ServerThread) (bytes : List UInt8) : ServerThread :=
  if ignored (cstr bytes) then s
  else
    { s with port := (client_handle_port s.port bytes).toOption.getD s.port
             visits := s.visits ++ (w.manage_graph s.client_list).toOption.getD [] }

/-- The port always fits: `strncpy` writes the size of the field. -/
theorem client_handle_port_ok (port : Block NI_MAXSERV) (message : List UInt8) :
    ∃ port', client_handle_port port message = .ok port' := by
  rw [client_handle_port_eq]
  cases new_port message with
  | none => exact ⟨port, rfl⟩
  | some tok =>
    obtain ⟨port', hport, -⟩ := Block.strncpy_full (b := port) tok
    exact ⟨port', hport⟩

theorem client_handle_port_append (port : Block NI_MAXSERV) (bytes behind : List UInt8) :
    client_handle_port port (bytes ++ 0 :: behind) = client_handle_port port bytes := by
  rw [client_handle_port, client_handle_port, cstr_append_cons_nul]

theorem server_turn_behaves : Behaves RoundReturns server_next server_turn := by
  constructor
  · intro w s bytes behind hready
    rw [server_turn, server_next, cstr_append_cons_nul, client_handle_port_append]
    by_cases hignored : ignored (cstr bytes) = true
    · rw [if_pos hignored, if_pos hignored]
      exact ⟨_, rfl⟩
    · have hok := hready (Bool.not_eq_true _ ▸ hignored)
      obtain ⟨port, hport⟩ := client_handle_port_ok s.port bytes
      rw [if_neg hignored, if_neg hignored, hport]
      cases hgraph : w.manage_graph s.client_list with
      | error stuck => rw [hgraph] at hok; cases hok
      | ok visits => exact ⟨_, rfl⟩
  · intro w s bytes behind hready
    obtain ⟨hignored, hok⟩ := Classical.not_imp.mp hready
    rw [server_turn, cstr_append_cons_nul, hignored]
    cases hgraph : w.manage_graph s.client_list with
    | error stuck => cases client_handle_port s.port (bytes ++ 0 :: behind) <;> rfl
    | ok visits => rw [hgraph] at hok; exact absurd rfl hok

/-! ## All four -/

/-- What is left of a connection in a client: it is not in the list, and its socket is
closed. -/
def ClientGone {evp : EVP} {Conn : Type} (c : Conn) (socket_fd : Int)
    (s : ClientThread evp Conn) : Prop :=
  c ∉ s.client_list ∧ socket_fd ∈ s.closed ∧ s.client.socket_fd = -1 ∧ s.client.open_con = false

/-- What is left of the connection to the name server. -/
def NameServerGone (s : NameServerThread) : Prop :=
  s.name_server.socket_fd = -1 ∧ s.name_server.open_con = false

/-- A peer stays in the peer list, with its socket. -/
def PeerKept {Key : Type} (peer : peer_o) (s : PeerThread Key) : Prop := s.peer = peer

/-- What is left of a connection in the name server. -/
def ServerGone (client_o : Nat) (socket_fd : Int) (s : ServerThread) : Prop :=
  client_o ∉ s.client_list ∧ socket_fd ∈ s.closed ∧ client_o ∈ s.freed

section Handlers
variable {evp : EVP} {Conn Key : Type} [DecidableEq Conn]

theorem client_handle_thread_iff (c : Conn) (node : ClientState evp Conn) (client : client_o)
    (buffer : List UInt8) (results : List (World evp × Result BUFFER_SIZE)) :
    Handled (results.map Prod.snd) (ClientGone c client.socket_fd)
        (client_handle_thread c (client_thread node client) buffer results) ↔
      Closes (Outlives c) (client_next c) (client_thread node client) results := by
  have hkept : ∀ (s : ClientThread evp Conn) node buffer s' buffer',
      s.outlive node buffer = some (s', buffer') → s' = { s with node := node } := by
    intro s node buffer s' buffer' h
    rw [ClientThread.outlive] at h
    split at h
    · cases h
      rfl
    · cases h
  refine handled_iff (client_turn_behaves c)
    (fun s => s.client_list = [] ∧ s.client.socket_fd = client.socket_fd) ?_ ?_ ⟨rfl, rfl⟩
    buffer results
  · intro w s buffer i s' buffer' hinv h
    simp only [client_turn] at h
    split at h
    · split at h
      · rw [hkept _ _ _ _ _ h]
        exact hinv
      · cases h
    · rw [hkept _ _ _ _ _ h]
      exact hinv
  · intro s hinv
    obtain ⟨hlist, hfd⟩ := hinv
    refine ⟨?_, ?_, rfl, rfl⟩
    · rw [client_cleanup, hlist]
      exact List.not_mem_nil
    · rw [client_cleanup, hfd]
      exact List.mem_append_right _ (List.mem_singleton_self _)

theorem name_server_handle_thread_iff (s : NameServerThread) (buffer : List UInt8)
    (results : List (Refresh × Result BUFFER_SIZE)) :
    Handled (results.map Prod.snd) NameServerGone (name_server_handle_thread s buffer results) ↔
      Closes ListsPeers name_server_next s results :=
  handled_iff name_server_turn_behaves (fun _ => True) (fun _ _ _ _ _ _ _ _ => trivial)
    (fun _ _ => ⟨rfl, rfl⟩) trivial buffer results

theorem peer_handle_thread_iff (copy_parameters : List UInt8 → Key) (s : PeerThread Key)
    (buffer : List UInt8) (results : List (Unit × Result BUFFER_SIZE)) :
    Handled (results.map Prod.snd) (PeerKept s.peer)
        (peer_handle_thread copy_parameters s buffer results) ↔
      Closes (fun _ _ _ => True) (peer_next copy_parameters) s results := by
  refine handled_iff (peer_turn_behaves copy_parameters) (PeerKept s.peer) ?_
    (fun _ h => h) rfl buffer results
  intro w t buffer i t' buffer' hinv h
  simp only [peer_turn] at h
  split at h
  · cases h
    exact hinv
  · cases h
    exact hinv

theorem server_handle_thread_iff {client_list : List Nat} {client_o : Nat}
    (hnew : client_o ∉ client_list) (socket_fd : Int) (port : Block NI_MAXSERV)
    (buffer : List UInt8) (results : List (Round × Result SERVER_MAX_MESSAGE)) :
    Handled (results.map Prod.snd) (ServerGone client_o socket_fd)
        (server_handle_thread client_o (server_thread client_list client_o socket_fd port) buffer
          results) ↔
      Closes RoundReturns server_next (server_thread client_list client_o socket_fd port)
        results := by
  refine handled_iff server_turn_behaves
    (fun s => s.client_list = client_list ++ [client_o] ∧ s.socket_fd = socket_fd)
    ?_ ?_ ⟨rfl, rfl⟩ buffer results
  · intro w s buffer i s' buffer' hinv h
    rw [server_turn] at h
    split at h
    · cases h
      exact hinv
    · split at h
      · cases h
        exact hinv
      · cases h
  · intro s hinv
    obtain ⟨hlist, hfd⟩ := hinv
    refine ⟨?_, ?_, List.mem_append_right _ (List.mem_singleton_self _)⟩
    · rw [server_cleanup, hlist, List.erase_append_right _ hnew]
      simpa using hnew
    · rw [server_cleanup, hfd]
      exact List.mem_append_right _ (List.mem_singleton_self _)

end Handlers

/-! ## Connections that are closed, and that fail -/

/-- A connection of a client. -/
def sample_connection : client_o := ⟨0, 4, true⟩

/-- A connection to the name server. -/
def sample_name_server : NameServerThread := ⟨⟨[], 0, []⟩, ⟨3, true⟩⟩

/-- Connections to peers succeed. -/
def sample_refresh : Refresh := ⟨fun _ => 0, fun _ => 6⟩

/-- A peer. -/
def sample_peer : PeerThread Unit := ⟨⟨0, [49], [50], 5, true⟩, none⟩

/-- One client, in zeroed memory. -/
def sample_round : Round where
  fuel := 4
  deref _ := ⟨4, [49], [50]⟩
  malloc _ _ := next_malloc true
  rand _ := 0
  heap := ∅

/-- A port that was set. -/
def sample_port : Block NI_MAXSERV := Block.fill NI_MAXSERV 0

/-- A connection over which two messages come, and which is closed then. -/
def messages_and_close {W : Type} {size : Nat} (w : W) (first second : List UInt8)
    (hfirst : 0 < first.length ∧ first.length ≤ size)
    (hsecond : 0 < second.length ∧ second.length ≤ size) : List (W × Result size) :=
  [(w, .data first hfirst.1 hfirst.2), (w, .data second hsecond.1 hsecond.2), (w, .close)]

/-- `a a a`, twice. -/
def client_messages : List (World block_evp × Result BUFFER_SIZE) :=
  messages_and_close sample_world [97, 32, 97, 32, 97] [97, 32, 97, 32, 97] (by decide) (by decide)

/-- `PEERS 1:2`, and `OK`. -/
def name_server_messages : List (Refresh × Result BUFFER_SIZE) :=
  messages_and_close sample_refresh [80, 69, 69, 82, 83, 32, 49, 58, 50] [79, 75] (by decide)
    (by decide)

/-- `PUBKEY YQ==`, and `OK`. -/
def peer_messages : List (Unit × Result BUFFER_SIZE) :=
  messages_and_close () [80, 85, 66, 75, 69, 89, 32, 89, 81, 61, 61] [79, 75] (by decide)
    (by decide)

/-- `PORTUPD 5`, and a `PORTUPD` without a port; the graph of two clients takes more steps. -/
def server_messages : List (Round × Result SERVER_MAX_MESSAGE) :=
  messages_and_close { sample_round with fuel := 20 } [80, 79, 82, 84, 85, 80, 68, 32, 53]
    [80, 79, 82, 84, 85, 80, 68] (by decide) (by decide)

/-- A connection that fails, and is closed afterwards. -/
def fails_first {W : Type} (size : Nat) (w : W) : List (W × Result size) :=
  [(w, .error), (w, .close)]

/-- The name server's end of such a connection. -/
def failing_server : Run ServerThread :=
  server_handle_thread 0 (server_thread [] 0 4 sample_port) []
    (fails_first SERVER_MAX_MESSAGE sample_round)

end AnonyChat
