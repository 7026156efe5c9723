import AnonyChat.List
import AnonyChat.Peers
import AnonyChat.Tree

/-! # Distributing peers (`name_server.c`)

`manage_graph` makes a node of every client, shuffles the nodes, connects them with
`combineNodesToGraph`, and then looks for each client's node by a breadth-first search
over the connections, with two linked lists for the queue and for the nodes in sight.
The client is sent the peers that the search ended at, unless there are fewer clients
than a pool, in which case it is sent all the others.

The client list is the sequence of its pointers, and the node made of the client at a
position has that position as its address.  Every call of `malloc` for a list cell is
numbered: by the position of the client that is searched for and, within its search, in
the order of the calls.
-/
namespace AnonyChat
open CString Linked

/-- `client`, without its thread and its socket address. -/
structure client where
  socket_fd : Int
  address : Str
  port : Str
  deriving DecidableEq, Repr

/-- `SERVER_MAX_MESSAGE`. -/
def SERVER_MAX_MESSAGE : Nat := 512

/-- `PEER_POOL_SIZE`. -/
def PEER_POOL_SIZE : Nat := 5

/-- What the calls leave undone is an error. -/
def access {α : Type} : Option α → Except Stuck α
  | some x => .ok x
  | none => .error .invalid_access

/-! ## Messages -/

/-- The four `strncat` calls for one peer. -/
def append_entry (max_msg_size : Nat) (msg : Str) (client_p : client) : Str :=
  strncat (strncat (strncat (strncat msg client_p.address max_msg_size) colon max_msg_size)
    client_p.port max_msg_size) space max_msg_size

section Send
variable (deref : Nat → client) (client_list : List Nat)

/-- `client_peers_static`, `none` for NULL. -/
def client_peers_static (client_o : client) (max_msg_size : Nat) : Option Str :=
  if client_list.length = 1 then none
  else
    some (((client_list.map deref).filter fun client_p =>
      client_p.socket_fd ≠ client_o.socket_fd).foldl (append_entry max_msg_size) []).dropLast

/-- `client_peers_rand`. -/
def client_peers_rand (max_msg_size : Nat) (g : Graph) (graph : Nat) : Except Stuck Str := do
  let connections ← access (edges (g graph))
  return ((connections.map fun u => deref (g u).data).foldl (append_entry max_msg_size) []).dropLast

/-- `client_send_peers`: the message sent, `none` when there is none. -/
def client_send_peers (g : Graph) (client_o : client) (graph : Nat) :
    Except Stuck (Option Str) := do
  let msg := strncat [] PEERS SERVER_MAX_MESSAGE
  let msg_size := SERVER_MAX_MESSAGE - 2 - 6
  if PEER_POOL_SIZE > client_list.length then
    match client_peers_static deref client_list client_o msg_size with
    | none => return none
    | some to_cat => return some (strncat msg to_cat SERVER_MAX_MESSAGE)
  else
    let to_cat ← client_peers_rand deref msg_size g graph
    return some (strncat msg to_cat SERVER_MAX_MESSAGE)

end Send

/-! ## Shuffling -/

/-- Two elements of the array change places. -/
def exchange (randArray : List Nat) (num counter : Nat) : List Nat :=
  (randArray.set num (randArray.getD counter 0)).set counter (randArray.getD num 0)

/-- The shuffle, down from `counter`; `rand counter` is what `rand()` returns in that turn. -/
def shuffle (rand : Nat → Nat) : Nat → List Nat → List Nat
  | 0, randArray => randArray
  | counter + 1, randArray =>
    let num := rand (counter + 1) % (counter + 1)
    shuffle rand counter (exchange randArray num (counter + 1))

/-! ## Searching -/

/-- The memory, the two lists of a search, and the number of cells it has asked for. -/
structure Scan where
  heap : Heap Nat
  queue : list
  sight : list
  calls : Nat

section Search
variable (fuel : Nat) (malloc : Nat → Malloc Nat) (g : Graph)

/-- A node is added to both lists. -/
def enqueue (s : Scan) (u : Nat) : Except Stuck Scan := do
  let (heap, queue) ← list_add s.heap s.queue (malloc s.calls) u
  let (heap, sight) ← list_add heap s.sight (malloc (s.calls + 1)) u
  return ⟨heap, queue, sight, s.calls + 2⟩

/-- The search before its loop. -/
def scan_start (heap : Heap Nat) (graph : Nat) : Except Stuck Scan :=
  enqueue malloc ⟨heap, list_create, list_create, 0⟩ graph

/-- One connection of the node looked at. -/
def scan_edge (s : Scan) (u : Nat) : Except Stuck Scan := do
  if ← list_contains fuel s.heap s.sight u then return s else enqueue malloc s u

/-- The loop: the node looked at last and the state it leaves. -/
def scan_loop (val : Nat) : Nat → Option Nat → Scan → Except Stuck (Option Nat × Scan)
  | 0, _, _ => .error .out_of_fuel
  | turns + 1, target, s =>
    if s.queue.size > 0 then do
      let target ← access (← list_item_at s.heap s.queue 0)
      let (heap, queue, _) ← list_remove fuel s.heap s.queue target
      let s := { s with heap := heap, queue := queue }
      -- `break` leaves the lists as they are
      if (g target).data = val then
        return (some target, s)
      else
        let s ← (← access (edges (g target))).foldlM (scan_edge fuel malloc) s
        scan_loop val turns (some target) s
    else
      return (target, s)

end Search

/-! ## The whole round -/

/-- What a round does for one client: the data of the node its search ended at, and the
message sent to it. -/
structure Visit where
  client : Nat
  target : Nat
  sent : Option Str
  deriving DecidableEq, Repr

section Round
variable (fuel : Nat) (deref : Nat → client) (malloc : Nat → Nat → Malloc Nat)

/-- The loop over the clients, from the one at `pos`. -/
def visit_clients (client_list : List Nat) (g : Graph) (graph : Nat) :
    Nat → List Nat → Heap Nat → Except Stuck (List Visit)
  | _, [], _ => .ok []
  | pos, here :: rest, heap => do
    let s ← scan_start (malloc pos) heap graph
    let (target, s) ← scan_loop fuel (malloc pos) g here fuel none s
    let target ← access target
    let sent ← client_send_peers deref client_list g (deref here) target
    let visits ← visit_clients client_list g graph (pos + 1) rest s.heap
    return ⟨here, (g target).data, sent⟩ :: visits

/-- The nodes of the clients. -/
def client_nodes (client_list : List Nat) : Graph := fun u => createNode (client_list.getD u 0)

/-- `manage_graph`. -/
def manage_graph (rand : Nat → Nat) (heap : Heap Nat) (client_list : List Nat) :
    Except Stuck (List Visit) := do
  let randArray := shuffle rand (client_list.length - 1) (List.range client_list.length)
  let (g, graph) ← access
    (combineNodesToGraph (client_nodes client_list) randArray 4 client_list.length)
  visit_clients fuel deref malloc client_list g graph 0 client_list heap

end Round

end AnonyChat
