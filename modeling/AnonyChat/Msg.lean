import AnonyChat.Lib.CString
import AnonyChat.Lib.GHashTable

/-! # Messages, peers and the message table (`msg.c`)

The table of processed messages is a `GHashTable` opened with `g_str_hash` and
`g_str_equal`.  `client_hash_add_msg` copies the message into the **value** of the
new node; the **key** is the pointer it was called with, so a node compares equal
to whatever that buffer holds at the time of a later lookup.
-/
namespace AnonyChat
open CString GHashTable

/-- The addresses used as keys of the message table. -/
inductive Ptr (Conn : Type) where
  /-- The receive buffer `client_handle` allocated for a connection. -/
  | recv (c : Conn)
  /-- The block `input_send_msg` allocated for a padded message. -/
  | block (a : Nat)
  deriving DecidableEq, Repr

/-- `message_hash_o`. -/
structure message_hash_o where
  msg : Str
  purge_time : Nat
  deriving DecidableEq, Repr

/-- `MESSAGE_PURGE_TIME`. -/
def MESSAGE_PURGE_TIME : Nat := 30

/-- GLib's `g_str_hash`: `h * 33 + c` from 5381, over `signed char`. -/
def g_str_hash (s : Str) : UInt32 :=
  s.foldl (fun h c => (h <<< 5) + h + c.toInt8.toInt32.toUInt32) 5381

section Table
variable {Conn : Type}

/-- The message table. -/
abbrev MessageTable (Conn : Type) := Table (Ptr Conn) UInt32 message_hash_o

/-- `client_create_hash_table`. -/
def client_create_hash_table : MessageTable Conn := []

/-- `client_hash_add_msg`: the new table, and whether the table freed `msg`.
`mem` is what each address reads during the call, `now` is `time(NULL)`. -/
def client_hash_add_msg (mem : Ptr Conn → Str) (now : Nat) (hash_table : MessageTable Conn)
    (msg : Ptr Conn) : MessageTable Conn × Bool :=
  g_hash_table_insert g_str_hash mem hash_table msg
    { msg := mem msg, purge_time := now + MESSAGE_PURGE_TIME }

/-- `client_has_seen_msg`. -/
def client_has_seen_msg (mem : Ptr Conn → Str) (hash_table : MessageTable Conn)
    (msg : Ptr Conn) : Bool :=
  (g_hash_table_lookup g_str_hash mem hash_table msg).isSome

theorem client_has_seen_msg_iff {mem : Ptr Conn → Str} {t : MessageTable Conn} {msg : Ptr Conn} :
    client_has_seen_msg mem t msg = true ↔
      ∃ key, Holds t (g_str_hash (mem msg)) key ∧ mem key = mem msg :=
  lookup_isSome_iff g_str_hash mem

theorem client_hash_add_msg_freed_iff {mem : Ptr Conn → Str} {now : Nat} {t : MessageTable Conn}
    {msg : Ptr Conn} :
    (client_hash_add_msg mem now t msg).2 = true ↔
      ∃ key, Holds t (g_str_hash (mem msg)) key ∧ mem key = mem msg :=
  insert_freed_iff g_str_hash mem

theorem holds_add_msg_iff {mem : Ptr Conn → Str} {now : Nat} {t : MessageTable Conn}
    {msg : Ptr Conn} {h : UInt32} {key : Ptr Conn} :
    Holds (client_hash_add_msg mem now t msg).1 h key ↔
      Holds t h key ∨ ((client_hash_add_msg mem now t msg).2 = false ∧
        h = g_str_hash (mem msg) ∧ key = msg) :=
  holds_insert_iff g_str_hash mem

/-- A message that is not freed is a new node at the end. -/
theorem add_msg_of_kept {mem : Ptr Conn → Str} {now : Nat} {t : MessageTable Conn}
    {msg : Ptr Conn} (h : (client_hash_add_msg mem now t msg).2 = false) :
    (client_hash_add_msg mem now t msg).1 =
      t ++ [⟨g_str_hash (mem msg), msg, ⟨mem msg, now + MESSAGE_PURGE_TIME⟩⟩] :=
  insert_of_kept g_str_hash mem h

/-- Nothing is ever taken out of the table. -/
theorem holds_add_msg_of_holds {mem : Ptr Conn → Str} {now : Nat} {t : MessageTable Conn}
    {msg : Ptr Conn} {h : UInt32} {key : Ptr Conn} (hold : Holds t h key) :
    Holds (client_hash_add_msg mem now t msg).1 h key :=
  holds_add_msg_iff.mpr (Or.inl hold)

end Table

/-! ## Sending -/

/-- The fields of `peer_o` that connecting and sending read. -/
structure peer_o where
  peer_id : Nat
  address : Str
  port : Str
  socket_fd : Int
  open_con : Bool
  deriving DecidableEq, Repr

/-- `str_starts_with`. -/
def str_starts_with (a b : Str) : Bool := strncmp_eq a b

/-- A `send` on a socket. -/
structure Send where
  socket_fd : Int
  bytes : List UInt8
  deriving DecidableEq, Repr

/-- `send_msg_peer`: the send it makes, `none` when it returns -1 because no
connection is open. -/
def send_msg_peer (peer : peer_o) (msg : List UInt8) : Option Send :=
  if peer.open_con then some ⟨peer.socket_fd, msg⟩ else none

end AnonyChat
