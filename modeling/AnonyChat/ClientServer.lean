import AnonyChat.Enc
import AnonyChat.Msg
import AnonyChat.Lib.Machine
import Mathlib.Logic.Function.Basic

/-! # The client node (`client_server.c`)

The state of a client process between two of its atomic steps, and the two steps
that touch the message table: `client_handle` reading one chunk from a connection
into that connection's own buffer and parsing it, and `input_send_msg` on one line
of user input.  A step is atomic because the lookup and the insertion are made
under `mht_mutex`, and what follows them reads only what the step itself set.

A step reports what it did as a list of `Event`s: the broadcasts with their
`send`s, the messages dropped as already seen, the messages handed to
`msg_decode_decrypt`, and the decrypted texts it printed.
-/
namespace AnonyChat
open CString GHashTable

/-- `MESSAGE_LENGTH`, the size of a broadcast message. -/
def MESSAGE_LENGTH : Nat := 1350

/-- `BUFFER_SIZE`, the size asked of `recv`. -/
def BUFFER_SIZE : Nat := 1500

/-- The globals of a client process, and the receive buffer of each of its
incoming connections. -/
structure ClientState (evp : EVP) (Conn : Type) where
  peer_list : List peer_o
  /-- `key_get_by_name` on the public keys loaded at start. -/
  public_key_hash_table : Str → Option evp.PubKey
  message_hash_table : MessageTable Conn
  rsa_encrypt_ctx : rsa_ctx_o evp
  private_key : evp.PrivKey
  buffer : Conn → List UInt8
  /-- Set once the process has died. -/
  fault : Option Fault

/-- What the surroundings supply to one step: the clock, the results of `rand()`
and of OpenSSL's generator, the byte stored after a ciphertext, the address
`malloc` returns for the padded message, and what each freed block reads as. -/
structure World (evp : EVP) where
  time : Nat
  rand : Nat → Nat
  seed : evp.Seed
  past : UInt8
  malloc : Nat
  freed : Nat → List UInt8

/-- What a step did. -/
inductive Event (Conn : Type) where
  /-- A message was read from a connection. -/
  | recv (c : Conn) (msg : Str)
  /-- It was dropped as already seen. -/
  | seen (c : Conn) (msg : Str)
  /-- `client_send_to_all_peers` was called, for a message from a connection or,
  without one, for the user's own. -/
  | broadcast (src : Option Conn) (msg : Str) (sends : List Send)
  /-- The message was handed to `msg_decode_decrypt`. -/
  | decode (msg : Str)
  /-- A decrypted text was printed. -/
  | received (text : Str)
  deriving DecidableEq, Repr

/-- One atomic step of a client: a `recv` on a connection, or a line typed. -/
inductive Input (Conn : Type) where
  | recv (c : Conn) (data : List UInt8)
  | line (input : Str)
  deriving DecidableEq, Repr

variable {evp : EVP} {Conn : Type}

/-- What each key of the message table reads: a receive buffer holds what was
last read from its connection, a block was freed when its message had been sent. -/
def ClientState.mem (s : ClientState evp Conn) (w : World evp) : Ptr Conn → Str
  | .recv c => cstr (s.buffer c)
  | .block a => cstr (w.freed a)

/-- `client_send_to_all_peers`: the sends on the open peers, in list order. -/
def client_send_to_all_peers (peer_list : List peer_o) (msg : List UInt8) : List Send :=
  peer_list.filterMap fun to_send => send_msg_peer to_send msg

/-! ## Receiving -/

/-- `client_parse_msg` on the buffer of the connection `c`, with `len` bytes. -/
def client_parse_msg [DecidableEq Conn] (s : ClientState evp Conn) (w : World evp) (c : Conn)
    (len : Nat) : ClientState evp Conn × List (Event Conn) :=
  let msg := s.mem w (.recv c)
  if client_has_seen_msg (s.mem w) s.message_hash_table (.recv c) then
    (s, [.seen c msg])
  else
    -- the key is the receive buffer itself, which the next `recv` overwrites
    let table := (client_hash_add_msg (s.mem w) w.time s.message_hash_table (.recv c)).1
    let sent := client_send_to_all_peers s.peer_list ((s.buffer c).take len)
    match msg_decode_decrypt evp s.rsa_encrypt_ctx.rsa_decrypt_ctx msg s.private_key with
    | .error f =>
      ({ s with message_hash_table := table, fault := some f },
        [.broadcast (some c) msg sent, .decode msg])
    | .ok (decoded_msg, ctx) =>
      ({ s with message_hash_table := table
                rsa_encrypt_ctx := { s.rsa_encrypt_ctx with rsa_decrypt_ctx := ctx } },
        [.broadcast (some c) msg sent, .decode msg] ++ decoded_msg.toList.map .received)

/-- One turn of the loop of `client_handle`: `recv` put `data` and a terminator
into the connection's buffer. -/
def client_handle [DecidableEq Conn] (s : ClientState evp Conn) (w : World evp) (c : Conn)
    (data : List UInt8) : ClientState evp Conn × List (Event Conn) :=
  let r := client_parse_msg { s with buffer := Function.update s.buffer c data } w c data.length
  (r.1, .recv c (cstr data) :: r.2)

/-! ## Sending -/

/-- `str_rand`: `'0' + rand() % 72` for each character. -/
def str_rand (rand : Nat → Nat) (len : Nat) : Str :=
  (List.range len).map fun i => UInt8.ofNat (48 + rand i % 72)

/-- `padded_msg` of `input_send_msg`.  `strncpy` leaves no terminator when the
encoding does not fit, and the string calls after it run past the buffer. -/
def padded_msg (encoded_msg : Str) (rand : Nat → Nat) : Except Fault Str :=
  if encoded_msg.length < MESSAGE_LENGTH then
    -- one character of the padding is the space
    let pad_len := MESSAGE_LENGTH - encoded_msg.length - 1
    let pad_str := str_rand rand pad_len
    .ok (strncat (strncat encoded_msg space 2) pad_str (pad_len + 1))
  else
    .error .unterminated

/-- `input_send_msg` up to the message it adds to the table: `none` is the return
value 1.  The pointer `strchr` returns is written through unchecked. -/
def padded_input (s : ClientState evp Conn) (w : World evp) (input : Str) :
    Except Fault (Option Str) × evp.Ctx :=
  match strchr input 58 with
  | none => (.error .null_pointer, s.rsa_encrypt_ctx.rsa_encrypt_ctx)
  | some (name, msg) =>
    match s.public_key_hash_table name with
    | none => (.ok none, s.rsa_encrypt_ctx.rsa_encrypt_ctx)
    | some pub_key =>
      match msg_encrypt_encode evp s.rsa_encrypt_ctx.rsa_encrypt_ctx msg pub_key w.seed w.past with
      | (none, ctx) => (.ok none, ctx)
      | (some encoded_msg, ctx) => ((padded_msg encoded_msg w.rand).map some, ctx)

/-- `client_hash_add_msg` on a padded message, which `malloc` put at `w.malloc`. -/
def add_padded [DecidableEq Conn] (s : ClientState evp Conn) (w : World evp) (padded : Str) :
    MessageTable Conn × Bool :=
  client_hash_add_msg (Function.update (s.mem w) (.block w.malloc) padded) w.time
    s.message_hash_table (.block w.malloc)

/-- `input_send_msg`: the state, the events and the value returned, if it returns.
When the table frees the message it was handed, the broadcast reads the freed
block and the `free` after it ends the process. -/
def input_send_msg [DecidableEq Conn] (s : ClientState evp Conn) (w : World evp) (input : Str) :
    ClientState evp Conn × List (Event Conn) × Option Int :=
  match padded_input s w input with
  | (.error f, ctx) =>
    ({ s with rsa_encrypt_ctx := { s.rsa_encrypt_ctx with rsa_encrypt_ctx := ctx }
              fault := some f }, [], none)
  | (.ok none, ctx) =>
    ({ s with rsa_encrypt_ctx := { s.rsa_encrypt_ctx with rsa_encrypt_ctx := ctx } }, [], some 1)
  | (.ok (some padded), ctx) =>
    let added := add_padded s w padded
    let sent (msg : Str) := [.broadcast none msg (client_send_to_all_peers s.peer_list msg)]
    let s' := { s with rsa_encrypt_ctx := { s.rsa_encrypt_ctx with rsa_encrypt_ctx := ctx }
                       message_hash_table := added.1 }
    if added.2 then
      -- an equal key was found, and the insertion freed `padded_msg`
      ({ s' with fault := some .double_free }, sent (s.mem w (.block w.malloc)), none)
    else
      (s', sent padded, some 0)

/-- One atomic step of a client process; a dead process does nothing. -/
def client_step [DecidableEq Conn] (s : ClientState evp Conn) (i : World evp × Input Conn) :
    ClientState evp Conn × List (Event Conn) :=
  match s.fault, i.2 with
  | some _, _ => (s, [])
  | none, .recv c data => client_handle s i.1 c data
  | none, .line input => ((input_send_msg s i.1 input).1, (input_send_msg s i.1 input).2.1)

/-! ## What a step can do

Each lemma below lists every outcome of one function; the invariants of the
development are derived from them and never unfold a step. -/

section Cases
variable [DecidableEq Conn]

@[simp] theorem mem_update_buffer_self (s : ClientState evp Conn) (w : World evp) (c : Conn)
    (data : List UInt8) :
    ({ s with buffer := Function.update s.buffer c data } : ClientState evp Conn).mem w (.recv c) =
      cstr data := by
  simp [ClientState.mem]

theorem mem_update_buffer_of_ne (s : ClientState evp Conn) (w : World evp) {c : Conn}
    (data : List UInt8) {key : Ptr Conn} (h : key ≠ .recv c) :
    ({ s with buffer := Function.update s.buffer c data } : ClientState evp Conn).mem w key =
      s.mem w key := by
  cases key with
  | recv c' =>
    have hne : c' ≠ c := fun he => h (he ▸ rfl)
    simp [ClientState.mem, hne]
  | block a => rfl

/-- A received message counts as seen exactly when a node with its hash is keyed
by the buffer it was just read into, or by an address that reads this message. -/
def Recognised (s : ClientState evp Conn) (w : World evp) (c : Conn) (msg : Str) : Prop :=
  ∃ key, Holds s.message_hash_table (g_str_hash msg) key ∧ (key = .recv c ∨ s.mem w key = msg)

/-- Decoding ends the process exactly when a field is missing from the message. -/
def fault_after (fault : Option Fault) (msg : Str) : Option Fault :=
  match parse_str_encrypted_msg msg with
  | .error f => some f
  | .ok _ => fault

/-- The new state when a received message is not recognised. -/
def accepted (s : ClientState evp Conn) (w : World evp) (c : Conn) (data : List UInt8)
    (ctx : evp.Ctx) : ClientState evp Conn :=
  let s' := { s with buffer := Function.update s.buffer c data }
  { s' with message_hash_table :=
              (client_hash_add_msg (s'.mem w) w.time s.message_hash_table (.recv c)).1
            rsa_encrypt_ctx := { s.rsa_encrypt_ctx with rsa_decrypt_ctx := ctx }
            fault := fault_after s.fault (cstr data) }

theorem has_seen_received_iff {s : ClientState evp Conn} {w : World evp} {c : Conn}
    {data : List UInt8} :
    client_has_seen_msg
        (({ s with buffer := Function.update s.buffer c data } : ClientState evp Conn).mem w)
        s.message_hash_table (.recv c) = true ↔ Recognised s w c (cstr data) := by
  rw [client_has_seen_msg_iff, mem_update_buffer_self]
  refine exists_congr fun key => and_congr_right fun _ => ?_
  by_cases hk : key = .recv c
  · subst hk
    simp
  · rw [mem_update_buffer_of_ne s w data hk]
    simp [hk]

/-- **What a receive can do.**  A recognised message is dropped and changes only
the buffer.  Any other is inserted under the buffer's address, broadcast, and
handed to the decoder; it is broadcast before it is decoded. -/
theorem client_handle_cases (s : ClientState evp Conn) (w : World evp) (c : Conn)
    (data : List UInt8) :
    (Recognised s w c (cstr data) ∧
      client_handle s w c data =
        ({ s with buffer := Function.update s.buffer c data },
          [.recv c (cstr data), .seen c (cstr data)])) ∨
    (¬ Recognised s w c (cstr data) ∧
      ∃ (ctx : evp.Ctx) (texts : List Str), client_handle s w c data =
        (accepted s w c data ctx,
          [.recv c (cstr data),
            .broadcast (some c) (cstr data) (client_send_to_all_peers s.peer_list data),
            .decode (cstr data)] ++ texts.map .received)) := by
  have htake : (Function.update s.buffer c data c).take data.length = data := by simp
  by_cases hrec : Recognised s w c (cstr data)
  · refine Or.inl ⟨hrec, ?_⟩
    have hseen := has_seen_received_iff.mpr hrec
    simp only [client_handle, client_parse_msg, hseen, mem_update_buffer_self, if_true]
  · refine Or.inr ⟨hrec, ?_⟩
    have hseen := mt has_seen_received_iff.mp hrec
    simp only [client_handle, client_parse_msg, hseen, mem_update_buffer_self, htake,
      Bool.false_eq_true, if_false]
    cases hp : parse_str_encrypted_msg (cstr data) with
    | error f =>
      exact ⟨s.rsa_encrypt_ctx.rsa_decrypt_ctx, [], by
        simp [accepted, fault_after, msg_decode_decrypt, hp, bind, Except.bind]⟩
    | ok m =>
      simp only [msg_decode_decrypt, hp, bind, Except.bind, pure, Except.pure]
      generalize client_decrypt_msg evp _ _ _ = decoded
      exact ⟨decoded.2, decoded.1.toList, by simp [accepted, fault_after, hp]⟩

/-- The table frees a padded message exactly when a node with its hash is keyed
by the address it was put at, or by one that reads the same text. -/
def Clashes (s : ClientState evp Conn) (w : World evp) (padded : Str) : Prop :=
  ∃ key, Holds s.message_hash_table (g_str_hash padded) key ∧
    (key = .block w.malloc ∨ s.mem w key = padded)

theorem add_padded_freed_iff {s : ClientState evp Conn} {w : World evp} {padded : Str} :
    (add_padded s w padded).2 = true ↔ Clashes s w padded := by
  rw [add_padded, client_hash_add_msg_freed_iff, Function.update_self]
  refine exists_congr fun key => and_congr_right fun _ => ?_
  by_cases hk : key = .block w.malloc
  · simp [hk]
  · simp [hk]

theorem holds_add_padded_iff {s : ClientState evp Conn} {w : World evp} {padded : Str}
    {h : UInt32} {key : Ptr Conn} :
    Holds (add_padded s w padded).1 h key ↔ Holds s.message_hash_table h key ∨
      (¬ Clashes s w padded ∧ h = g_str_hash padded ∧ key = .block w.malloc) := by
  have hfree : (add_padded s w padded).2 = false ↔ ¬ Clashes s w padded := by
    rw [← add_padded_freed_iff, Bool.not_eq_true]
  rw [← hfree, add_padded, holds_add_msg_iff, Function.update_self]

/-- The new state when a line was typed: the encryption context moved on, and the
table and the fault flag are as given. -/
def typed (s : ClientState evp Conn) (table : MessageTable Conn) (ctx : evp.Ctx)
    (fault : Option Fault) : ClientState evp Conn :=
  { s with rsa_encrypt_ctx := { s.rsa_encrypt_ctx with rsa_encrypt_ctx := ctx }
           message_hash_table := table
           fault := fault }

/-- **What a line can do.**  Nothing but move the encryption context on (or end
the process); or insert and broadcast the padded message; or, when the insertion
frees it, broadcast what the freed block reads and end the process. -/
theorem input_send_msg_cases (s : ClientState evp Conn) (w : World evp) (input : Str) :
    (∃ ctx fault ret, input_send_msg s w input =
      (typed s s.message_hash_table ctx fault, [], ret)) ∨
    (∃ padded ctx, padded_input s w input = (.ok (some padded), ctx) ∧ ¬ Clashes s w padded ∧
      input_send_msg s w input =
        (typed s (add_padded s w padded).1 ctx s.fault,
          [.broadcast none padded (client_send_to_all_peers s.peer_list padded)], some 0)) ∨
    (∃ padded ctx, padded_input s w input = (.ok (some padded), ctx) ∧ Clashes s w padded ∧
      input_send_msg s w input =
        (typed s (add_padded s w padded).1 ctx (some .double_free),
          [.broadcast none (s.mem w (.block w.malloc))
            (client_send_to_all_peers s.peer_list (s.mem w (.block w.malloc)))], none)) := by
  rcases hp : padded_input s w input with ⟨_ | _ | padded, ctx⟩
  · rename_i f
    exact Or.inl ⟨ctx, some f, none, by simp [input_send_msg, hp, typed]⟩
  · exact Or.inl ⟨ctx, s.fault, some 1, by simp [input_send_msg, hp, typed]⟩
  · apply Or.inr
    -- the insertion decides between the last two outcomes
    by_cases hc : Clashes s w padded
    · have hfree := add_padded_freed_iff.mpr hc
      exact Or.inr ⟨padded, ctx, rfl, hc, by simp [input_send_msg, hp, hfree, typed]⟩
    · have hfree := mt add_padded_freed_iff.mp hc
      exact Or.inl ⟨padded, ctx, rfl, hc, by simp [input_send_msg, hp, hfree, typed]⟩

/-- The six outcomes of a step, with the condition of each on the state before it. -/
inductive Outcome (s : ClientState evp Conn) (w : World evp) :
    Input Conn → ClientState evp Conn × List (Event Conn) → Prop where
  /-- The process died earlier. -/
  | dead {i f} (hf : s.fault = some f) : Outcome s w i (s, [])
  /-- A message was dropped as already seen. -/
  | seen {c data} (hf : s.fault = none) (hrec : Recognised s w c (cstr data)) :
      Outcome s w (.recv c data)
        ({ s with buffer := Function.update s.buffer c data },
          [.recv c (cstr data), .seen c (cstr data)])
  /-- A message was forwarded and handed to the decoder. -/
  | accept {c data ctx} {texts : List Str} (hf : s.fault = none)
      (hrec : ¬ Recognised s w c (cstr data)) :
      Outcome s w (.recv c data)
        (accepted s w c data ctx,
          [.recv c (cstr data),
            .broadcast (some c) (cstr data) (client_send_to_all_peers s.peer_list data),
            .decode (cstr data)] ++ texts.map .received)
  /-- A line was rejected, or ended the process before anything was sent. -/
  | quiet {input ctx fault} (hf : s.fault = none) :
      Outcome s w (.line input) (typed s s.message_hash_table ctx fault, [])
  /-- A padded message was recorded and broadcast. -/
  | sent {input padded ctx} (hf : s.fault = none)
      (hpad : padded_input s w input = (.ok (some padded), ctx)) (hclash : ¬ Clashes s w padded) :
      Outcome s w (.line input)
        (typed s (add_padded s w padded).1 ctx s.fault,
          [.broadcast none padded (client_send_to_all_peers s.peer_list padded)])
  /-- The table freed the padded message, and the freed block was broadcast. -/
  | clash {input padded ctx} (hf : s.fault = none)
      (hpad : padded_input s w input = (.ok (some padded), ctx)) (hclash : Clashes s w padded) :
      Outcome s w (.line input)
        (typed s (add_padded s w padded).1 ctx (some .double_free),
          [.broadcast none (s.mem w (.block w.malloc))
            (client_send_to_all_peers s.peer_list (s.mem w (.block w.malloc)))])

theorem client_step_outcome (s : ClientState evp Conn) (i : World evp × Input Conn) :
    Outcome s i.1 i.2 (client_step s i) := by
  rcases i with ⟨w, i⟩
  cases hf : s.fault with
  | some f => simpa [client_step, hf] using Outcome.dead hf
  | none =>
    cases i with
    | recv c data =>
      have hstep : client_step s (w, .recv c data) = client_handle s w c data := by
        simp [client_step, hf]
      rw [hstep]
      rcases client_handle_cases s w c data with ⟨hrec, h⟩ | ⟨hrec, ctx, texts, h⟩
      · exact h ▸ Outcome.seen hf hrec
      · exact h ▸ Outcome.accept hf hrec
    | line input =>
      have hstep : client_step s (w, .line input) =
          ((input_send_msg s w input).1, (input_send_msg s w input).2.1) := by
        simp [client_step, hf]
      rw [hstep]
      rcases input_send_msg_cases s w input with ⟨ctx, fault, ret, h⟩ | ⟨padded, ctx, hp, hc, h⟩ |
        ⟨padded, ctx, hp, hc, h⟩
      · rw [h]
        exact Outcome.quiet hf
      · rw [h]
        exact Outcome.sent hf hp hc
      · rw [h]
        exact Outcome.clash hf hp hc

/-- A step changes neither the peer list nor anything in the table; it may add to
the table. -/
theorem Outcome.holds_of_holds {s : ClientState evp Conn} {w : World evp} {i : Input Conn}
    {r : ClientState evp Conn × List (Event Conn)} (h : Outcome s w i r) {hash : UInt32}
    {key : Ptr Conn} (hold : Holds s.message_hash_table hash key) :
    Holds r.1.message_hash_table hash key := by
  cases h with
  | dead hf => exact hold
  | seen hf hrec => exact hold
  | accept hf hrec => exact holds_add_msg_of_holds hold
  | quiet hf => exact hold
  | sent hf hpad hclash => exact holds_add_padded_iff.mpr (Or.inl hold)
  | clash hf hpad hclash => exact holds_add_padded_iff.mpr (Or.inl hold)

theorem Outcome.peer_list_eq {s : ClientState evp Conn} {w : World evp} {i : Input Conn}
    {r : ClientState evp Conn × List (Event Conn)} (h : Outcome s w i r) :
    r.1.peer_list = s.peer_list := by
  cases h <;> rfl

/-- What a receive that is accepted adds to the table. -/
theorem holds_accepted_iff {s : ClientState evp Conn} {w : World evp} {c : Conn}
    {data : List UInt8} {ctx : evp.Ctx} {hash : UInt32} {key : Ptr Conn}
    (hrec : ¬ Recognised s w c (cstr data)) :
    Holds (accepted s w c data ctx).message_hash_table hash key ↔
      Holds s.message_hash_table hash key ∨ (hash = g_str_hash (cstr data) ∧ key = .recv c) := by
  have hnew := mt has_seen_received_iff.mp hrec
  have hfree : (client_hash_add_msg
      (({ s with buffer := Function.update s.buffer c data } : ClientState evp Conn).mem w) w.time
      s.message_hash_table (.recv c)).2 = false := by
    rw [← Bool.not_eq_true]
    exact fun hf => hnew (client_has_seen_msg_iff.mpr (client_hash_add_msg_freed_iff.mp hf))
  simp only [accepted]
  rw [holds_add_msg_iff, mem_update_buffer_self]
  simp [hfree]

end Cases

/-! ## What is sent -/

/-- Everything a run put on the network, in order. -/
def sends (out : List (Event Conn)) : List Send :=
  out.flatMap fun
    | .broadcast _ _ sent => sent
    | _ => []

theorem sends_append (xs ys : List (Event Conn)) : sends (xs ++ ys) = sends xs ++ sends ys :=
  List.flatMap_append

theorem sends_received (texts : List Str) :
    sends (texts.map (Event.received : Str → Event Conn)) = [] := by
  simp [sends]

theorem mem_sends_of_broadcast {out : List (Event Conn)} {src : Option Conn} {msg : Str}
    {sent : List Send} (h : Event.broadcast src msg sent ∈ out) {x : Send} (hx : x ∈ sent) :
    x ∈ sends out :=
  List.mem_flatMap.mpr ⟨_, h, hx⟩

/-- Each open peer is sent the message. -/
theorem mem_client_send_to_all_peers {peer_list : List peer_o} {msg : List UInt8} {x : Send} :
    x ∈ client_send_to_all_peers peer_list msg ↔
      ∃ peer ∈ peer_list, peer.open_con = true ∧ x = ⟨peer.socket_fd, msg⟩ := by
  simp only [client_send_to_all_peers, send_msg_peer, List.mem_filterMap]
  refine exists_congr fun peer => and_congr_right fun _ => ?_
  by_cases h : peer.open_con = true
  · simp [h, eq_comm]
  · simp [h]

theorem client_send_to_all_peers_length (peer_list : List peer_o) (msg : List UInt8) :
    (client_send_to_all_peers peer_list msg).length = peer_list.countP (·.open_con) := by
  induction peer_list with
  | nil => rfl
  | cons peer rest ih =>
    simp only [client_send_to_all_peers, send_msg_peer] at ih ⊢
    by_cases h : peer.open_con = true
    · simp [h, ih]
    · simp [h, ih]

/-! ## A concrete client -/

/-- A client with one open peer and no messages yet. -/
def sample_client {Conn : Type} : ClientState block_evp Conn where
  peer_list := [⟨0, [], [], 5, true⟩]
  public_key_hash_table _ := some (7 : UInt8)
  message_hash_table := client_create_hash_table
  rsa_encrypt_ctx := ⟨[], []⟩
  private_key := (1 : UInt8)
  buffer _ := []
  fault := none

/-- Surroundings in which nothing is random. -/
def sample_world : World block_evp where
  time := 0
  rand _ := 0
  seed := (0 : UInt8)
  past := 0
  malloc := 0
  freed _ := []

end AnonyChat
