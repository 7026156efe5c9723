import AnonyChat.Peers
import AnonyChat.Lib.Interleave

/-! # The handler threads

Each connection has a thread of its own that decodes and decrypts the messages from it,
and the name server's connection has one that reads peer lists.  What they do after
`mht_mutex` is released is not guarded by any lock, though the cursor of `strtok` is one
hidden global and `rsa_decrypt_ctx` is one global context.  Here a thread is the tree of
its library calls on these two; everything else it touches is its own.

Alone a thread comes to what the functions of the other modules say
(`finish_client_handle`, `finish_name_server_handle`).  In company it does so in every
run in which no other thread calls `strtok` between a thread's `strtok(str, …)` and the
`strtok(NULL, …)` calls that go on from it, or works on the context between its
`EVP_OpenInit` and its `EVP_OpenFinal` (`threads_isolated`).
-/
namespace AnonyChat
open CString Interleave Machine

/-- What the threads share. -/
inductive Global where
  | strtok_cursor
  | rsa_decrypt_ctx
  deriving DecidableEq, Repr

/-- A library call on one of the globals. -/
inductive LibCall (evp : EVP) where
  | strtok (str delims : Str)
  /-- `strtok(NULL, delims)`. -/
  | strtok_next (delims : Str)
  /-- `strtok(NULL, delims)` with the result overwritten before it is read. -/
  | strtok_unread (delims : Str)
  | EVP_OpenInit (ek iv : List UInt8) (private_key : evp.PrivKey)
  | EVP_OpenUpdate (bytes : List UInt8) (inl : Int)
  | EVP_OpenFinal
  | EVP_CIPHER_CTX_cleanup

/-- The calls on the globals: the cursor is the text `strtok` has left. -/
def lib_calls (evp : EVP) : Calls Global where
  X
    | .strtok_cursor => Str
    | .rsa_decrypt_ctx => evp.Ctx
  Call := LibCall evp
  R
    | .strtok _ _ => Option Str
    | .strtok_next _ => Option Str
    | .strtok_unread _ => Unit
    | .EVP_OpenInit _ _ _ => Bool
    | .EVP_OpenUpdate _ _ => Option (List UInt8)
    | .EVP_OpenFinal => Option (List UInt8)
    | .EVP_CIPHER_CTX_cleanup => Unit
  res
    | .strtok _ _ => .strtok_cursor
    | .strtok_next _ => .strtok_cursor
    | .strtok_unread _ => .strtok_cursor
    | _ => .rsa_decrypt_ctx
  kind
    | .strtok _ _ => .reset
    | .strtok_next _ => .use
    | .strtok_unread _ => .clobber
    | .EVP_OpenInit _ _ _ => .reset
    | .EVP_OpenUpdate _ _ => .use
    | .EVP_OpenFinal => .use
    | .EVP_CIPHER_CTX_cleanup => .clobber
  perform
    | .strtok str delims => fun _ => strtok_r str delims
    | .strtok_next delims => fun cursor => strtok_r cursor delims
    | .strtok_unread delims => fun cursor => ((), (strtok_r cursor delims).2)
    | .EVP_OpenInit ek iv private_key => fun ctx => evp.EVP_OpenInit ctx ek iv private_key
    | .EVP_OpenUpdate bytes inl => fun ctx => evp.EVP_OpenUpdate ctx bytes inl
    | .EVP_OpenFinal => fun ctx => evp.EVP_OpenFinal ctx
    | .EVP_CIPHER_CTX_cleanup => fun ctx => ((), evp.EVP_CIPHER_CTX_cleanup ctx)

/-- What OpenSSL documents of `EVP_OpenInit` with a cipher: it initializes the context,
whatever state that was in. -/
def InitializesContext (evp : EVP) : Prop :=
  ∀ ctx ctx' ek iv private_key,
    evp.EVP_OpenInit ctx ek iv private_key = evp.EVP_OpenInit ctx' ek iv private_key

theorem lib_calls_lawful {evp : EVP} (hinit : InitializesContext evp) : (lib_calls evp).Lawful where
  reset c hc x y := by
    cases c with
    | strtok str delims => rfl
    | EVP_OpenInit ek iv private_key => exact hinit x y ek iv private_key
    | strtok_next delims => cases hc
    | strtok_unread delims => cases hc
    | EVP_OpenUpdate bytes inl => cases hc
    | EVP_OpenFinal => cases hc
    | EVP_CIPHER_CTX_cleanup => cases hc
  clobber c hc r r' := by
    cases c with
    | strtok_unread delims => rfl
    | EVP_CIPHER_CTX_cleanup => rfl
    | strtok str delims => cases hc
    | EVP_OpenInit ek iv private_key => cases hc
    | strtok_next delims => cases hc
    | EVP_OpenUpdate bytes inl => cases hc
    | EVP_OpenFinal => cases hc

/-! ## The threads -/

section Programs
variable {evp : EVP}

/-- A thread of library calls. -/
abbrev Thread (evp : EVP) (α : Type) := Prog (lib_calls evp) α

/-- `strtok(str, delims)`. -/
def call_strtok (str delims : Str) : Thread evp (Option Str) :=
  .call (LibCall.strtok str delims) .ret

/-- `strtok(NULL, delims)`. -/
def call_strtok_next (delims : Str) : Thread evp (Option Str) :=
  .call (LibCall.strtok_next delims) .ret

/-- `strtok(NULL, delims)`, the result unread. -/
def call_strtok_unread (delims : Str) : Thread evp Unit := .call (LibCall.strtok_unread delims) .ret

/-- `EVP_OpenInit`. -/
def call_EVP_OpenInit (ek iv : List UInt8) (private_key : evp.PrivKey) : Thread evp Bool :=
  .call (LibCall.EVP_OpenInit ek iv private_key) .ret

/-- `EVP_OpenUpdate`. -/
def call_EVP_OpenUpdate (bytes : List UInt8) (inl : Int) : Thread evp (Option (List UInt8)) :=
  .call (LibCall.EVP_OpenUpdate bytes inl) .ret

/-- `EVP_OpenFinal`. -/
def call_EVP_OpenFinal : Thread evp (Option (List UInt8)) := .call LibCall.EVP_OpenFinal .ret

/-- `EVP_CIPHER_CTX_cleanup`. -/
def call_EVP_CIPHER_CTX_cleanup : Thread evp Unit := .call LibCall.EVP_CIPHER_CTX_cleanup .ret

/-- `parse_str_encrypted_msg`, call by call. -/
def thread_parse_str_encrypted_msg (msg : Str) : Thread evp (Except Fault message_encrypted_o) := do
  let tok ← call_strtok msg space
  match decode_token tok with
  | .error f => return .error f
  | .ok (encrypted_msg, encrypted_msg_len) =>
    let tok ← call_strtok_next space
    match decode_token tok with
    | .error f => return .error f
    | .ok (encrypted_key, encrypted_key_len) =>
      let tok ← call_strtok_next space
      match decode_token tok with
      | .error f => return .error f
      | .ok (init_vector, init_vector_len) =>
        return .ok { encrypted_msg, encrypted_key, init_vector,
                     encrypted_msg_len, encrypted_key_len, init_vector_len }

/-- `client_decrypt_msg`, call by call. -/
def thread_client_decrypt_msg (msg : message_encrypted_o) (private_key : evp.PrivKey) :
    Thread evp (Option Str) := do
  let res ← call_EVP_OpenInit msg.encrypted_key msg.init_vector private_key
  match res with
  | false => return none
  | true =>
    let res ← call_EVP_OpenUpdate (msg.encrypted_msg.take msg.encrypted_msg_len.toNat)
      msg.encrypted_msg_len
    match res with
    | none => return none
    | some block =>
      let res ← call_EVP_OpenFinal
      match res with
      | none => return none
      | some last =>
        let _ ← call_EVP_CIPHER_CTX_cleanup
        return some (cstr (block ++ last))

/-- The loop of `parse_peers`, call by call.  `strtok_r` keeps its cursor in the thread. -/
def thread_parse_peers_loop (fd : Nat → Int) :
    Nat → Option Str → Str → Peers → Thread evp (Option Peers)
  | 0, _, _, _ => pure none
  | _ + 1, none, _, t => pure (some t)
  | fuel + 1, some ip_port_tok, save_ptr, t => do
    let ip_addr ← call_strtok ip_port_tok colon
    let port ← call_strtok_next colon
    match ip_addr, port with
    | some ip_addr, some port =>
      -- the source takes its next token from `strtok` first and then from `strtok_r`
      let _ ← call_strtok_unread space
      thread_parse_peers_loop fd fuel (strtok_r save_ptr space).1 (strtok_r save_ptr space).2
        (add_peer fd t ip_addr port)
    | _, _ => thread_parse_peers_loop fd fuel (some (strtok_head ip_port_tok colon)) save_ptr t

/-- `parse_peers`, call by call. -/
def thread_parse_peers (fd : Nat → Int) (fuel : Nat) (t : Peers) (peer_msg : Str) :
    Thread evp (Option (Int × Peers)) :=
  if peer_msg.length < 1 then
    pure (some (1, t))
  else do
    let t ← thread_parse_peers_loop fd fuel (strtok_r peer_msg space).1 (strtok_r peer_msg space).2
      (clean_peers_list t)
    return t.map fun t => (0, t)

end Programs

/-! ## Alone -/

section Alone
variable {evp : EVP}

/-- The globals, given their values. -/
def globals (strtok_cursor : Str) (rsa_decrypt_ctx : evp.Ctx) : Shared (lib_calls evp)
  | .strtok_cursor => strtok_cursor
  | .rsa_decrypt_ctx => rsa_decrypt_ctx

variable {α : Type} (cursor : Str) (ctx : evp.Ctx)

theorem update_cursor (rest : Str) :
    Function.update (globals cursor ctx) .strtok_cursor rest = globals rest ctx := by
  funext ρ
  cases ρ <;> rfl

theorem update_ctx (ctx' : evp.Ctx) :
    Function.update (globals cursor ctx) .rsa_decrypt_ctx ctx' = globals cursor ctx' := by
  funext ρ
  cases ρ <;> rfl

theorem finish_strtok (str delims : Str) (f : Option Str → Thread evp α) :
    finish (call_strtok str delims >>= f) (globals cursor ctx) =
      finish (f (strtok_r str delims).1) (globals (strtok_r str delims).2 ctx) :=
  congrArg (finish (f _)) (update_cursor cursor ctx _)

theorem finish_strtok_next (delims : Str) (f : Option Str → Thread evp α) :
    finish (call_strtok_next delims >>= f) (globals cursor ctx) =
      finish (f (strtok_r cursor delims).1) (globals (strtok_r cursor delims).2 ctx) :=
  congrArg (finish (f _)) (update_cursor cursor ctx _)

theorem finish_strtok_unread (delims : Str) (f : Unit → Thread evp α) :
    finish (call_strtok_unread delims >>= f) (globals cursor ctx) =
      finish (f ()) (globals (strtok_r cursor delims).2 ctx) :=
  congrArg (finish (f _)) (update_cursor cursor ctx _)

theorem finish_EVP_OpenInit (ek iv : List UInt8) (private_key : evp.PrivKey)
    (f : Bool → Thread evp α) :
    finish (call_EVP_OpenInit ek iv private_key >>= f) (globals cursor ctx) =
      finish (f (evp.EVP_OpenInit ctx ek iv private_key).1)
        (globals cursor (evp.EVP_OpenInit ctx ek iv private_key).2) :=
  congrArg (finish (f _)) (update_ctx cursor ctx _)

theorem finish_EVP_OpenUpdate (bytes : List UInt8) (inl : Int)
    (f : Option (List UInt8) → Thread evp α) :
    finish (call_EVP_OpenUpdate bytes inl >>= f) (globals cursor ctx) =
      finish (f (evp.EVP_OpenUpdate ctx bytes inl).1)
        (globals cursor (evp.EVP_OpenUpdate ctx bytes inl).2) :=
  congrArg (finish (f _)) (update_ctx cursor ctx _)

theorem finish_EVP_OpenFinal (f : Option (List UInt8) → Thread evp α) :
    finish (call_EVP_OpenFinal >>= f) (globals cursor ctx) =
      finish (f (evp.EVP_OpenFinal ctx).1) (globals cursor (evp.EVP_OpenFinal ctx).2) :=
  congrArg (finish (f _)) (update_ctx cursor ctx _)

/-- Alone, the thread takes the message apart as `parse_str_encrypted_msg` does, and
leaves the context as it was. -/
theorem finish_thread_parse_str_encrypted_msg (msg : Str) :
    ∃ rest, finish (thread_parse_str_encrypted_msg msg) (globals cursor ctx) =
      (parse_str_encrypted_msg msg, globals rest ctx) := by
  have heq : parse_str_encrypted_msg msg =
      (decode_token (strtok_r msg space).1).bind fun m =>
        (decode_token (strtok_r (strtok_r msg space).2 space).1).bind fun k =>
          (decode_token (strtok_r (strtok_r (strtok_r msg space).2 space).2 space).1).bind fun v =>
            .ok ⟨m.1, k.1, v.1, m.2, k.2, v.2⟩ := rfl
  rw [heq, thread_parse_str_encrypted_msg, finish_strtok]
  cases decode_token (strtok_r msg space).1 with
  | error f => exact ⟨_, rfl⟩
  | ok m =>
    simp only [finish_strtok_next]
    cases decode_token (strtok_r (strtok_r msg space).2 space).1 with
    | error f => exact ⟨_, rfl⟩
    | ok k =>
      simp only [finish_strtok_next]
      cases decode_token (strtok_r (strtok_r (strtok_r msg space).2 space).2 space).1 with
      | error f => exact ⟨_, rfl⟩
      | ok v => exact ⟨_, rfl⟩

/-- Alone, the thread decrypts as `client_decrypt_msg` does. -/
theorem finish_thread_client_decrypt_msg (msg : message_encrypted_o) (private_key : evp.PrivKey) :
    (finish (thread_client_decrypt_msg msg private_key) (globals cursor ctx)).1 =
      (client_decrypt_msg evp ctx msg private_key).1 := by
  rw [thread_client_decrypt_msg, client_decrypt_msg, finish_EVP_OpenInit]
  rcases evp.EVP_OpenInit ctx msg.encrypted_key msg.init_vector private_key with ⟨_ | _, ctx₁⟩
  · rfl
  · simp only [finish_EVP_OpenUpdate]
    rcases evp.EVP_OpenUpdate ctx₁ (msg.encrypted_msg.take msg.encrypted_msg_len.toNat)
      msg.encrypted_msg_len with ⟨_ | block, ctx₂⟩
    · rfl
    · simp only [finish_EVP_OpenFinal]
      rcases evp.EVP_OpenFinal ctx₂ with ⟨_ | last, ctx₃⟩
      · rfl
      · rfl

/-- Alone, the thread reads the list as `parse_peers` does. -/
theorem finish_thread_parse_peers_loop (fd : Nat → Int) (fuel : Nat) (tok : Option Str)
    (save_ptr : Str) (t : Peers) :
    (finish (thread_parse_peers_loop fd fuel tok save_ptr t) (globals cursor ctx)).1 =
      parse_peers_loop fd fuel tok save_ptr t := by
  induction fuel generalizing tok save_ptr t cursor with
  | zero => rfl
  | succ fuel ih =>
    cases tok with
    | none => rfl
    | some tok =>
      rw [thread_parse_peers_loop, parse_peers_loop, split_entry, finish_strtok, finish_strtok_next]
      cases (strtok_r tok colon).1 with
      | none => exact ih _ _ _ _
      | some ip_addr =>
        cases (strtok_r (strtok_r tok colon).2 colon).1 with
        | none => exact ih _ _ _ _
        | some port =>
          simp only [finish_strtok_unread]
          exact ih _ _ _ _

theorem finish_thread_parse_peers (fd : Nat → Int) (fuel : Nat) (t : Peers) (peer_msg : Str) :
    (finish (thread_parse_peers fd fuel t peer_msg) (globals cursor ctx)).1 =
      parse_peers fd fuel t peer_msg := by
  unfold thread_parse_peers parse_peers
  split
  · rfl
  · rw [finish_bind, ← finish_thread_parse_peers_loop cursor ctx]
    rfl

end Alone

/-! ## Together -/

/-- What the threads were started with: the message of each connection, and the text of
the peer list with what `parse_peers` needs. -/
structure Workload (Conn : Type) where
  msg : Conn → Str
  fd : Nat → Int
  fuel : Nat
  peers : Peers
  peer_msg : Str

/-- What a thread comes to: the three fields and the text, or the peers. -/
inductive Obtained where
  | decoded (r : Except Fault (message_encrypted_o × Option Str))
  | parsed (r : Option (Int × Peers))
  deriving DecidableEq

/-- A `client_handle` thread in `msg_decode_decrypt`. -/
def thread_msg_decode_decrypt {evp : EVP} (msg : Str) (private_key : evp.PrivKey) :
    Thread evp (Except Fault (message_encrypted_o × Option Str)) := do
  match ← thread_parse_str_encrypted_msg msg with
  | .error f => return .error f
  | .ok encrypted_msg => do
    let decrypted_msg ← thread_client_decrypt_msg
      { encrypted_msg with encrypted_msg_len := encrypted_msg.encrypted_msg_len - 1 } private_key
    return .ok (encrypted_msg, decrypted_msg)

/-- The process dies with a thread. -/
def fatal : Obtained → Bool
  | .decoded (.error _) => true
  | _ => false

section Isolation
variable {evp : EVP} {Conn : Type}

/-- The thread of a connection, or of the name server. -/
def handler (w : Workload Conn) (private_key : evp.PrivKey) : Option Conn → Thread evp Obtained
  | some c => do return .decoded (← thread_msg_decode_decrypt (w.msg c) private_key)
  | none => do return .parsed (← thread_parse_peers w.fd w.fuel w.peers w.peer_msg)

/-- What the functions return for the same arguments, with no thread in between. -/
def sequential (w : Workload Conn) (ctx : evp.Ctx) (private_key : evp.PrivKey) :
    Option Conn → Obtained
  | some c => .decoded do
      let encrypted_msg ← parse_str_encrypted_msg (w.msg c)
      let (decrypted_msg, _) ← msg_decode_decrypt evp ctx (w.msg c) private_key
      return (encrypted_msg, decrypted_msg)
  | none => .parsed (parse_peers w.fd w.fuel w.peers w.peer_msg)

theorem finish_thread_msg_decode_decrypt (cursor : Str) (ctx : evp.Ctx) (msg : Str)
    (private_key : evp.PrivKey) :
    (finish (thread_msg_decode_decrypt msg private_key) (globals cursor ctx)).1 = do
      let encrypted_msg ← parse_str_encrypted_msg msg
      let (decrypted_msg, _) ← msg_decode_decrypt evp ctx msg private_key
      return (encrypted_msg, decrypted_msg) := by
  obtain ⟨rest, hparse⟩ := finish_thread_parse_str_encrypted_msg cursor ctx msg
  rw [thread_msg_decode_decrypt, finish_bind, hparse, msg_decode_decrypt]
  cases parse_str_encrypted_msg msg with
  | error f => rfl
  | ok encrypted_msg =>
    simp only [finish_bind]
    rw [finish_thread_client_decrypt_msg]
    rfl

/-- **A thread alone** comes to what the functions return. -/
theorem finish_handler (w : Workload Conn) (private_key : evp.PrivKey) (cursor : Str)
    (ctx : evp.Ctx) (i : Option Conn) :
    (finish (handler w private_key i) (globals cursor ctx)).1 = sequential w ctx private_key i := by
  cases i with
  | none =>
    rw [handler, finish_bind, sequential, ← finish_thread_parse_peers cursor ctx]
    rfl
  | some c =>
    rw [handler, finish_bind, sequential, ← finish_thread_msg_decode_decrypt cursor ctx]
    rfl

variable [DecidableEq Conn]

/-- The threads started. -/
def started (w : Workload Conn) (private_key : evp.PrivKey) (cursor : Str) (ctx : evp.Ctx) :
    System (lib_calls evp) (Option Conn) Obtained :=
  ⟨globals cursor ctx, handler w private_key, false⟩

/-- **Isolation.**  In a run in which every `strtok(NULL, …)` whose result is read, every
`EVP_OpenUpdate` and every `EVP_OpenFinal` is made while no other thread has called on
the same global since the thread's own `strtok(str, …)` or `EVP_OpenInit`, every thread
is where it would be alone after as many calls, and comes to what the functions return. -/
theorem threads_isolated (hinit : InitializesContext evp) (w : Workload Conn)
    (private_key : evp.PrivKey) (cursor : Str) (ctx : evp.Ctx) {schedule : List (Option Conn)}
    (hP : Always (step fatal) Undisturbed (started w private_key cursor ctx) schedule)
    (i : Option Conn) :
    let run := exec (step fatal) (started w private_key cursor ctx) schedule
    run.1.threads i = (alone (handler w private_key i) (globals cursor ctx) (made i run.2)).1 ∧
      ∀ r, (run.1.threads i).value = some r → r = sequential w ctx private_key i := by
  intro run
  obtain ⟨hthread, -⟩ := exec_apart (lib_calls_lawful hinit) fatal (handler w private_key)
    (globals cursor ctx) hP i
  refine ⟨hthread, fun r hr => ?_⟩
  rw [← finish_handler w private_key cursor]
  exact eq_finish_of_alone (hthread.symm.trans (eq_ret_of_value hr))

end Isolation

/-- Two messages in their fields, the first of which the key 7 opens, and a peer. -/
def two_messages : Workload Bool where
  msg c := if c then wire ([104, 105, 0] ++ fill [104, 105, 0] ++ [0]) [7] (List.replicate 16 0) []
    else wire [1] [8] [9] []
  fd _ := 0
  fuel := 4
  peers := ⟨[], 0, []⟩
  peer_msg := [49, 58, 50]

theorem block_evp_initializesContext : InitializesContext block_evp :=
  fun _ _ _ _ _ => rfl

/-- The key 7. -/
def block_key : block_evp.PrivKey := (7 : UInt8)

/-- A context as `EVP_CIPHER_CTX_init` leaves it. -/
def block_ctx : block_evp.Ctx := ([] : List UInt8)

/-- One thread after the other. -/
theorem threads_isolated_in_turn :
    let schedule := List.replicate 7 (some true) ++ List.replicate 4 (some false) ++
      List.replicate 3 none
    let run := exec (step fatal) (started two_messages block_key [] block_ctx) schedule
    run.1.threads (some true) = (alone (handler two_messages block_key (some true))
        (globals [] block_ctx) (made (some true) run.2)).1 ∧
      ∀ r, (run.1.threads (some true)).value = some r →
        r = sequential two_messages block_ctx block_key (some true) :=
  threads_isolated block_evp_initializesContext two_messages block_key [] block_ctx
    (by decide +kernel) (some true)

/-- The second thread calls `strtok` behind the first one's first token.  The first ends
up with the second one's key and IV, and cannot open its own message. -/
theorem message_lost_to_other_thread :
    ((exec (step fatal) (started two_messages block_key [] block_ctx)
        [some true, some false, some true, some true, some true]).1.threads (some true)).value ≠
      some (sequential two_messages block_ctx block_key (some true)) := by
  decide +kernel

end AnonyChat
