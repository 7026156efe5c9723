import AnonyChat.ClientServer
import AnonyChat.Peers
import AnonyChat.Lib.Mutex

/-! # What the mutexes of a client guard

The threads of a client share the message table, the list of peers and the list of clients,
each under a mutex of its own.  Here a thread is its code, lock by lock and call by call, and
the other modules' view, in which the lookup and the insertion of a message, a broadcast, or
the emptying of the list of peers is one step, is a theorem: every run of the threads is a run
of such steps, in the order in which they give their mutexes back, and none of them can wait for
ever for another (`client_threads_refine`).  So a message that comes in over many connections
at once is passed on by exactly one of the threads (`burst_passed_on_once`).  `connect_to_peers`
reads the list without the lock and is not here.
-/
namespace AnonyChat
open CString GHashTable

/-! ## The code -/

/-- The mutexes. -/
inductive Lock where
  | mht_mutex
  /-- The mutex of `peer_list`. -/
  | peer_list
  /-- The mutex of `client_list`. -/
  | client_list
  deriving DecidableEq, Repr

/-- The peers, and what was sent to them. -/
structure PeerData where
  peers : Peers
  sent : List Send
  deriving DecidableEq, Repr

/-- A call made under a mutex; `mem` is what each address reads at that time. -/
inductive LockedCall (Conn : Type) where
  | client_has_seen_msg (mem : Ptr Conn → Str) (msg : Ptr Conn)
  | client_hash_add_msg (mem : Ptr Conn → Str) (now : Nat) (msg : Ptr Conn)
  /-- `list_size(peer_list)`. -/
  | list_size
  /-- `send_msg_peer(list_item_at(peer_list, i), msg, len)`. -/
  | send_msg_peer (i : Nat) (msg : List UInt8)
  /-- `list_item_at(peer_list, 0)`, `list_remove`, and `close` if it is open. -/
  | remove_first
  /-- `list_add(peer_list, create_peer(…))`. -/
  | list_add (fd : Nat → Int) (ip_addr port : Str)
  /-- `list_remove(client_list, client)`. -/
  | list_remove (client : Conn)

section Code
variable {Conn : Type} [DecidableEq Conn]

/-- `remove_first` on the peers. -/
def remove_first (t : Peers) : Peers :=
  match t.peer_list with
  | [] => t
  | tmp_peer :: rest =>
    { t with peer_list := rest
             closed := t.closed ++ if tmp_peer.open_con then [tmp_peer.socket_fd] else [] }

/-- What the mutexes guard, and the calls on it. -/
def client_data (Conn : Type) [DecidableEq Conn] : Mutex.Guarded Lock where
  X
    | .mht_mutex => MessageTable Conn
    | .peer_list => PeerData
    | .client_list => List Conn
  Call := LockedCall Conn
  R
    | .client_has_seen_msg _ _ => Bool
    | .client_hash_add_msg _ _ _ => Bool
    | .list_size => Nat
    | _ => Unit
  guard
    | .client_has_seen_msg _ _ => .mht_mutex
    | .client_hash_add_msg _ _ _ => .mht_mutex
    | .list_remove _ => .client_list
    | _ => .peer_list
  perform
    | .client_has_seen_msg mem msg => fun (t : MessageTable Conn) =>
      (client_has_seen_msg mem t msg, t)
    | .client_hash_add_msg mem now msg => fun (t : MessageTable Conn) =>
      ((client_hash_add_msg mem now t msg).2, (client_hash_add_msg mem now t msg).1)
    | .list_size => fun (p : PeerData) => (p.peers.peer_list.length, p)
    | .send_msg_peer i msg => fun (p : PeerData) =>
      ((), { p with sent := p.sent ++
        (p.peers.peer_list[i]?.bind fun to_send => send_msg_peer to_send msg).toList })
    | .remove_first => fun (p : PeerData) => ((), { p with peers := remove_first p.peers })
    | .list_add fd ip_addr port => fun (p : PeerData) =>
      ((), { p with peers := add_peer fd p.peers ip_addr port })
    | .list_remove client => fun (l : List Conn) => ((), l.erase client)

/-- The code of a thread. -/
abbrev ClientCode (Conn : Type) [DecidableEq Conn] := Mutex.Thread (client_data Conn) Unit

/-- `client_has_seen_msg`, and what comes after it. -/
def call_has_seen_msg (mem : Ptr Conn → Str) (msg : Ptr Conn) (next : Bool → ClientCode Conn) :
    ClientCode Conn :=
  .call (LockedCall.client_has_seen_msg mem msg) next

/-- `client_hash_add_msg`, and what comes after it. -/
def call_hash_add_msg (mem : Ptr Conn → Str) (now : Nat) (msg : Ptr Conn)
    (next : Bool → ClientCode Conn) : ClientCode Conn :=
  .call (LockedCall.client_hash_add_msg mem now msg) next

/-- `list_size`, and what comes after it. -/
def call_list_size (next : Nat → ClientCode Conn) : ClientCode Conn :=
  .call LockedCall.list_size next

/-- `send_msg_peer`, and what comes after it. -/
def call_send_msg_peer (i : Nat) (msg : List UInt8) (next : ClientCode Conn) : ClientCode Conn :=
  .call (LockedCall.send_msg_peer i msg) fun _ => next

/-- A turn of `clean_peers_list`, and what comes after it. -/
def call_remove_first (next : ClientCode Conn) : ClientCode Conn :=
  .call LockedCall.remove_first fun _ => next

/-- `list_add`, and what comes after it. -/
def call_list_add (fd : Nat → Int) (ip_addr port : Str) (next : ClientCode Conn) :
    ClientCode Conn :=
  .call (LockedCall.list_add fd ip_addr port) fun _ => next

/-- `list_remove`, and what comes after it. -/
def call_list_remove (client : Conn) (next : ClientCode Conn) : ClientCode Conn :=
  .call (LockedCall.list_remove client) fun _ => next

/-- The loop of `client_send_to_all_peers` behind its `i`th test.  The list does not grow
while it is locked, so its first size bounds the turns. -/
def send_turns (msg : List UInt8) (next : ClientCode Conn) : Nat → Nat → ClientCode Conn
  | 0, _ => next
  | turns + 1, i =>
    call_send_msg_peer i msg <| call_list_size fun size =>
      if i + 1 < size then send_turns msg next turns (i + 1) else next

/-- `client_send_to_all_peers`. -/
def code_client_send_to_all_peers (msg : List UInt8) (next : ClientCode Conn) : ClientCode Conn :=
  .lock .peer_list <| call_list_size fun size =>
    send_turns msg (.unlock .peer_list next) size 0

/-- The loop of `clean_peers_list` behind a test that found the list not empty. -/
def clean_turns (next : ClientCode Conn) : Nat → ClientCode Conn
  | 0 => next
  | turns + 1 =>
    call_remove_first <| call_list_size fun size =>
      if 0 < size then clean_turns next turns else next

/-- `clean_peers_list`. -/
def code_clean_peers_list (next : ClientCode Conn) : ClientCode Conn :=
  .lock .peer_list <| call_list_size fun size => clean_turns (.unlock .peer_list next) size

/-- What a thread reads besides what is locked: the memory at a lookup and at an insertion, and
the clock. -/
structure Moment (Conn : Type) where
  lookup : Ptr Conn → Str
  insertion : Ptr Conn → Str
  time : Nat

/-- `client_parse_msg` up to the decoding. -/
def code_client_parse_msg (r : Moment Conn) (c : Conn) (msg : List UInt8) (next : ClientCode Conn) :
    ClientCode Conn :=
  .lock .mht_mutex <| call_has_seen_msg r.lookup (.recv c) fun seen =>
    if seen then
      .unlock .mht_mutex next
    else
      call_hash_add_msg r.insertion r.time (.recv c) fun _ =>
        .unlock .mht_mutex (code_client_send_to_all_peers msg next)

/-- `input_send_msg` from the padded message on, which is at the address `a`.  When the table
frees it, `freed` is what is broadcast, and the second `free` ends the thread. -/
def code_input_send_msg (r : Moment Conn) (a : Nat) (padded_msg freed : List UInt8)
    (next : ClientCode Conn) : ClientCode Conn :=
  .lock .mht_mutex <| call_hash_add_msg r.insertion r.time (.block a) fun found =>
    -- the result is only printed
    call_has_seen_msg r.lookup (.block a) fun _ =>
      .unlock .mht_mutex <|
        if found then code_client_send_to_all_peers freed (.ret ())
        else code_client_send_to_all_peers padded_msg next

/-! ## The steps -/

/-- What a thread has to do from one lock to its release. -/
inductive Stretch (Conn : Type) where
  /-- `client_parse_msg` with the message table. -/
  | parse (r : Moment Conn) (c : Conn) (msg : List UInt8)
  /-- `input_send_msg` with the message table. -/
  | input (r : Moment Conn) (a : Nat) (padded_msg freed : List UInt8)
  /-- `client_send_to_all_peers`. -/
  | broadcast (msg : List UInt8)
  /-- `clean_peers_list`. -/
  | clean
  /-- `parse_peers` at a complete entry. -/
  | add (fd : Nat → Int) (entry : Str × Str)
  /-- `client_handle` behind its loop. -/
  | leave (client : Conn)

/-- The code of a thread with this to do. -/
def code_of : List (Stretch Conn) → ClientCode Conn
  | [] => .ret ()
  | .parse r c msg :: rest => code_client_parse_msg r c msg (code_of rest)
  | .input r a padded_msg freed :: rest => code_input_send_msg r a padded_msg freed (code_of rest)
  | .broadcast msg :: rest => code_client_send_to_all_peers msg (code_of rest)
  | .clean :: rest => code_clean_peers_list (code_of rest)
  | .add fd entry :: rest =>
    .lock .peer_list <| call_list_add fd entry.1 entry.2 <| .unlock .peer_list (code_of rest)
  | .leave client :: rest =>
    .lock .client_list <| call_list_remove client <| .unlock .client_list (code_of rest)

/-- The shared data of a client, and what each of its threads has to do. -/
structure LockedClient (Conn Tid : Type) where
  message_hash_table : MessageTable Conn
  peers : Peers
  sent : List Send
  client_list : List Conn
  todo : Tid → List (Stretch Conn)

variable {Tid : Type} [DecidableEq Tid]

/-- One stretch of the thread `t`, as one step. -/
def locked_step (s : LockedClient Conn Tid) (t : Tid) : LockedClient Conn Tid :=
  match s.todo t with
  | [] => s
  | .parse r c msg :: rest =>
    if client_has_seen_msg r.lookup s.message_hash_table (.recv c) then
      { s with todo := Function.update s.todo t rest }
    else
      { s with
        message_hash_table :=
          (client_hash_add_msg r.insertion r.time s.message_hash_table (.recv c)).1
        todo := Function.update s.todo t (.broadcast msg :: rest) }
  | .input r a padded_msg freed :: rest =>
    let added := client_hash_add_msg r.insertion r.time s.message_hash_table (.block a)
    { s with
      message_hash_table := added.1
      todo := Function.update s.todo t <|
        if added.2 then [.broadcast freed] else .broadcast padded_msg :: rest }
  | .broadcast msg :: rest =>
    { s with sent := s.sent ++ client_send_to_all_peers s.peers.peer_list msg
             todo := Function.update s.todo t rest }
  | .clean :: rest =>
    { s with peers := clean_peers_list s.peers, todo := Function.update s.todo t rest }
  | .add fd entry :: rest =>
    { s with peers := add_peer fd s.peers entry.1 entry.2, todo := Function.update s.todo t rest }
  | .leave client :: rest =>
    { s with client_list := s.client_list.erase client, todo := Function.update s.todo t rest }

/-- A message that was seen before is dropped. -/
theorem locked_step_seen {s : LockedClient Conn Tid} {t : Tid} {r : Moment Conn} {c : Conn}
    {msg : List UInt8} {rest : List (Stretch Conn)} (htodo : s.todo t = .parse r c msg :: rest)
    (hseen : client_has_seen_msg r.lookup s.message_hash_table (.recv c) = true) :
    locked_step s t = { s with todo := Function.update s.todo t rest } := by
  rw [locked_step, htodo]
  exact if_pos hseen

/-- A message that was not is added, and then to be passed on. -/
theorem locked_step_unseen {s : LockedClient Conn Tid} {t : Tid} {r : Moment Conn} {c : Conn}
    {msg : List UInt8} {rest : List (Stretch Conn)} (htodo : s.todo t = .parse r c msg :: rest)
    (hseen : ¬ client_has_seen_msg r.lookup s.message_hash_table (.recv c) = true) :
    locked_step s t = { s with
      message_hash_table :=
        (client_hash_add_msg r.insertion r.time s.message_hash_table (.recv c)).1
      todo := Function.update s.todo t (.broadcast msg :: rest) } := by
  rw [locked_step, htodo]
  exact if_neg hseen

/-- A padded message is added, and then to be broadcast. -/
theorem locked_step_input {s : LockedClient Conn Tid} {t : Tid} {r : Moment Conn} {a : Nat}
    {padded_msg freed : List UInt8} {rest : List (Stretch Conn)}
    (htodo : s.todo t = .input r a padded_msg freed :: rest) :
    locked_step s t = { s with
      message_hash_table :=
        (client_hash_add_msg r.insertion r.time s.message_hash_table (.block a)).1
      todo := Function.update s.todo t <|
        if (client_hash_add_msg r.insertion r.time s.message_hash_table (.block a)).2 then
          [.broadcast freed]
        else .broadcast padded_msg :: rest } := by
  rw [locked_step, htodo]

/-- What was added is broadcast. -/
theorem locked_step_added (s : LockedClient Conn Tid) (t : Tid) (table : MessageTable Conn)
    (msg : List UInt8) (rest : List (Stretch Conn)) :
    locked_step { s with message_hash_table := table
                         todo := Function.update s.todo t (.broadcast msg :: rest) } t =
      { s with message_hash_table := table
               sent := s.sent ++ client_send_to_all_peers s.peers.peer_list msg
               todo := Function.update s.todo t rest } := by
  simp only [locked_step, Function.update_self, Function.update_idem]

/-- What the mutexes guard in this state. -/
def LockedClient.shared (s : LockedClient Conn Tid) : Mutex.Shared (client_data Conn)
  | .mht_mutex => s.message_hash_table
  | .peer_list => (⟨s.peers, s.sent⟩ : PeerData)
  | .client_list => s.client_list

/-- The state with the code of each thread. -/
def LockedClient.code (s : LockedClient Conn Tid) : Mutex.Atomic (client_data Conn) Tid Unit :=
  ⟨s.shared, fun t => code_of (s.todo t)⟩

end Code

/-! ## The discipline -/

section Discipline
variable {Conn : Type} [DecidableEq Conn] {next : ClientCode Conn}
open Mutex (Disciplined)

theorem disciplined_call_list_size {f : Nat → ClientCode Conn}
    (h : ∀ size, Disciplined (some Lock.peer_list) none (f size)) :
    Disciplined (some Lock.peer_list) none (call_list_size f) := ⟨rfl, h⟩

theorem disciplined_send_turns (msg : List UInt8)
    (h : Disciplined (some Lock.peer_list) none next) (turns i : Nat) :
    Disciplined (some Lock.peer_list) none (send_turns msg next turns i) := by
  induction turns generalizing i with
  | zero => exact h
  | succ turns ih =>
    refine ⟨rfl, fun _ => disciplined_call_list_size fun size => ?_⟩
    by_cases hsize : i + 1 < size
    · rw [if_pos hsize]
      exact ih (i + 1)
    · rw [if_neg hsize]
      exact h

theorem disciplined_broadcast (msg : List UInt8) (h : Disciplined none none next) :
    Disciplined none none (code_client_send_to_all_peers msg next) :=
  ⟨rfl, disciplined_call_list_size fun size =>
    disciplined_send_turns msg (show Disciplined _ _ (.unlock _ _) from ⟨rfl, h⟩) size 0⟩

theorem disciplined_clean_turns (h : Disciplined (some Lock.peer_list) none next) (turns : Nat) :
    Disciplined (some Lock.peer_list) none (clean_turns next turns) := by
  induction turns with
  | zero => exact h
  | succ turns ih =>
    refine ⟨rfl, fun _ => disciplined_call_list_size fun size => ?_⟩
    by_cases hsize : 0 < size
    · rw [if_pos hsize]
      exact ih
    · rw [if_neg hsize]
      exact h

/-- **The threads keep the discipline**, on every path through their code. -/
theorem disciplined_code_of (todo : List (Stretch Conn)) :
    Disciplined none none (code_of todo) := by
  induction todo with
  | nil => rfl
  | cons stretch rest ih =>
    cases stretch with
    | parse r c msg =>
      refine ⟨rfl, rfl, fun seen => ?_⟩
      cases seen with
      | true => exact ⟨rfl, ih⟩
      | false => exact ⟨rfl, fun _ => ⟨rfl, disciplined_broadcast msg ih⟩⟩
    | input r a padded_msg freed =>
      refine ⟨rfl, rfl, fun found => ⟨rfl, fun _ => ⟨rfl, ?_⟩⟩⟩
      cases found with
      | true => exact disciplined_broadcast freed rfl
      | false => exact disciplined_broadcast padded_msg ih
    | broadcast msg => exact disciplined_broadcast msg ih
    | clean =>
      exact ⟨rfl, disciplined_call_list_size fun size =>
        disciplined_clean_turns (show Disciplined _ _ (.unlock _ _) from ⟨rfl, ih⟩) size⟩
    | add fd entry => exact ⟨rfl, rfl, fun _ => ⟨rfl, ih⟩⟩
    | leave client => exact ⟨rfl, rfl, fun _ => ⟨rfl, ih⟩⟩

end Discipline

/-! ## The stretches -/

section Stretches
variable {Conn Tid : Type} [DecidableEq Conn] (s : LockedClient Conn Tid)
open Mutex (critical)

theorem update_message_hash_table (table : MessageTable Conn) :
    Function.update s.shared .mht_mutex table = { s with message_hash_table := table }.shared := by
  funext ℓ
  cases ℓ <;> rfl

theorem update_peer_data (peers : Peers) (sent : List Send) :
    Function.update s.shared .peer_list (⟨peers, sent⟩ : PeerData) =
      { s with peers := peers, sent := sent }.shared := by
  funext ℓ
  cases ℓ <;> rfl

theorem update_client_list (client_list : List Conn) :
    Function.update s.shared .client_list client_list =
      { s with client_list := client_list }.shared := by
  funext ℓ
  cases ℓ <;> rfl

theorem critical_has_seen_msg (mem : Ptr Conn → Str) (msg : Ptr Conn)
    (f : Bool → ClientCode Conn) :
    critical (call_has_seen_msg mem msg f) s.shared =
      critical (f (client_has_seen_msg mem s.message_hash_table msg)) s.shared :=
  congrArg (critical (f _)) (update_message_hash_table s s.message_hash_table)

theorem critical_hash_add_msg (mem : Ptr Conn → Str) (now : Nat) (msg : Ptr Conn)
    (f : Bool → ClientCode Conn) :
    critical (call_hash_add_msg mem now msg f) s.shared =
      critical (f (client_hash_add_msg mem now s.message_hash_table msg).2)
        { s with message_hash_table :=
          (client_hash_add_msg mem now s.message_hash_table msg).1 }.shared :=
  congrArg (critical (f _)) (update_message_hash_table s _)

theorem critical_list_size (f : Nat → ClientCode Conn) :
    critical (call_list_size f) s.shared =
      critical (f s.peers.peer_list.length) s.shared :=
  congrArg (critical (f _)) (update_peer_data s s.peers s.sent)

theorem critical_send_msg_peer (i : Nat) (msg : List UInt8) (next : ClientCode Conn) :
    critical (call_send_msg_peer i msg next) s.shared =
      critical next { s with sent := s.sent ++ (s.peers.peer_list[i]?.bind fun to_send =>
        send_msg_peer to_send msg).toList }.shared :=
  congrArg (critical next) (update_peer_data s _ _)

theorem critical_remove_first (next : ClientCode Conn) :
    critical (call_remove_first next) s.shared =
      critical next { s with peers := remove_first s.peers }.shared :=
  congrArg (critical next) (update_peer_data s _ _)

/-- The rest of the loop sends to the rest of the list. -/
theorem critical_send_turns (msg : List UInt8) (next : ClientCode Conn) {turns i : Nat}
    (h : i + turns = s.peers.peer_list.length) :
    critical (send_turns msg (.unlock .peer_list next) turns i) s.shared =
      (next, { s with sent := s.sent ++
        client_send_to_all_peers (s.peers.peer_list.drop i) msg }.shared) := by
  induction turns generalizing i s with
  | zero =>
    rw [List.drop_eq_nil_of_le (by omega)]
    simp [send_turns, critical, client_send_to_all_peers]
  | succ turns ih =>
    have hi : i < s.peers.peer_list.length := by omega
    have hdrop : client_send_to_all_peers (s.peers.peer_list.drop i) msg =
        (s.peers.peer_list[i]?.bind fun to_send => send_msg_peer to_send msg).toList ++
          client_send_to_all_peers (s.peers.peer_list.drop (i + 1)) msg := by
      rw [List.drop_eq_getElem_cons hi, List.getElem?_eq_getElem hi, client_send_to_all_peers,
        List.filterMap_cons]
      cases hsend : send_msg_peer s.peers.peer_list[i] msg with
      | none => simp [hsend, client_send_to_all_peers]
      | some send => simp [hsend, client_send_to_all_peers]
    rw [send_turns, critical_send_msg_peer, critical_list_size, hdrop, ← List.append_assoc]
    by_cases hmore : i + 1 < s.peers.peer_list.length
    · rw [if_pos hmore]
      exact ih _ (by simpa [Nat.add_assoc, Nat.add_comm 1] using h)
    · -- the last turn
      have hturns : turns = 0 := by omega
      subst hturns
      rw [if_neg hmore]
      exact ih _ (by simpa using h)

/-- The rest of the loop takes every peer out, and closes the sockets of those that are open. -/
theorem critical_clean_turns (next : ClientCode Conn) {turns : Nat}
    (h : turns = s.peers.peer_list.length) :
    critical (clean_turns (.unlock .peer_list next) turns) s.shared =
      (next, { s with peers := clean_peers_list s.peers }.shared) := by
  induction turns generalizing s with
  | zero =>
    have hnil : s.peers.peer_list = [] := List.eq_nil_of_length_eq_zero h.symm
    have hclean : clean_peers_list s.peers = s.peers := by
      rcases s with ⟨table, ⟨peer_list, peer_id, closed⟩, sent, client_list, todo⟩
      cases hnil
      simp [clean_peers_list]
    rw [hclean]
    rfl
  | succ turns ih =>
    rcases s with ⟨table, ⟨peer_list, peer_id, closed⟩, sent, client_list, todo⟩
    cases peer_list with
    | nil => cases h
    | cons tmp_peer rest =>
      have hturns : turns = rest.length := Nat.succ.inj h
      have hclean : clean_peers_list (remove_first ⟨tmp_peer :: rest, peer_id, closed⟩) =
          clean_peers_list ⟨tmp_peer :: rest, peer_id, closed⟩ := by
        cases hopen : tmp_peer.open_con <;> simp [clean_peers_list, remove_first, hopen]
      rw [clean_turns, critical_remove_first, critical_list_size, ← hclean]
      by_cases hmore : 0 < rest.length
      · exact (congrArg (critical · _) (if_pos hmore)).trans (ih _ hturns)
      · -- nobody was behind the last one
        have hnil : turns = 0 := by omega
        subst hnil
        exact (congrArg (critical · _) (if_neg hmore)).trans (ih _ hturns)

/-- A stretch of the code that comes to what the step comes to. -/
theorem atomic_step_of_critical {Tid : Type} [DecidableEq Tid] {s s' : LockedClient Conn Tid}
    {t : Tid} {ℓ : Lock} {next : ClientCode Conn} {rest : List (Stretch Conn)}
    (hcode : code_of (s.todo t) = .lock ℓ next)
    (hcritical : critical next s.shared = (code_of rest, s'.shared))
    (htodo : s'.todo = Function.update s.todo t rest) :
    Mutex.atomic_step s.code t = s'.code := by
  have hthread : s.code.threads t = .lock ℓ next := hcode
  have hthreads : s'.code.threads = Function.update s.code.threads t (code_of rest) := by
    funext u
    show code_of (s'.todo u) = _
    rw [htodo]
    by_cases hu : u = t
    · subst hu
      rw [Function.update_self, Function.update_self]
    · rw [Function.update_of_ne hu, Function.update_of_ne hu]
      rfl
  have hdone : critical next s.code.shared = (code_of rest, s'.shared) := hcritical
  rw [Mutex.atomic_step_of_lock hthread, hdone, ← hthreads]
  rfl

/-- **A stretch of the code is one step.** -/
theorem atomic_step_code {Tid : Type} [DecidableEq Tid] (s : LockedClient Conn Tid) (t : Tid) :
    Mutex.atomic_step s.code t = (locked_step s t).code := by
  cases htodo : s.todo t with
  | nil =>
    have hthread : s.code.threads t = .ret () := congrArg code_of htodo
    rw [Mutex.atomic_step, hthread, locked_step, htodo]
  | cons stretch rest =>
    have hcode : code_of (s.todo t) = code_of (stretch :: rest) := congrArg code_of htodo
    cases stretch with
    | parse r c msg =>
      by_cases hseen : client_has_seen_msg r.lookup s.message_hash_table (.recv c) = true
      · rw [locked_step_seen htodo hseen]
        refine atomic_step_of_critical hcode ?_ rfl
        rw [critical_has_seen_msg, if_pos hseen]
        rfl
      · rw [locked_step_unseen htodo hseen]
        refine atomic_step_of_critical hcode ?_
          (show _ = Function.update s.todo t (.broadcast msg :: rest) from rfl)
        rw [critical_has_seen_msg, if_neg hseen, critical_hash_add_msg]
        rfl
    | input r a padded_msg freed =>
      rw [locked_step, htodo]
      refine atomic_step_of_critical hcode ?_ rfl
      rw [critical_hash_add_msg, critical_has_seen_msg]
      by_cases hfound :
          (client_hash_add_msg r.insertion r.time s.message_hash_table (.block a)).2 = true
      · rw [if_pos hfound, if_pos hfound]
        rfl
      · rw [if_neg hfound, if_neg hfound]
        rfl
    | broadcast msg =>
      rw [locked_step, htodo]
      refine atomic_step_of_critical hcode ?_ rfl
      rw [critical_list_size]
      exact critical_send_turns s msg (code_of rest) (Nat.zero_add _)
    | clean =>
      rw [locked_step, htodo]
      refine atomic_step_of_critical hcode ?_ rfl
      rw [critical_list_size]
      exact critical_clean_turns s (code_of rest) rfl
    | add fd entry =>
      rw [locked_step, htodo]
      refine atomic_step_of_critical hcode ?_ rfl
      exact congrArg (Prod.mk (code_of rest)) (update_peer_data s _ _)
    | leave client =>
      rw [locked_step, htodo]
      refine atomic_step_of_critical hcode ?_ rfl
      exact congrArg (Prod.mk (code_of rest)) (update_client_list s _)

end Stretches

/-! ## Runs -/

section Runs
variable {Conn Tid : Type} [DecidableEq Conn] [DecidableEq Tid]

theorem atomic_run_code (s : LockedClient Conn Tid) (order : List Tid) :
    order.foldl Mutex.atomic_step s.code = (order.foldl locked_step s).code := by
  induction order generalizing s with
  | nil => rfl
  | cons t order ih => rw [List.foldl_cons, List.foldl_cons, atomic_step_code, ih]

/-- The threads at their start, with this to do. -/
def start_threads (s : LockedClient Conn Tid) : Mutex.System (client_data Conn) Tid Unit :=
  Mutex.started s.shared fun t => code_of (s.todo t)

theorem start_threads_simulated (s : LockedClient Conn Tid) (schedule : List Tid) :
    Mutex.Simulated (schedule.foldl Mutex.step (start_threads s))
      ((Mutex.releases (start_threads s) schedule).foldl locked_step s).code := by
  have hstart : Mutex.Simulated (start_threads s) s.code :=
    Mutex.simulated_started fun t => disciplined_code_of (s.todo t)
  rw [← atomic_run_code]
  exact Mutex.run_simulated hstart schedule

/-- **The mutexes do their work.**  Whatever order the threads take their locks, calls and
releases in, the data and the threads are where they would be had each stretch from a lock to
its release been one step, taken when the mutex is given back; and as long as a thread has
something to do, one that has can go on. -/
theorem client_threads_refine (s : LockedClient Conn Tid) (schedule : List Tid) :
    (Mutex.releases (start_threads s) schedule).Sublist schedule ∧
      Mutex.Simulated (schedule.foldl Mutex.step (start_threads s))
        ((Mutex.releases (start_threads s) schedule).foldl locked_step s).code ∧
      ((∃ t, ¬ Mutex.Ended (schedule.foldl Mutex.step (start_threads s)) t) →
        ∃ t, ¬ Mutex.Ended (schedule.foldl Mutex.step (start_threads s)) t ∧
          ¬ Mutex.Blocked (schedule.foldl Mutex.step (start_threads s)) t) := by
  have hrun := start_threads_simulated s schedule
  exact ⟨Mutex.releases_sublist _ schedule, hrun, hrun.progress⟩

end Runs

section Alone
variable {evp : EVP} {Conn : Type} [DecidableEq Conn] (s : ClientState evp Conn) (w : World evp)

/-- The process, with a single thread that has this to do. -/
def with_thread (peers : Peers) (todo : List (Stretch Conn)) : LockedClient Conn Unit :=
  ⟨s.message_hash_table, peers, [], [], fun _ => todo⟩

/-- Alone, the stretches of `client_parse_msg` are `client_parse_msg`. -/
theorem client_parse_msg_alone {peers : Peers} (hpeers : peers.peer_list = s.peer_list) (c : Conn)
    (len : Nat) :
    let alone := [(), ()].foldl locked_step (with_thread s peers
      [.parse ⟨s.mem w, s.mem w, w.time⟩ c ((s.buffer c).take len)])
    alone.message_hash_table = (client_parse_msg s w c len).1.message_hash_table ∧
      alone.sent = sends (client_parse_msg s w c len).2 := by
  have htodo : (with_thread s peers [.parse ⟨s.mem w, s.mem w, w.time⟩ c
      ((s.buffer c).take len)]).todo () = [.parse ⟨s.mem w, s.mem w, w.time⟩ c
        ((s.buffer c).take len)] := rfl
  by_cases hseen : client_has_seen_msg (s.mem w) s.message_hash_table (.recv c) = true
  · rw [List.foldl_cons, locked_step_seen htodo hseen, client_parse_msg, if_pos hseen]
    exact ⟨rfl, rfl⟩
  · rw [List.foldl_cons, locked_step_unseen htodo hseen, client_parse_msg, if_neg hseen,
      List.foldl_cons, List.foldl_nil, locked_step_added]
    simp only [with_thread, hpeers, List.nil_append]
    cases hdecode : msg_decode_decrypt evp s.rsa_encrypt_ctx.rsa_decrypt_ctx (s.mem w (.recv c))
      s.private_key with
    | error f => simp [sends]
    | ok r => simp [sends]

/-- Alone, the stretches of `input_send_msg` are what it does with the padded message. -/
theorem input_send_msg_alone {peers : Peers} (hpeers : peers.peer_list = s.peer_list)
    {input padded_msg : Str} {ctx : evp.Ctx}
    (hpadded : padded_input s w input = (.ok (some padded_msg), ctx)) :
    let r : Moment Conn := ⟨Function.update (s.mem w) (.block w.malloc) padded_msg,
      Function.update (s.mem w) (.block w.malloc) padded_msg, w.time⟩
    let alone := [(), ()].foldl locked_step
      (with_thread s peers [.input r w.malloc padded_msg (s.mem w (.block w.malloc))])
    alone.message_hash_table = (input_send_msg s w input).1.message_hash_table ∧
      alone.sent = sends (input_send_msg s w input).2.1 := by
  intro r
  have htodo : ∀ todo : List (Stretch Conn), (with_thread s peers todo).todo () = todo :=
    fun _ => rfl
  rw [List.foldl_cons, locked_step_input (htodo _), input_send_msg, hpadded, List.foldl_cons,
    List.foldl_nil]
  have hadd : ∀ todo, client_hash_add_msg r.insertion r.time
      (with_thread s peers todo).message_hash_table (.block w.malloc) = add_padded s w padded_msg :=
    fun _ => rfl
  by_cases hfound : (add_padded s w padded_msg).2 = true
  · rw [hadd, if_pos hfound, locked_step_added]
    simp [with_thread, sends, hpeers, hfound]
  · rw [hadd, if_neg hfound, locked_step_added]
    simp [with_thread, sends, hpeers, hfound]

end Alone

/-! ## A message over many connections -/

section Burst
variable {Conn : Type} [DecidableEq Conn] (mem : Ptr Conn → Str) (now : Conn → Nat)
  (msgs : Conn → Option (List UInt8)) (table : MessageTable Conn) (peers : Peers)

/-- The text of the message in a receive buffer. -/
def text_in (c : Conn) : Str := mem (.recv c)

/-- The table knows the text. -/
def KnownText (text : Str) : Prop := ∃ key, Holds table (g_str_hash text) key ∧ mem key = text

/-- The thread of each connection with a message handles it; the memory stays as it is. -/
def burst_todo (c : Conn) : List (Stretch Conn) :=
  match msgs c with
  | none => []
  | some msg => [.parse ⟨mem, mem, now c⟩ c msg]

/-- A client at that time. -/
def burst : LockedClient Conn Conn := ⟨table, peers, [], [], burst_todo mem now msgs⟩

/-- What the threads of these connections send. -/
def passed_on (passed : List Conn) : List Send :=
  passed.flatMap fun c => client_send_to_all_peers peers.peer_list ((msgs c).getD [])

/-- In the middle of it: `added` have added their messages, and `passed` of them have passed them
on. -/
structure Midway (s : LockedClient Conn Conn) (added passed : List Conn) : Prop where
  unchanged : s.peers = peers
  sent : s.sent = passed_on msgs peers passed
  holds : ∀ h key, Holds s.message_hash_table h key ↔ Holds table h key ∨
    ∃ c ∈ added, h = g_str_hash (text_in mem c) ∧ key = .recv c
  distinct : (added.map (text_in mem)).Nodup
  unknown : ∀ c ∈ added, ¬ KnownText mem table (text_in mem c)
  carried : ∀ c ∈ added, ∃ msg, msgs c = some msg
  subset : passed ⊆ added
  once : passed.Nodup
  thread : ∀ c,
    (∃ msg, msgs c = some msg ∧ s.todo c = [.parse ⟨mem, mem, now c⟩ c msg] ∧ c ∉ added) ∨
    (∃ msg, msgs c = some msg ∧ s.todo c = [.broadcast msg] ∧ c ∈ added ∧ c ∉ passed) ∨
    (s.todo c = [] ∧ (c ∈ added → c ∈ passed) ∧ ∀ msg, msgs c = some msg →
      KnownText mem table (text_in mem c) ∨ text_in mem c ∈ added.map (text_in mem))

variable {mem now msgs table peers} {s : LockedClient Conn Conn} {added passed : List Conn}
  {c : Conn}

omit [DecidableEq Conn] in
theorem midway_burst : Midway mem now msgs table peers (burst mem now msgs table peers) [] [] where
  unchanged := rfl
  sent := rfl
  holds h key := by simp [burst]
  distinct := List.nodup_nil
  unknown c hc := absurd hc List.not_mem_nil
  carried c hc := absurd hc List.not_mem_nil
  subset := List.Subset.refl _
  once := List.nodup_nil
  thread c := by
    cases hmsg : msgs c with
    | none => exact Or.inr (Or.inr ⟨by simp [burst, burst_todo, hmsg], by simp, by simp⟩)
    | some msg => exact Or.inl ⟨msg, rfl, by simp [burst, burst_todo, hmsg], List.not_mem_nil⟩

omit [DecidableEq Conn] in
/-- The lookup finds what the table knew and what was added since. -/
theorem Midway.seen_iff (h : Midway mem now msgs table peers s added passed) :
    client_has_seen_msg mem s.message_hash_table (.recv c) = true ↔
      KnownText mem table (text_in mem c) ∨ text_in mem c ∈ added.map (text_in mem) := by
  rw [client_has_seen_msg_iff]
  constructor
  · rintro ⟨key, hholds, hkey⟩
    rcases (h.holds _ _).mp hholds with hold | ⟨c', hc', -, rfl⟩
    · exact Or.inl ⟨key, hold, hkey⟩
    · exact Or.inr (List.mem_map.mpr ⟨c', hc', hkey⟩)
  · rintro (⟨key, hold, hkey⟩ | hadded)
    · exact ⟨key, (h.holds _ _).mpr (Or.inl hold), hkey⟩
    · obtain ⟨c', hc', hsame⟩ := List.mem_map.mp hadded
      refine ⟨.recv c', (h.holds _ _).mpr (Or.inr ⟨c', hc', ?_, rfl⟩), hsame⟩
      rw [hsame]
      rfl

/-- A thread that finds its message drops it. -/
theorem Midway.seen (h : Midway mem now msgs table peers s added passed) {msg : List UInt8}
    (hmsg : msgs c = some msg) (hadded : c ∉ added)
    (hseen : KnownText mem table (text_in mem c) ∨ text_in mem c ∈ added.map (text_in mem)) :
    Midway mem now msgs table peers { s with todo := Function.update s.todo c [] } added passed :=
  { h with
    thread := by
      intro c'
      show (∃ msg', _ ∧ Function.update s.todo c [] c' = _ ∧ _) ∨
        (∃ msg', _ ∧ Function.update s.todo c [] c' = _ ∧ _) ∨
        (Function.update s.todo c [] c' = _ ∧ _)
      by_cases hc : c' = c
      · subst hc
        rw [Function.update_self]
        exact Or.inr (Or.inr ⟨rfl, fun hin => absurd hin hadded, fun _ _ => hseen⟩)
      · rw [Function.update_of_ne hc]
        exact h.thread c' }

/-- A thread that does not adds it, and nobody else can add the same text any more. -/
theorem Midway.unseen (h : Midway mem now msgs table peers s added passed) {msg : List UInt8}
    (hmsg : msgs c = some msg) (hadded : c ∉ added)
    (hunseen : ¬ client_has_seen_msg mem s.message_hash_table (.recv c) = true) :
    Midway mem now msgs table peers
      { s with
        message_hash_table := (client_hash_add_msg mem (now c) s.message_hash_table (.recv c)).1
        todo := Function.update s.todo c [.broadcast msg] } (added ++ [c]) passed where
  unchanged := h.unchanged
  sent := h.sent
  holds hash key := by
    have hkept : (client_hash_add_msg mem (now c) s.message_hash_table (.recv c)).2 = false := by
      rw [← Bool.not_eq_true, client_hash_add_msg_freed_iff, ← client_has_seen_msg_iff]
      exact hunseen
    rw [holds_add_msg_iff, h.holds, hkept]
    simp [or_assoc, or_and_right, exists_or, text_in]
  distinct := by
    rw [List.map_append, List.nodup_append]
    refine ⟨h.distinct, List.nodup_singleton _, ?_⟩
    rintro text htext text' htext' rfl
    rw [List.mem_singleton.mp htext'] at htext
    exact hunseen (h.seen_iff.mpr (Or.inr htext))
  unknown c' hc' := by
    rcases List.mem_append.mp hc' with hc' | hc'
    · exact h.unknown c' hc'
    · rw [List.mem_singleton.mp hc']
      exact fun hknown => hunseen (h.seen_iff.mpr (Or.inl hknown))
  carried c' hc' := by
    rcases List.mem_append.mp hc' with hc' | hc'
    · exact h.carried c' hc'
    · rw [List.mem_singleton.mp hc']
      exact ⟨msg, hmsg⟩
  subset _ hc' := List.mem_append_left _ (h.subset hc')
  once := h.once
  thread c' := by
    show (∃ msg', _ ∧ Function.update s.todo c [.broadcast msg] c' = _ ∧ _) ∨
      (∃ msg', _ ∧ Function.update s.todo c [.broadcast msg] c' = _ ∧ _) ∨
      (Function.update s.todo c [.broadcast msg] c' = _ ∧ _)
    by_cases hc : c' = c
    · subst hc
      rw [Function.update_self]
      refine Or.inr (Or.inl ⟨msg, hmsg, rfl, by simp, fun hin => hadded (h.subset hin)⟩)
    · have hmem : c' ∈ added ++ [c] ↔ c' ∈ added := by simp [hc]
      rw [Function.update_of_ne hc, hmem]
      rcases h.thread c' with hparse | hsend | ⟨hnil, hdone, hknown⟩
      · exact Or.inl hparse
      · exact Or.inr (Or.inl hsend)
      · refine Or.inr (Or.inr ⟨hnil, hdone, fun msg' hmsg' => ?_⟩)
        rw [List.map_append, List.mem_append, ← or_assoc]
        exact Or.inl (hknown msg' hmsg')

/-- A thread passes on what it has added. -/
theorem Midway.pass_on (h : Midway mem now msgs table peers s added passed) {msg : List UInt8}
    (hmsg : msgs c = some msg) (hadded : c ∈ added) (hpassed : c ∉ passed) :
    Midway mem now msgs table peers
      { s with sent := s.sent ++ client_send_to_all_peers s.peers.peer_list msg
               todo := Function.update s.todo c [] } added (passed ++ [c]) where
  unchanged := h.unchanged
  sent := by
    show s.sent ++ _ = _
    rw [h.sent, h.unchanged]
    simp [passed_on, hmsg]
  holds := h.holds
  distinct := h.distinct
  unknown := h.unknown
  carried := h.carried
  subset := List.append_subset.mpr ⟨h.subset, by simpa using hadded⟩
  once := List.nodup_append.mpr ⟨h.once, List.nodup_singleton _, by
    rintro c' hc' c'' hc'' rfl
    rw [List.mem_singleton.mp hc''] at hc'
    exact hpassed hc'⟩
  thread c' := by
    show (∃ msg', _ ∧ Function.update s.todo c [] c' = _ ∧ _) ∨
      (∃ msg', _ ∧ Function.update s.todo c [] c' = _ ∧ _) ∨
      (Function.update s.todo c [] c' = _ ∧ _)
    by_cases hc : c' = c
    · subst hc
      rw [Function.update_self]
      exact Or.inr (Or.inr ⟨rfl, fun _ => by simp, fun _ _ => Or.inr (List.mem_map_of_mem hadded)⟩)
    · have hmem : c' ∈ passed ++ [c] ↔ c' ∈ passed := by simp [hc]
      rw [Function.update_of_ne hc, hmem]
      exact h.thread c'

/-- **One step** of the burst. -/
theorem Midway.step (h : Midway mem now msgs table peers s added passed) (c : Conn) :
    ∃ added' passed', Midway mem now msgs table peers (locked_step s c) added' passed' := by
  rcases h.thread c with ⟨msg, hmsg, htodo, hadded⟩ | ⟨msg, hmsg, htodo, hadded, hpassed⟩ |
    ⟨htodo, -, -⟩
  · by_cases hseen : client_has_seen_msg mem s.message_hash_table (.recv c) = true
    · rw [locked_step_seen htodo hseen]
      exact ⟨added, passed, h.seen hmsg hadded (h.seen_iff.mp hseen)⟩
    · rw [locked_step_unseen htodo hseen]
      exact ⟨added ++ [c], passed, h.unseen hmsg hadded hseen⟩
  · rw [locked_step, htodo]
    exact ⟨added, passed ++ [c], h.pass_on hmsg hadded hpassed⟩
  · rw [locked_step, htodo]
    exact ⟨added, passed, h⟩

theorem midway_run (h : Midway mem now msgs table peers s added passed) (order : List Conn) :
    ∃ added' passed',
      Midway mem now msgs table peers (order.foldl locked_step s) added' passed' := by
  induction order generalizing s added passed with
  | nil => exact ⟨added, passed, h⟩
  | cons c order ih =>
    obtain ⟨added', passed', hstep⟩ := h.step c
    exact ih hstep

omit [DecidableEq Conn] in
/-- When nobody has anything to do, what was added was passed on, and it is what was new. -/
theorem Midway.done (h : Midway mem now msgs table peers s added passed)
    (hdone : ∀ c, s.todo c = []) :
    (passed.map (text_in mem)).Nodup ∧ ∀ c msg, msgs c = some msg →
      (text_in mem c ∈ passed.map (text_in mem) ↔ ¬ KnownText mem table (text_in mem c)) := by
  have hpassed : ∀ c ∈ added, c ∈ passed := by
    intro c hadded
    rcases h.thread c with ⟨_, _, htodo, _⟩ | ⟨_, _, htodo, _⟩ | ⟨-, hin, -⟩
    · rw [hdone c] at htodo
      cases htodo
    · rw [hdone c] at htodo
      cases htodo
    · exact hin hadded
  refine ⟨?_, fun c msg hmsg => ⟨fun hin => ?_, fun hnew => ?_⟩⟩
  · refine List.Nodup.map_on (fun c hc c' hc' hsame => ?_) h.once
    exact List.inj_on_of_nodup_map h.distinct (h.subset hc) (h.subset hc') hsame
  · obtain ⟨c', hc', hsame⟩ := List.mem_map.mp hin
    rw [← hsame]
    exact h.unknown c' (h.subset hc')
  · rcases h.thread c with ⟨_, _, htodo, _⟩ | ⟨_, _, htodo, _⟩ | ⟨-, -, hknown⟩
    · rw [hdone c] at htodo
      cases htodo
    · rw [hdone c] at htodo
      cases htodo
    · have hadded := (hknown msg hmsg).resolve_left hnew
      obtain ⟨c', hc', hsame⟩ := List.mem_map.mp hadded
      exact List.mem_map.mpr ⟨c', hpassed c' hc', hsame⟩

theorem eq_nil_of_code_of {todo : List (Stretch Conn)} (h : ∃ a, code_of todo = .ret a) :
    todo = [] := by
  obtain ⟨a, h⟩ := h
  cases todo with
  | nil => rfl
  | cons stretch rest =>
    cases stretch <;>
      simp [code_of, code_client_parse_msg, code_input_send_msg, code_client_send_to_all_peers,
        code_clean_peers_list] at h

/-- **Exactly one thread passes a message on.**  The threads of any number of connections have
each read a message, and run in any order, lock by lock and call by call.  When all are through,
the sends are whole broadcasts of messages of theirs, one for each text that the table did not
know, and none for the others. -/
theorem burst_passed_on_once (mem : Ptr Conn → Str) (now : Conn → Nat)
    (msgs : Conn → Option (List UInt8)) (table : MessageTable Conn) (peers : Peers)
    (hmem : ∀ c msg, msgs c = some msg → mem (.recv c) = cstr msg) {schedule : List Conn}
    (hended : ∀ c, Mutex.Ended
      (schedule.foldl Mutex.step (start_threads (burst mem now msgs table peers))) c) :
    ∃ passed : List Conn,
      (schedule.foldl Mutex.step (start_threads (burst mem now msgs table peers))).shared
          .peer_list = (⟨peers, passed_on msgs peers passed⟩ : PeerData) ∧
        (∀ c ∈ passed, ∃ msg, msgs c = some msg) ∧
        (passed.map fun c => cstr ((msgs c).getD [])).Nodup ∧
        ∀ c msg, msgs c = some msg →
          (cstr msg ∈ passed.map (fun c => cstr ((msgs c).getD [])) ↔
            ¬ KnownText mem table (cstr msg)) := by
  have hrun := start_threads_simulated (burst mem now msgs table peers) schedule
  generalize Mutex.releases (start_threads (burst mem now msgs table peers)) schedule = order
    at hrun
  have hstart : Midway mem now msgs table peers (burst mem now msgs table peers) [] [] :=
    midway_burst
  obtain ⟨added, passed, hmid⟩ := midway_run hstart order
  obtain ⟨hshared, hthreads⟩ := hrun.ended hended
  have hdone : ∀ c, (order.foldl locked_step (burst mem now msgs table peers)).todo c = [] := by
    intro c
    obtain ⟨a, ha⟩ := hended c
    exact eq_nil_of_code_of ⟨a, (congrFun hthreads c).symm.trans ha⟩
  obtain ⟨hnodup, hpassed⟩ := hmid.done hdone
  have hcarried : ∀ c ∈ passed, ∃ msg, msgs c = some msg :=
    fun c hc => hmid.carried c (hmid.subset hc)
  have htexts : passed.map (fun c => cstr ((msgs c).getD [])) = passed.map (text_in mem) := by
    refine List.map_congr_left fun c hc => ?_
    obtain ⟨msg, hmsg⟩ := hcarried c hc
    rw [hmsg, text_in, hmem c msg hmsg, Option.getD_some]
  refine ⟨passed, ?_, hcarried, ?_, fun c msg hmsg => ?_⟩
  · rw [hshared]
    show (⟨_, _⟩ : PeerData) = _
    rw [hmid.unchanged, hmid.sent]
  · rw [htexts]
    exact hnodup
  · rw [htexts, ← hmem c msg hmsg]
    exact hpassed c msg hmsg

end Burst

/-- The same message over two connections. -/
def two_connections : Bool → Option (List UInt8) := fun _ => some [104, 105]

/-- One open peer. -/
def one_open_peer : Peers := ⟨[⟨0, [49], [50], 7, true⟩], 1, []⟩

/-- The second thread waits while the first one looks its message up and adds it, and finds it
then. -/
def in_company : List Bool :=
  [true, false, true, false, true, true, false, true, false, true, false, true, true, true, true]

/-- The message is sent once. -/
theorem burst_passed_on_once_two :
    ∃ passed : List Bool,
      (in_company.foldl Mutex.step (start_threads (burst (fun _ => [104, 105]) (fun _ => 0)
          two_connections [] one_open_peer))).shared .peer_list =
        (⟨one_open_peer, passed_on two_connections one_open_peer passed⟩ : PeerData) ∧
      (∀ c ∈ passed, ∃ msg, two_connections c = some msg) ∧
      (passed.map fun c => cstr ((two_connections c).getD [])).Nodup ∧
      ∀ c msg, two_connections c = some msg →
        (cstr msg ∈ passed.map (fun c => cstr ((two_connections c).getD [])) ↔
          ¬ KnownText (fun _ : Ptr Bool => [104, 105]) [] (cstr msg)) := by
  refine burst_passed_on_once (fun _ => [104, 105]) (fun _ => 0) two_connections [] one_open_peer
    ?_ ?_
  · intro c msg hmsg
    rw [← Option.some.inj hmsg]
    decide
  · decide +kernel

end AnonyChat
