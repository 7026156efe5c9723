import AnonyChat.Receive
import AnonyChat.Connections

/-! # The clients of the name server

`listen_for_clients` starts a handler for each connection it accepts.  A handler enters its
client into the list, reads messages, takes the client out again, closes the socket and frees
the client, in this order; everything it does may fall between any two steps of the others.
The kernel gives a descriptor to a new connection as soon as the last one that had it is
closed, and `malloc` an address as soon as it is freed.  By then the client that had them is
not in the list any more, so the list names open connections only, each once
(`membership`).
-/
namespace AnonyChat
open CString Machine

/-! ## The steps -/

/-- How far a handler has come. -/
inductive HandlerStage where
  /-- Before `list_add`. -/
  | started
  /-- In the loop. -/
  | listed
  /-- In the loop, before a call of `manage_graph`. -/
  | due
  /-- Behind `list_remove`. -/
  | removed
  /-- Behind `close`. -/
  | closed
  /-- Behind `free`. -/
  | done
  deriving DecidableEq, Repr

namespace HandlerStage

/-- The client of the handler is not freed. -/
def Live (st : HandlerStage) : Prop := st ≠ .done

/-- The socket of the handler is open. -/
def Connected (st : HandlerStage) : Prop := st ≠ .closed ∧ st ≠ .done

/-- The handler is between its `list_add` and its `list_remove`. -/
def Listed (st : HandlerStage) : Prop := st = .listed ∨ st = .due

instance (st : HandlerStage) : Decidable st.Live := inferInstanceAs (Decidable (_ ≠ _))
instance (st : HandlerStage) : Decidable st.Connected := inferInstanceAs (Decidable (_ ∧ _))
instance (st : HandlerStage) : Decidable st.Listed := inferInstanceAs (Decidable (_ ∨ _))

theorem Connected.live {st : HandlerStage} (h : st.Connected) : st.Live := h.2

theorem Listed.connected {st : HandlerStage} (h : st.Listed) : st.Connected := by
  rcases h with rfl | rfl <;> decide

end HandlerStage

/-- A thread of `client_handle`: its client, its socket and its stage. -/
structure Handler where
  client_o : Nat
  client_socket : Int
  stage : HandlerStage
  deriving DecidableEq, Repr

/-- The name server: what the blocks of memory hold, which of them are allocated, the open
descriptors of the process, the list of clients, and a handler for each connection there
was. -/
structure NameServer where
  deref : Nat → client
  allocated : List Nat
  open_fds : List Int
  client_list : List Nat
  handlers : List Handler

/-- What one call of `malloc` returns: a block that is not in use. -/
structure NewBlock where
  pick : List Nat → Nat
  fresh : ∀ allocated, pick allocated ∉ allocated

/-- A step of a handler. -/
inductive HandlerInput where
  /-- `getnameinfo` stores an address, `strncpy` the default port, and `list_add` is called. -/
  | add (address : Str)
  /-- A message is read, and the port it may hold is stored. -/
  | message (buffer : List UInt8)
  /-- `manage_graph`. -/
  | manage_graph
  /-- `list_remove`. -/
  | remove
  /-- `close`. -/
  | close
  /-- `free`, and what the block holds afterwards. -/
  | free (junk : client)
  deriving DecidableEq, Repr

/-- A step of the name server: a connection is accepted, or a handler takes a step. -/
inductive ServerInput where
  | accept (m : NewBlock) (k : NewSocket) (address port : Str)
  | handler (i : Nat) (input : HandlerInput)

/-- A call of `manage_graph`: the client whose handler makes it, and the list and the memory
it sees while it holds the mutex. -/
structure RoundEvent where
  client_o : Nat
  client_list : List Nat
  deref : Nat → client

/-- The handler at `i` has come to the next stage. -/
def NameServer.moved (s : NameServer) (i : Nat) (h : Handler) (st : HandlerStage) : NameServer :=
  { s with handlers := s.handlers.set i { h with stage := st } }

/-- The client of a handler is changed. -/
def NameServer.update (s : NameServer) (c : Nat) (client_o : client) : NameServer :=
  { s with deref := Function.update s.deref c client_o }

/-- One turn of the loop of `listen_for_clients`; `address` and `port` are what the fields of
the new block hold. -/
def accept_client (s : NameServer) (m : NewBlock) (k : NewSocket) (address port : Str) :
    NameServer where
  deref := Function.update s.deref (m.pick s.allocated) ⟨k.pick s.open_fds, address, port⟩
  allocated := s.allocated ++ [m.pick s.allocated]
  open_fds := s.open_fds ++ [k.pick s.open_fds]
  client_list := s.client_list
  handlers := s.handlers ++ [⟨m.pick s.allocated, k.pick s.open_fds, .started⟩]

theorem accept_client_deref (s : NameServer) (m : NewBlock) (k : NewSocket) (address port : Str) :
    (accept_client s m k address port).deref =
      Function.update s.deref (m.pick s.allocated) ⟨k.pick s.open_fds, address, port⟩ := rfl

/-- The port in the client of a handler after a message. -/
def port_after (port : Str) (message : List UInt8) : Str :=
  ((new_port message).map fun tok => tok.take NI_MAXSERV).getD port

/-- The handler `h`, which is at `i`, takes a step; a step that is not the next one of its
stage does nothing. -/
def handler_step (s : NameServer) (i : Nat) (h : Handler) (input : HandlerInput) :
    NameServer × List RoundEvent :=
  match h.stage, input with
  | .started, .add address =>
    let s := s.update h.client_o ⟨(s.deref h.client_o).socket_fd, address, CLIENT_PEER_DEF_PORT⟩
    ({ s.moved i h .listed with client_list := s.client_list ++ [h.client_o] }, [])
  | .listed, .message buffer =>
    let client_o := s.deref h.client_o
    let s := s.update h.client_o { client_o with port := port_after client_o.port buffer }
    (s.moved i h (if ignored (cstr buffer) then .listed else .due), [])
  | .due, .manage_graph => (s.moved i h .listed, [⟨h.client_o, s.client_list, s.deref⟩])
  | .listed, .remove =>
    ({ s.moved i h .removed with client_list := s.client_list.erase h.client_o }, [])
  | .removed, .close =>
    ({ s.moved i h .closed with
        open_fds := s.open_fds.filter fun fd => fd ≠ (s.deref h.client_o).socket_fd }, [])
  | .closed, .free junk =>
    let s := s.update h.client_o junk
    ({ s.moved i h .done with allocated := s.allocated.filter fun c => c ≠ h.client_o }, [])
  | _, _ => (s, [])

/-- One step of the name server. -/
def name_server_step (s : NameServer) : ServerInput → NameServer × List RoundEvent
  | .accept m k address port => (accept_client s m k address port, [])
  | .handler i input =>
    match s.handlers[i]? with
    | none => (s, [])
    | some h => handler_step s i h input

/-- The name server before the first connection; `allocated` and `open_fds` are the blocks and
descriptors in use for other things. -/
def no_clients (deref : Nat → client) (allocated : List Nat) (open_fds : List Int) : NameServer :=
  ⟨deref, allocated, open_fds, [], []⟩

/-! ## Who owns what -/

/-- Handlers own their clients until they free them, and their sockets until they close
them. -/
structure Owned (s : NameServer) : Prop where
  block : ∀ (i : Nat) h, s.handlers[i]? = some h → h.stage.Live → h.client_o ∈ s.allocated
  block_inj : ∀ (i j : Nat) h h', s.handlers[i]? = some h → s.handlers[j]? = some h' →
    h.stage.Live → h'.stage.Live → h.client_o = h'.client_o → i = j
  socket : ∀ (i : Nat) h, s.handlers[i]? = some h → h.stage.Connected →
    (s.deref h.client_o).socket_fd = h.client_socket ∧ h.client_socket ∈ s.open_fds
  socket_inj : ∀ (i j : Nat) h h', s.handlers[i]? = some h → s.handlers[j]? = some h' →
    h.stage.Connected → h'.stage.Connected → h.client_socket = h'.client_socket → i = j

/-- The list has the clients of the handlers that are between their two calls, each once. -/
structure Members (s : NameServer) : Prop where
  nodup : s.client_list.Nodup
  mem_iff : ∀ c, c ∈ s.client_list ↔
    ∃ (i : Nat) (h : Handler), s.handlers[i]? = some h ∧ h.stage.Listed ∧ h.client_o = c

section Step
variable {s t : NameServer} {i : Nat} {h : Handler} {st : HandlerStage}

theorem moved_cases {j : Nat} {h' : Handler} (hi : s.handlers[i]? = some h)
    (hj : (s.moved i h st).handlers[j]? = some h') :
    (j = i ∧ h' = { h with stage := st }) ∨ (j ≠ i ∧ s.handlers[j]? = some h') := by
  have hlt := (List.getElem?_eq_some_iff.mp hi).1
  by_cases hji : j = i
  · subst hji
    rw [NameServer.moved, List.getElem?_set_self hlt] at hj
    exact Or.inl ⟨rfl, (Option.some.inj hj).symm⟩
  · rw [NameServer.moved, List.getElem?_set_ne (Ne.symm hji)] at hj
    exact Or.inr ⟨hji, hj⟩

theorem moved_self (hi : s.handlers[i]? = some h) :
    (s.moved i h st).handlers[i]? = some { h with stage := st } := by
  rw [NameServer.moved, List.getElem?_set_self (List.getElem?_eq_some_iff.mp hi).1]

theorem moved_of_ne {j : Nat} (hji : j ≠ i) :
    (s.moved i h st).handlers[j]? = s.handlers[j]? := by
  rw [NameServer.moved, List.getElem?_set_ne (Ne.symm hji)]

/-- **The frame of a step.**  A handler that moves on gives up nothing but its own client and
its own socket, and changes nothing but its own client. -/
theorem Owned.moved (hs : Owned s) (hi : s.handlers[i]? = some h) (hh : h.stage.Live)
    (hlive : st.Live → h.stage.Live) (hconn : st.Connected → h.stage.Connected)
    (hmoved : t.handlers = (s.moved i h st).handlers)
    (hblock : ∀ c ∈ s.allocated, c ∈ t.allocated ∨ (¬ st.Live ∧ c = h.client_o))
    (hfd : ∀ fd ∈ s.open_fds, fd ∈ t.open_fds ∨
      (h.stage.Connected ∧ ¬ st.Connected ∧ fd = h.client_socket))
    (hderef : ∀ c, (t.deref c).socket_fd = (s.deref c).socket_fd ∨
      (¬ st.Connected ∧ c = h.client_o)) : Owned t := by
  -- a handler of the new state, as it was before
  have hback : ∀ (j : Nat) h', t.handlers[j]? = some h' → ∃ h₀, s.handlers[j]? = some h₀ ∧
      h₀.client_o = h'.client_o ∧ h₀.client_socket = h'.client_socket ∧
      (h'.stage.Live → h₀.stage.Live) ∧ (h'.stage.Connected → h₀.stage.Connected) := by
    intro j h' hj
    rw [hmoved] at hj
    rcases moved_cases hi hj with ⟨rfl, rfl⟩ | ⟨-, hj⟩
    · exact ⟨h, hi, rfl, rfl, hlive, hconn⟩
    · exact ⟨h', hj, rfl, rfl, id, id⟩
  constructor
  · intro j h' hj hlive'
    obtain ⟨h₀, hj₀, hclient, -, hlive₀, -⟩ := hback j h' hj
    rw [← hclient]
    rcases hblock _ (hs.block j h₀ hj₀ (hlive₀ hlive')) with hmem | ⟨hnot, hsame⟩
    · exact hmem
    · obtain rfl := hs.block_inj j i h₀ h hj₀ hi (hlive₀ hlive') hh hsame
      rw [hmoved, moved_self hi] at hj
      cases hj
      exact absurd hlive' hnot
  · intro j k h' h'' hj hk hlive' hlive'' hsame
    obtain ⟨h₀, hj₀, hclient, -, hlive₀, -⟩ := hback j h' hj
    obtain ⟨h₁, hk₁, hclient', -, hlive₁, -⟩ := hback k h'' hk
    exact hs.block_inj j k h₀ h₁ hj₀ hk₁ (hlive₀ hlive') (hlive₁ hlive'')
      (hclient.trans (hsame.trans hclient'.symm))
  · intro j h' hj hconn'
    obtain ⟨h₀, hj₀, hclient, hsocket, -, hconn₀⟩ := hback j h' hj
    obtain ⟨hfd₀, hopen⟩ := hs.socket j h₀ hj₀ (hconn₀ hconn')
    rw [← hclient, ← hsocket]
    constructor
    · rcases hderef h₀.client_o with hkept | ⟨hnot, hsame⟩
      · rw [hkept, hfd₀]
      · obtain rfl := hs.block_inj j i h₀ h hj₀ hi (hconn₀ hconn').live hh hsame
        rw [hmoved, moved_self hi] at hj
        cases hj
        exact absurd hconn' hnot
    · rcases hfd _ hopen with hmem | ⟨hcon, hnot, hsame⟩
      · exact hmem
      · obtain rfl := hs.socket_inj j i h₀ h hj₀ hi (hconn₀ hconn') hcon hsame
        rw [hmoved, moved_self hi] at hj
        cases hj
        exact absurd hconn' hnot
  · intro j k h' h'' hj hk hconn' hconn'' hsame
    obtain ⟨h₀, hj₀, -, hsocket, -, hconn₀⟩ := hback j h' hj
    obtain ⟨h₁, hk₁, -, hsocket', -, hconn₁⟩ := hback k h'' hk
    exact hs.socket_inj j k h₀ h₁ hj₀ hk₁ (hconn₀ hconn') (hconn₁ hconn'')
      (hsocket.trans (hsame.trans hsocket'.symm))

/-- A handler that moves on within its two calls, or outside of them, leaves the list alone. -/
theorem Members.moved (hs : Members s) (hi : s.handlers[i]? = some h)
    (hlisted : st.Listed ↔ h.stage.Listed) (hmoved : t.handlers = (s.moved i h st).handlers)
    (hlist : t.client_list = s.client_list) : Members t := by
  refine ⟨hlist ▸ hs.nodup, fun c => ?_⟩
  rw [hlist, hs.mem_iff, hmoved]
  constructor
  · rintro ⟨j, h', hj, hin, hclient⟩
    by_cases hji : j = i
    · subst hji
      obtain rfl := Option.some.inj (hi.symm.trans hj)
      exact ⟨j, _, moved_self hi, hlisted.mpr hin, hclient⟩
    · exact ⟨j, h', (moved_of_ne hji).trans hj, hin, hclient⟩
  · rintro ⟨j, h', hj, hin, hclient⟩
    rcases moved_cases hi hj with ⟨rfl, rfl⟩ | ⟨-, hj⟩
    · exact ⟨j, h, hi, hlisted.mp hin, hclient⟩
    · exact ⟨j, h', hj, hin, hclient⟩

/-- The client of a handler is in the list only between its own two calls. -/
theorem Members.mem_client_iff (hs : Members s) (howned : Owned s) (hi : s.handlers[i]? = some h)
    (hh : h.stage.Live) : h.client_o ∈ s.client_list ↔ h.stage.Listed := by
  rw [hs.mem_iff]
  constructor
  · rintro ⟨j, h', hj, hin, hclient⟩
    obtain rfl := howned.block_inj j i h' h hj hi hin.connected.live hh hclient
    obtain rfl := Option.some.inj (hi.symm.trans hj)
    exact hin
  · exact fun hin => ⟨i, h, hi, hin, rfl⟩

end Step

/-! ## One step -/

section Steps
variable {s : NameServer} {i : Nat} {h : Handler}

/-- A new connection gets a block and a descriptor that no handler has. -/
theorem Owned.accept (hs : Owned s) (m : NewBlock) (k : NewSocket) (address port : Str) :
    Owned (accept_client s m k address port) := by
  have hcases : ∀ (j : Nat) h', (accept_client s m k address port).handlers[j]? = some h' →
      s.handlers[j]? = some h' ∨
        (j = s.handlers.length ∧ h' = ⟨m.pick s.allocated, k.pick s.open_fds, .started⟩) := by
    intro j h' hj
    rw [accept_client, List.getElem?_append] at hj
    split at hj
    · exact Or.inl hj
    · rw [List.getElem?_singleton] at hj
      split at hj
      · exact Or.inr ⟨by omega, (Option.some.inj hj).symm⟩
      · cases hj
  have hblock : ∀ (j : Nat) h', s.handlers[j]? = some h' → h'.stage.Live →
      h'.client_o ≠ m.pick s.allocated := by
    intro j h' hj hlive he
    exact m.fresh s.allocated (he ▸ hs.block j h' hj hlive)
  have hfd : ∀ (j : Nat) h', s.handlers[j]? = some h' → h'.stage.Connected →
      h'.client_socket ≠ k.pick s.open_fds := by
    intro j h' hj hconn he
    exact k.fresh s.open_fds (he ▸ (hs.socket j h' hj hconn).2)
  constructor
  · intro j h' hj hlive
    rcases hcases j h' hj with hj | ⟨-, rfl⟩
    · exact List.mem_append_left _ (hs.block j h' hj hlive)
    · exact List.mem_append_right _ (List.mem_singleton_self _)
  · intro j l h' h'' hj hl hlive hlive' hsame
    rcases hcases j h' hj with hj | ⟨rfl, rfl⟩ <;> rcases hcases l h'' hl with hl | ⟨rfl, rfl⟩
    · exact hs.block_inj j l h' h'' hj hl hlive hlive' hsame
    · exact absurd hsame (hblock j h' hj hlive)
    · exact absurd hsame.symm (hblock l h'' hl hlive')
    · rfl
  · intro j h' hj hconn
    rcases hcases j h' hj with hj | ⟨-, rfl⟩
    · obtain ⟨hsocket, hopen⟩ := hs.socket j h' hj hconn
      refine ⟨?_, List.mem_append_left _ hopen⟩
      rw [accept_client_deref, Function.update_of_ne (hblock j h' hj hconn.live), hsocket]
    · refine ⟨?_, List.mem_append_right _ (List.mem_singleton_self _)⟩
      rw [accept_client_deref, Function.update_self]
  · intro j l h' h'' hj hl hconn hconn' hsame
    rcases hcases j h' hj with hj | ⟨rfl, rfl⟩ <;> rcases hcases l h'' hl with hl | ⟨rfl, rfl⟩
    · exact hs.socket_inj j l h' h'' hj hl hconn hconn' hsame
    · exact absurd hsame (hfd j h' hj hconn)
    · exact absurd hsame.symm (hfd l h'' hl hconn')
    · rfl

theorem Members.accept (hs : Members s) (m : NewBlock) (k : NewSocket) (address port : Str) :
    Members (accept_client s m k address port) := by
  refine ⟨hs.nodup, fun c => (hs.mem_iff c).trans ?_⟩
  constructor
  · rintro ⟨j, h', hj, hin, hclient⟩
    have hlt := (List.getElem?_eq_some_iff.mp hj).1
    exact ⟨j, h', (List.getElem?_append_left hlt).trans hj, hin, hclient⟩
  · rintro ⟨j, h', hj, hin, hclient⟩
    rw [accept_client, List.getElem?_append] at hj
    split at hj
    · exact ⟨j, h', hj, hin, hclient⟩
    · rw [List.getElem?_singleton] at hj
      split at hj
      · obtain rfl := Option.some.inj hj
        exact absurd hin (show ¬ HandlerStage.started.Listed by decide)
      · cases hj

/-- The list after `list_add`. -/
theorem Members.add {t : NameServer} (hs : Members s) (howned : Owned s)
    (hi : s.handlers[i]? = some h) (hstage : h.stage = .started)
    (hmoved : t.handlers = (s.moved i h .listed).handlers)
    (hlist : t.client_list = s.client_list ++ [h.client_o]) : Members t := by
  have hnew : h.client_o ∉ s.client_list := by
    rw [hs.mem_client_iff howned hi (by rw [hstage]; decide), hstage]
    decide
  refine ⟨?_, fun c => ?_⟩
  · rw [hlist]
    exact List.nodup_append.mpr ⟨hs.nodup, List.nodup_singleton _, fun c hc d hd he =>
      hnew (List.mem_singleton.mp hd ▸ he ▸ hc)⟩
  · rw [hlist, List.mem_append, List.mem_singleton, hs.mem_iff, hmoved]
    constructor
    · rintro (⟨j, h', hj, hin, hclient⟩ | rfl)
      · have hji : j ≠ i := by
          rintro rfl
          obtain rfl := Option.some.inj (hi.symm.trans hj)
          rw [hstage] at hin
          exact absurd hin (by decide)
        exact ⟨j, h', (moved_of_ne hji).trans hj, hin, hclient⟩
      · exact ⟨i, _, moved_self hi, Or.inl rfl, rfl⟩
    · rintro ⟨j, h', hj, hin, hclient⟩
      rcases moved_cases hi hj with ⟨rfl, rfl⟩ | ⟨-, hj⟩
      · exact Or.inr hclient.symm
      · exact Or.inl ⟨j, h', hj, hin, hclient⟩

/-- The list after `list_remove`. -/
theorem Members.remove {t : NameServer} (hs : Members s) (howned : Owned s)
    (hi : s.handlers[i]? = some h) (hstage : h.stage = .listed)
    (hmoved : t.handlers = (s.moved i h .removed).handlers)
    (hlist : t.client_list = s.client_list.erase h.client_o) : Members t := by
  have hlive : h.stage.Live := by
    rw [hstage]
    decide
  refine ⟨hlist ▸ hs.nodup.erase _, fun c => ?_⟩
  rw [hlist, hs.nodup.mem_erase_iff, hs.mem_iff, hmoved]
  constructor
  · rintro ⟨hne, j, h', hj, hin, hclient⟩
    have hji : j ≠ i := by
      rintro rfl
      obtain rfl := Option.some.inj (hi.symm.trans hj)
      exact hne hclient.symm
    exact ⟨j, h', (moved_of_ne hji).trans hj, hin, hclient⟩
  · rintro ⟨j, h', hj, hin, hclient⟩
    rcases moved_cases hi hj with ⟨rfl, rfl⟩ | ⟨hji, hj⟩
    · exact absurd hin (show ¬ HandlerStage.removed.Listed by decide)
    · refine ⟨fun he => hji ?_, j, h', hj, hin, hclient⟩
      exact howned.block_inj j i h' h hj hi hin.connected.live hlive (hclient.trans he)

theorem update_deref (s : NameServer) (c : Nat) (client_o : client) :
    (s.update c client_o).deref = Function.update s.deref c client_o := rfl

/-- A change of a client that keeps its socket. -/
theorem update_socket_fd (s : NameServer) (c : Nat) {client_o : client}
    (hfd : client_o.socket_fd = (s.deref c).socket_fd) (d : Nat) :
    ((s.update c client_o).deref d).socket_fd = (s.deref d).socket_fd := by
  rw [update_deref]
  by_cases hd : d = c
  · subst hd
    rw [Function.update_self, hfd]
  · rw [Function.update_of_ne hd]

/-- What a call of `manage_graph` can rely on, and what comes of it: there are clients; the
graph is built, whatever `rand()` returns; and the peers of a client are all clients but
itself. -/
structure RoundSound (e : RoundEvent) : Prop where
  caller : e.client_o ∈ e.client_list
  nonempty : e.client_list ≠ []
  graph : ∀ rand, (combineNodesToGraph (client_nodes e.client_list)
    (shuffle rand (e.client_list.length - 1) (List.range e.client_list.length)) 4
    e.client_list.length).isSome
  peers : ∀ c ∈ e.client_list, ∀ max_msg_size,
    client_peers_static e.deref e.client_list (e.deref c) max_msg_size =
      if e.client_list.length = 1 then none
      else some ((((e.client_list.filter fun d => d ≠ c).map e.deref).foldl
        (append_entry max_msg_size) []).dropLast)

/-- The descriptors of the clients in the list. -/
theorem sockets_nodup (howned : Owned s) (hs : Members s) :
    (s.client_list.map fun c => (s.deref c).socket_fd).Nodup := by
  refine (List.nodup_map_iff_inj_on hs.nodup).mpr fun c hc d hd hsame => ?_
  obtain ⟨j, h', hj, hin, rfl⟩ := (hs.mem_iff c).mp hc
  obtain ⟨l, h'', hl, hin', rfl⟩ := (hs.mem_iff d).mp hd
  rw [(howned.socket j h' hj hin.connected).1, (howned.socket l h'' hl hin'.connected).1] at hsame
  obtain rfl := howned.socket_inj j l h' h'' hj hl hin.connected hin'.connected hsame
  rw [Option.some.inj (hj.symm.trans hl)]

theorem round_sound (howned : Owned s) (hs : Members s) {c : Nat} (hc : c ∈ s.client_list) :
    RoundSound ⟨c, s.client_list, s.deref⟩ := by
  have hne : s.client_list ≠ [] := List.ne_nil_of_mem hc
  refine ⟨hc, hne, fun rand => ?_, fun d hd max_msg_size => ?_⟩
  · obtain ⟨g, graph, hgraph, -⟩ := meshed rand hne
    rw [hgraph]
    rfl
  · have hothers : (s.client_list.map s.deref).filter
        (fun client_p => client_p.socket_fd ≠ (s.deref d).socket_fd) =
        (s.client_list.filter fun e => e ≠ d).map s.deref := by
      rw [List.filter_map]
      refine congrArg _ (List.filter_congr fun e he => decide_eq_decide.mpr (not_congr ?_))
      exact ⟨List.inj_on_of_nodup_map (sockets_nodup howned hs) he hd, fun h => h ▸ rfl⟩
    rw [client_peers_static, hothers]

/-- **One step of a handler.** -/
theorem handler_step_inv (howned : Owned s) (hs : Members s) (hi : s.handlers[i]? = some h)
    (input : HandlerInput) :
    Owned (handler_step s i h input).1 ∧ Members (handler_step s i h input).1 ∧
      ∀ e ∈ (handler_step s i h input).2, RoundSound e := by
  have hquiet : ∀ e ∈ ([] : List RoundEvent), RoundSound e := fun e he => nomatch he
  unfold handler_step
  split
  · rename_i address hstage
    refine ⟨?_, ?_, hquiet⟩
    · exact howned.moved hi (by rw [hstage]; decide) (by rw [hstage]; decide)
        (by rw [hstage]; decide) rfl (fun c hc => Or.inl hc) (fun fd hfd => Or.inl hfd)
        fun c => Or.inl (update_socket_fd s h.client_o (show (client.mk _ address
          CLIENT_PEER_DEF_PORT).socket_fd = (s.deref h.client_o).socket_fd from rfl) c)
    · exact hs.add howned hi hstage rfl rfl
  · rename_i buffer hstage
    have hin : HandlerStage.Listed (if ignored (cstr buffer) then .listed else .due) := by
      split <;> decide
    have hin' : h.stage.Listed := Or.inl hstage
    refine ⟨?_, ?_, hquiet⟩
    · exact howned.moved hi hin'.connected.live (fun _ => hin'.connected.live)
        (fun _ => hin'.connected) rfl (fun c hc => Or.inl hc) (fun fd hfd => Or.inl hfd)
        fun c => Or.inl (update_socket_fd s h.client_o (show (client.mk _ _ (port_after
          (s.deref h.client_o).port buffer)).socket_fd = (s.deref h.client_o).socket_fd from rfl) c)
    · exact hs.moved hi (iff_of_true hin hin') rfl rfl
  · rename_i hstage
    have hin' : h.stage.Listed := Or.inr hstage
    refine ⟨?_, ?_, ?_⟩
    · exact howned.moved hi hin'.connected.live (fun _ => hin'.connected.live)
        (fun _ => hin'.connected) rfl (fun c hc => Or.inl hc) (fun fd hfd => Or.inl hfd)
        fun c => Or.inl rfl
    · exact hs.moved hi (iff_of_true (Or.inl rfl) hin') rfl rfl
    · intro e he
      rw [List.mem_singleton.mp he]
      exact round_sound howned hs ((hs.mem_client_iff howned hi hin'.connected.live).mpr hin')
  · rename_i hstage
    refine ⟨?_, ?_, hquiet⟩
    · exact howned.moved hi (by rw [hstage]; decide) (by rw [hstage]; decide)
        (by rw [hstage]; decide) rfl (fun c hc => Or.inl hc) (fun fd hfd => Or.inl hfd)
        fun c => Or.inl rfl
    · exact hs.remove howned hi hstage rfl rfl
  · rename_i hstage
    have hconn : h.stage.Connected := by
      rw [hstage]
      decide
    have hsocket := (howned.socket i h hi hconn).1
    refine ⟨?_, ?_, hquiet⟩
    · refine howned.moved hi hconn.live (fun _ => hconn.live) (fun _ => hconn) rfl
        (fun c hc => Or.inl hc) (fun fd hfd => ?_) fun c => Or.inl rfl
      by_cases hsame : fd = h.client_socket
      · exact Or.inr ⟨hconn, by decide, hsame⟩
      · exact Or.inl (List.mem_filter.mpr ⟨hfd, decide_eq_true (hsocket ▸ hsame)⟩)
    · exact hs.moved hi (by rw [hstage]; decide) rfl rfl
  · rename_i junk hstage
    have hlive : h.stage.Live := by
      rw [hstage]
      decide
    refine ⟨?_, ?_, hquiet⟩
    · refine howned.moved hi hlive (fun _ => hlive) (fun hconn => absurd hconn (by decide)) rfl
        (fun c hc => ?_) (fun fd hfd => Or.inl hfd) fun c => ?_
      · by_cases hsame : c = h.client_o
        · exact Or.inr ⟨by decide, hsame⟩
        · exact Or.inl (List.mem_filter.mpr ⟨hc, decide_eq_true hsame⟩)
      · by_cases hsame : c = h.client_o
        · exact Or.inr ⟨by decide, hsame⟩
        · exact Or.inl (congrArg client.socket_fd (Function.update_of_ne hsame _ _))
    · exact hs.moved hi (by rw [hstage]; decide) rfl rfl
  · exact ⟨howned, hs, hquiet⟩

/-- **One step of the name server.** -/
theorem name_server_step_inv (howned : Owned s) (hs : Members s) (input : ServerInput) :
    Owned (name_server_step s input).1 ∧ Members (name_server_step s input).1 ∧
      ∀ e ∈ (name_server_step s input).2, RoundSound e := by
  cases input with
  | accept m k address port =>
    exact ⟨howned.accept m k address port, hs.accept m k address port, fun e he => nomatch he⟩
  | handler i input =>
    rw [name_server_step]
    cases hi : s.handlers[i]? with
    | none => exact ⟨howned, hs, fun e he => nomatch he⟩
    | some h => exact handler_step_inv howned hs hi input

end Steps

/-! ## Every run -/

/-- The clients in the list are distinct, not freed, and have distinct open descriptors, and a
handler between its two calls has its client there exactly once. -/
structure Membership (s : NameServer) : Prop where
  distinct : s.client_list.Nodup
  unfreed : ∀ c ∈ s.client_list, c ∈ s.allocated
  connected : ∀ c ∈ s.client_list, (s.deref c).socket_fd ∈ s.open_fds
  sockets : (s.client_list.map fun c => (s.deref c).socket_fd).Nodup
  once : ∀ h ∈ s.handlers, h.stage.Listed → s.client_list.count h.client_o = 1

theorem membership_of_inv {s : NameServer} (howned : Owned s) (hs : Members s) :
    Membership s := by
  refine ⟨hs.nodup, fun c hc => ?_, fun c hc => ?_, sockets_nodup howned hs, fun h hh hin => ?_⟩
  · obtain ⟨i, h, hi, hin, rfl⟩ := (hs.mem_iff c).mp hc
    exact howned.block i h hi hin.connected.live
  · obtain ⟨i, h, hi, hin, rfl⟩ := (hs.mem_iff c).mp hc
    obtain ⟨hsocket, hopen⟩ := howned.socket i h hi hin.connected
    rw [hsocket]
    exact hopen
  · obtain ⟨i, hi⟩ := List.mem_iff_getElem?.mp hh
    exact List.count_eq_one_of_mem hs.nodup ((hs.mem_iff _).mpr ⟨i, h, hi, hin, rfl⟩)

/-- In every state of every run, whatever else the process has allocated and opened. -/
theorem membership (deref : Nat → client) (allocated : List Nat) (open_fds : List Int)
    (inputs : List ServerInput) :
    Membership (exec name_server_step (no_clients deref allocated open_fds) inputs).1 ∧
      ∀ e ∈ (exec name_server_step (no_clients deref allocated open_fds) inputs).2,
        RoundSound e := by
  have hinv := exec_invariant name_server_step
    (fun s out => Owned s ∧ Members s ∧ ∀ e ∈ out, RoundSound e)
    (s := no_clients deref allocated open_fds) ?_ ?_ inputs
  · exact ⟨membership_of_inv hinv.1 hinv.2.1, hinv.2.2⟩
  · refine ⟨⟨?_, ?_, ?_, ?_⟩, ⟨List.nodup_nil, fun c => ?_⟩, fun e he => nomatch he⟩
    all_goals simp [no_clients]
  · rintro s out input ⟨howned, hs, hout⟩
    obtain ⟨howned', hs', hnew⟩ := name_server_step_inv howned hs input
    refine ⟨howned', hs', fun e he => ?_⟩
    rcases List.mem_append.mp he with he | he
    · exact hout e he
    · exact hnew e he

end AnonyChat
