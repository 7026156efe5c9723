import AnonyChat.Connections

/-! # The listening sockets (`client_server.c`, `name_server.c`)

Both programs have an `init_server` that tries the addresses of `getaddrinfo` in turn, and both
say that it returns the descriptor of the socket it created or -1.  The client's does.  The name
server's copy leaves the loop when `socket` or `setsockopt` fails, and when nothing can be bound it
returns the last descriptor it closed, so it does only for some lists of addresses
(`init_servers_listening`).
-/
namespace AnonyChat

/-- How far the calls for one address get. -/
inductive BindOutcome where
  | socket_failed
  | setsockopt_failed (m : NewSocket)
  | bind_failed (m : NewSocket)
  | bound (m : NewSocket)

/-- The address can be bound. -/
def BindOutcome.Bound : BindOutcome → Prop
  | .bound _ => True
  | _ => False

/-! ## The functions -/

/-- The loop of the client's `init_server`: the sockets and `socket_fd`. -/
def init_server_loop : List BindOutcome → Sockets → Int → Sockets × Int
  | [], k, socket_fd => (k, socket_fd)
  | .socket_failed :: rest, k, _ => init_server_loop rest k (-1)
  | .setsockopt_failed m :: rest, k, _ =>
    init_server_loop rest ((k.socket m).close [m.pick k.held]) (-1)
  | .bind_failed m :: rest, k, _ =>
    init_server_loop rest ((k.socket m).close [m.pick k.held]) (-1)
  | .bound m :: _, k, _ => (k.socket m, m.pick k.held)

/-- The client's `init_server`: the sockets, the value returned and `peer_server->socket_fd`,
which is not set when `getaddrinfo` fails. -/
def init_server (k : Sockets) (socket_fd : Int) : Option (List BindOutcome) → Sockets × Int × Int
  | none => (k, -1, socket_fd)
  | some server_info =>
    ((init_server_loop server_info k (-1)).1, (init_server_loop server_info k (-1)).2,
      (init_server_loop server_info k (-1)).2)

/-- The loop of the name server's `init_server`.  When `socket` fails the loop goes on with -1,
and `setsockopt` fails on it. -/
def name_server_init_loop : List BindOutcome → Sockets → Int → Sockets × Int
  | [], k, socket_fd => (k, socket_fd)
  | .socket_failed :: _, k, _ => (k, -1)
  | .setsockopt_failed m :: _, k, _ => (k.socket m, -1)
  | .bind_failed m :: rest, k, _ =>
    name_server_init_loop rest ((k.socket m).close [m.pick k.held]) (m.pick k.held)
  | .bound m :: _, k, _ => (k.socket m, m.pick k.held)

/-- The name server's `init_server`; `socket_fd` is what the variable holds at first. -/
def name_server_init_server (k : Sockets) (socket_fd : Int) :
    Option (List BindOutcome) → Sockets × Int
  | none => (k, -1)
  | some server_info => name_server_init_loop server_info k socket_fd

/-! ## What the comments say -/

/-- The socket of the first address that can be bound, and no other; or -1 and no socket, when
there is no such address. -/
def Listening (server_info : List BindOutcome) (k : Sockets) (r : Sockets × Int) : Prop :=
  (∃ before m behind, server_info = before ++ .bound m :: behind ∧ (∀ o ∈ before, ¬ o.Bound) ∧
    r = (k.socket m, m.pick k.held)) ∨
  ((∀ o ∈ server_info, ¬ o.Bound) ∧ r = (k, -1))

section Loops
variable {k : Sockets} {rest : List BindOutcome} {r : Sockets × Int}

/-- A socket that is opened and closed again leaves nothing behind. -/
theorem Sockets.close_socket (k : Sockets) (m : NewSocket) :
    (k.socket m).close [m.pick k.held] = k := by
  have hheld : ∀ fd ∈ k.held, fd ∉ [m.pick k.held] := by
    intro fd hfd hin
    rw [List.mem_singleton.mp hin] at hfd
    exact m.fresh k.held hfd
  have hkept : (k.held ++ [m.pick k.held]).filter (fun fd => fd ∉ [m.pick k.held]) = k.held := by
    rw [List.filter_append, List.filter_eq_self.mpr fun fd hfd => decide_eq_true (hheld fd hfd)]
    simp
  have hconnected : k.connected.filter (fun fd => fd ∉ [m.pick k.held]) = k.connected :=
    List.filter_eq_self.mpr fun fd hfd =>
      decide_eq_true (hheld fd (k.held_of_connected fd hfd))
  cases k
  simp only [Sockets.socket, Sockets.close, Sockets.mk.injEq]
  exact ⟨hkept, hconnected⟩

theorem listening_bound (m : NewSocket) (rest : List BindOutcome) :
    Listening (.bound m :: rest) k (k.socket m, m.pick k.held) :=
  Or.inl ⟨[], m, rest, rfl, by simp, rfl⟩

/-- An address that cannot be bound makes no difference. -/
theorem listening_cons_iff {o : BindOutcome} (ho : ¬ o.Bound) :
    Listening (o :: rest) k r ↔ Listening rest k r := by
  constructor
  · rintro (⟨before, m, behind, hsplit, hbefore, hr⟩ | ⟨hnone, hr⟩)
    · cases before with
      | nil =>
        cases hsplit
        exact absurd trivial ho
      | cons p before =>
        obtain ⟨-, hsplit⟩ := List.cons.inj hsplit
        exact Or.inl ⟨before, m, behind, hsplit,
          fun q hq => hbefore q (List.mem_cons_of_mem p hq), hr⟩
    · exact Or.inr ⟨fun q hq => hnone q (List.mem_cons_of_mem o hq), hr⟩
  · rintro (⟨before, m, behind, rfl, hbefore, hr⟩ | ⟨hnone, hr⟩)
    · refine Or.inl ⟨o :: before, m, behind, rfl, fun q hq => ?_, hr⟩
      rcases List.mem_cons.mp hq with rfl | hq
      · exact ho
      · exact hbefore q hq
    · refine Or.inr ⟨fun q hq => ?_, hr⟩
      rcases List.mem_cons.mp hq with rfl | hq
      · exact ho
      · exact hnone q hq

/-- The client's loop keeps its word. -/
theorem listening_init_server_loop (server_info : List BindOutcome) (k : Sockets) :
    Listening server_info k (init_server_loop server_info k (-1)) := by
  induction server_info with
  | nil => exact Or.inr ⟨by simp, rfl⟩
  | cons o rest ih =>
    cases o with
    | socket_failed => exact (listening_cons_iff id).mpr ih
    | setsockopt_failed m =>
      rw [init_server_loop, Sockets.close_socket]
      exact (listening_cons_iff id).mpr ih
    | bind_failed m =>
      rw [init_server_loop, Sockets.close_socket]
      exact (listening_cons_iff id).mpr ih
    | bound m => exact listening_bound m rest

end Loops

/-! ## Both programs -/

/-- Up to the first address that is not merely taken: it is bound, or `socket` fails for it and no
other can be bound. -/
def Startable : List BindOutcome → Prop
  | [] => False
  | .socket_failed :: rest => ∀ o ∈ rest, ¬ o.Bound
  | .setsockopt_failed _ :: _ => False
  | .bind_failed _ :: rest => Startable rest
  | .bound _ :: _ => True

/-- The name server's loop, with a descriptor in `socket_fd` or at an address. -/
theorem listening_name_server_init_loop {server_info : List BindOutcome} {k : Sockets}
    {socket_fd : Int} (h : server_info = [] → socket_fd ≠ -1) :
    Listening server_info k (name_server_init_loop server_info k socket_fd) ↔
      Startable server_info := by
  induction server_info generalizing socket_fd with
  | nil =>
    refine iff_of_false ?_ id
    rintro (⟨before, m, behind, hsplit, -⟩ | ⟨-, hr⟩)
    · exact List.append_ne_nil_of_right_ne_nil before (List.cons_ne_nil _ behind) hsplit.symm
    · exact h rfl (congrArg Prod.snd hr)
  | cons o rest ih =>
    cases o with
    | socket_failed =>
      rw [listening_cons_iff id, name_server_init_loop, Startable]
      constructor
      · rintro (⟨before, m, behind, -, -, hr⟩ | ⟨hnone, -⟩)
        · have hnonneg := m.nonneg k.held
          have hfd : -1 = m.pick k.held := congrArg Prod.snd hr
          omega
        · exact hnone
      · exact fun hnone => Or.inr ⟨hnone, rfl⟩
    | setsockopt_failed m =>
      refine iff_of_false ?_ id
      rw [listening_cons_iff id, name_server_init_loop]
      rintro (⟨before, m', behind, -, -, hr⟩ | ⟨-, hr⟩)
      · have hnonneg := m'.nonneg k.held
        have hfd : -1 = m'.pick k.held := congrArg Prod.snd hr
        omega
      · have hheld : (k.held ++ [m.pick k.held]).length = k.held.length :=
          congrArg (fun r : Sockets × Int => r.1.held.length) hr
        rw [List.length_append, List.length_singleton] at hheld
        omega
    | bind_failed m =>
      have hnonneg := m.nonneg k.held
      rw [listening_cons_iff id, name_server_init_loop, Sockets.close_socket, Startable]
      exact ih fun _ => by omega
    | bound m => exact iff_of_true (listening_bound m rest) trivial

/-- **Starting to listen.**  Whatever the calls for each address return, the client's
`init_server` returns the socket of the first address that can be bound and holds no other, or -1
and holds none, and leaves the same in `peer_server`; the name server's does exactly when the first
address that is not merely taken is bound, or `socket` fails for it and nothing can be bound. -/
theorem init_servers_listening (k : Sockets) (socket_fd : Int) (first : BindOutcome)
    (rest : List BindOutcome) :
    (Listening (first :: rest) k
        ((init_server k socket_fd (some (first :: rest))).1,
          (init_server k socket_fd (some (first :: rest))).2.1) ∧
      (init_server k socket_fd (some (first :: rest))).2.2 =
        (init_server k socket_fd (some (first :: rest))).2.1) ∧
    (Listening (first :: rest) k (name_server_init_server k socket_fd (some (first :: rest))) ↔
      Startable (first :: rest)) :=
  ⟨⟨listening_init_server_loop (first :: rest) k, rfl⟩,
    listening_name_server_init_loop (fun h => nomatch h)⟩

end AnonyChat
