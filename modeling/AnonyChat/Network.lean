import AnonyChat.RoundTrip

/-! # A network of clients

Clients joined by connections that stay open.  A connection is named by the client
that opened it and its socket there, and leads to the client `dst` says; the
receiving client has a buffer of its own for it.  One step of the network is a line
typed at a client, or the delivery of any one message in flight as the result of one
`recv`: messages may arrive in any order.

`Traffic` is what holds in every state reached: messages in flight and messages read
are texts some client broadcast as its own, over connections that are open.
-/
namespace AnonyChat
open CString GHashTable Machine

variable {evp : EVP} {Node : Type}

/-- A message in flight on the connection `link`. -/
structure Packet (Node : Type) where
  link : Node × Int
  bytes : List UInt8
  deriving DecidableEq, Repr

/-- The clients, and what is in flight between them. -/
structure Network (evp : EVP) (Node : Type) where
  node : Node → ClientState evp (Node × Int)
  flight : List (Packet Node)

/-- A step of the network. -/
inductive Action (evp : EVP) (Node : Type) where
  /-- A line is typed at a client. -/
  | originate (u : Node) (w : World evp) (input : Str)
  /-- The `k`th message in flight is delivered. -/
  | deliver (k : Nat) (w : World evp)

/-- The sends of a client as messages in flight. -/
def packets (u : Node) (events : List (Event (Node × Int))) : List (Packet Node) :=
  (sends events).map fun x => ⟨(u, x.socket_fd), x.bytes⟩

section Step
variable [DecidableEq Node]

/-- The network after a step of the client `u`, with the rest of what was in flight. -/
def Network.after (net : Network evp Node) (flight : List (Packet Node)) (u : Node)
    (r : ClientState evp (Node × Int) × List (Event (Node × Int))) :
    Network evp Node × List (Node × Event (Node × Int)) :=
  ({ node := Function.update net.node u r.1
     flight := flight ++ packets u r.2 }, r.2.map fun e => (u, e))

@[simp] theorem Network.after_node_self (net : Network evp Node) (flight : List (Packet Node))
    (u : Node) (r : ClientState evp (Node × Int) × List (Event (Node × Int))) :
    (net.after flight u r).1.node u = r.1 := by
  simp [Network.after]

@[simp] theorem Network.after_node_of_ne (net : Network evp Node) (flight : List (Packet Node))
    {u v : Node} (h : v ≠ u) (r : ClientState evp (Node × Int) × List (Event (Node × Int))) :
    (net.after flight u r).1.node v = net.node v := by
  simp [Network.after, h]

variable (dst : Node → Int → Node)

/-- The client a message in flight is delivered to. -/
def Packet.dest (p : Packet Node) : Node := dst p.link.1 p.link.2

/-- One step of the network, and what the client that made it did. -/
def net_step (net : Network evp Node) (a : Action evp Node) :
    Network evp Node × List (Node × Event (Node × Int)) :=
  match a with
  | .originate u w input =>
    net.after net.flight u (client_step (net.node u) (w, .line input))
  | .deliver k w =>
    match net.flight[k]? with
    | none => (net, [])
    | some p =>
      net.after (net.flight.eraseIdx k) (p.dest dst)
        (client_step (net.node (p.dest dst)) (w, .recv p.link p.bytes))

/-- What a step of the network is: nothing, or a step of one client on a typed line or
on a message that was in flight. -/
inductive NetOutcome (net : Network evp Node) :
    Action evp Node → Network evp Node × List (Node × Event (Node × Int)) → Prop where
  | idle {k w} (hk : net.flight.length ≤ k) : NetOutcome net (.deliver k w) (net, [])
  | line {u w input r} (ho : Outcome (net.node u) w (.line input) r) :
      NetOutcome net (.originate u w input) (net.after net.flight u r)
  | recv {k w p r} (hp : net.flight[k]? = some p)
      (ho : Outcome (net.node (p.dest dst)) w (.recv p.link p.bytes) r) :
      NetOutcome net (.deliver k w) (net.after (net.flight.eraseIdx k) (p.dest dst) r)

theorem net_step_outcome (net : Network evp Node) (a : Action evp Node) :
    NetOutcome dst net a (net_step dst net a) := by
  cases a with
  | originate u w input => exact NetOutcome.line (client_step_outcome _ (w, .line input))
  | deliver k w =>
    cases hp : net.flight[k]? with
    | none =>
      have hidle : net_step dst net (.deliver k w) = (net, []) := by simp [net_step, hp]
      rw [hidle]
      exact NetOutcome.idle (List.getElem?_eq_none_iff.mp hp)
    | some p =>
      have hrecv : net_step dst net (.deliver k w) =
          net.after (net.flight.eraseIdx k) (p.dest dst)
            (client_step (net.node (p.dest dst)) (w, .recv p.link p.bytes)) := by
        simp [net_step, hp]
      rw [hrecv]
      exact NetOutcome.recv hp (client_step_outcome _ (w, .recv p.link p.bytes))

end Step

/-! ## What one client does to the network -/

section Outcomes
variable [DecidableEq Node] {s : ClientState evp (Node × Int)} {w : World evp}
  {i : Input (Node × Int)} {r : ClientState evp (Node × Int) × List (Event (Node × Int))}

/-- The text is one the client broadcast as its own. -/
def Owns (events : List (Event (Node × Int))) (msg : Str) : Prop :=
  ∃ sent, Event.broadcast none msg sent ∈ events

/-- A message sent goes over an open connection, and is what was just received or the
client's own. -/
theorem Outcome.mem_packets (h : Outcome s w i r) {u : Node} {p : Packet Node}
    (hp : p ∈ packets u r.2) :
    (∃ peer ∈ s.peer_list, peer.open_con = true ∧ p.link = (u, peer.socket_fd)) ∧
      ((∃ c, i = .recv c p.bytes) ∨ (cstr p.bytes = p.bytes ∧ Owns r.2 p.bytes)) := by
  obtain ⟨x, hx, rfl⟩ := List.mem_map.mp hp
  cases h with
  | dead hf => cases hx
  | seen hf hrec => cases hx
  | @accept c data ctx texts hf hrec =>
    rw [sends_append, sends_received, List.append_nil] at hx
    have hx' : x ∈ client_send_to_all_peers s.peer_list data := by simpa [sends] using hx
    obtain ⟨peer, hmem, hopen, rfl⟩ := mem_client_send_to_all_peers.mp hx'
    exact ⟨⟨peer, hmem, hopen, rfl⟩, Or.inl ⟨c, rfl⟩⟩
  | quiet hf => cases hx
  | @sent input padded ctx hf hpad hclash =>
    have hx' : x ∈ client_send_to_all_peers s.peer_list padded := by simpa [sends] using hx
    obtain ⟨peer, hmem, hopen, rfl⟩ := mem_client_send_to_all_peers.mp hx'
    exact ⟨⟨peer, hmem, hopen, rfl⟩,
      Or.inr ⟨cstr_of_nulFree (padded_input_nulFree hpad), _, List.mem_singleton_self _⟩⟩
  | @clash input padded ctx hf hpad hclash =>
    have hx' : x ∈ client_send_to_all_peers s.peer_list (s.mem w (.block w.malloc)) := by
      simpa [sends] using hx
    obtain ⟨peer, hmem, hopen, rfl⟩ := mem_client_send_to_all_peers.mp hx'
    exact ⟨⟨peer, hmem, hopen, rfl⟩,
      Or.inr ⟨cstr_of_nulFree (cstr_nulFree _), _, List.mem_singleton_self _⟩⟩

/-- Only what was delivered is read. -/
theorem Outcome.recv_eq (h : Outcome s w i r) {c : Node × Int} {msg : Str}
    (he : Event.recv c msg ∈ r.2) : ∃ data, i = .recv c data ∧ msg = cstr data := by
  cases h with
  | dead hf => cases he
  | @seen c' data hf hrec =>
    obtain ⟨rfl, rfl⟩ : c = c' ∧ msg = cstr data := by simpa using he
    exact ⟨data, rfl, rfl⟩
  | @accept c' data ctx texts hf hrec =>
    obtain ⟨rfl, rfl⟩ : c = c' ∧ msg = cstr data := by simpa using he
    exact ⟨data, rfl, rfl⟩
  | quiet hf => cases he
  | sent hf hpad hclash => simp at he
  | clash hf hpad hclash => simp at he

/-- Only what was read is forwarded. -/
theorem Outcome.forward_recv (h : Outcome s w i r) {c : Node × Int} {msg : Str}
    {sent : List Send} (he : Event.broadcast (some c) msg sent ∈ r.2) :
    Event.recv c msg ∈ r.2 := by
  cases h with
  | dead hf => cases he
  | seen hf hrec => simp at he
  | @accept c' data ctx texts hf hrec =>
    obtain ⟨rfl, rfl, -⟩ : c = c' ∧ msg = cstr data ∧ _ := by simpa using he
    simp
  | quiet hf => cases he
  | sent hf hpad hclash => simp at he
  | clash hf hpad hclash => simp at he

/-- Only what was read is decoded. -/
theorem Outcome.decode_recv (h : Outcome s w i r) {msg : Str} (he : Event.decode msg ∈ r.2) :
    ∃ c, Event.recv c msg ∈ r.2 := by
  cases h with
  | dead hf => cases he
  | seen hf hrec => simp at he
  | @accept c data ctx texts hf hrec =>
    obtain rfl : msg = cstr data := by simpa using he
    exact ⟨c, by simp⟩
  | quiet hf => cases he
  | sent hf hpad hclash => simp at he
  | clash hf hpad hclash => simp at he

/-- A broadcast is one send to each open peer. -/
theorem Outcome.sent_length (h : Outcome s w i r) {src : Option (Node × Int)} {msg : Str}
    {sent : List Send} (he : Event.broadcast src msg sent ∈ r.2) :
    sent.length = s.peer_list.countP (·.open_con) := by
  cases h with
  | dead hf => cases he
  | seen hf hrec => simp at he
  | accept hf hrec =>
    obtain ⟨-, -, rfl⟩ : src = _ ∧ msg = _ ∧ sent = _ := by simpa using he
    exact client_send_to_all_peers_length _ _
  | quiet hf => cases he
  | sent hf hpad hclash =>
    obtain ⟨-, -, rfl⟩ : src = _ ∧ msg = _ ∧ sent = _ := by simpa using he
    exact client_send_to_all_peers_length _ _
  | clash hf hpad hclash =>
    obtain ⟨-, -, rfl⟩ : src = _ ∧ msg = _ ∧ sent = _ := by simpa using he
    exact client_send_to_all_peers_length _ _

end Outcomes

/-! ## What holds in every state reached -/

/-- Nothing has happened yet. -/
structure Started (net : Network evp Node) : Prop where
  table : ∀ u, (net.node u).message_hash_table = client_create_hash_table
  alive : ∀ u, (net.node u).fault = none
  flight : net.flight = []

/-- The connection is one of its opener's open peers. -/
def Open (net : Network evp Node) (link : Node × Int) : Prop :=
  ∃ peer ∈ (net.node link.1).peer_list, peer.open_con = true ∧ peer.socket_fd = link.2

/-- The text is one that some client broadcast as its own. -/
def Originated (out : List (Node × Event (Node × Int))) (u : Node) (msg : Str) : Prop :=
  ∃ sent, (u, Event.broadcast none msg sent) ∈ out

theorem Originated.append {out : List (Node × Event (Node × Int))} {u : Node} {msg : Str}
    (h : Originated out u msg) (more : List (Node × Event (Node × Int))) :
    Originated (out ++ more) u msg := by
  obtain ⟨sent, h⟩ := h
  exact ⟨sent, List.mem_append_left _ h⟩

/-- The texts clients broadcast as their own, in order. -/
def originals (out : List (Node × Event (Node × Int))) : List Str :=
  out.filterMap fun e =>
    match e.2 with
    | .broadcast none msg _ => some msg
    | _ => none

theorem originals_append (xs ys : List (Node × Event (Node × Int))) :
    originals (xs ++ ys) = originals xs ++ originals ys := List.filterMap_append

theorem mem_originals {out : List (Node × Event (Node × Int))} {msg : Str} :
    msg ∈ originals out ↔ ∃ u, Originated out u msg := by
  simp only [originals, List.mem_filterMap]
  constructor
  · rintro ⟨⟨u, e⟩, he, hm⟩
    rcases e with _ | _ | ⟨_ | _, m, sent⟩ | _ | _ <;> cases hm
    exact ⟨u, sent, he⟩
  · rintro ⟨u, sent, he⟩
    exact ⟨_, he, rfl⟩

theorem originated_iff [DecidableEq Node] {out : List (Node × Event (Node × Int))} {u : Node}
    {msg : Str} : msg ∈ originals (out.filter fun e => e.1 = u) ↔ Originated out u msg := by
  rw [mem_originals]
  constructor
  · rintro ⟨v, sent, he⟩
    obtain ⟨hmem, rfl⟩ : _ ∧ v = u := by simpa using he
    exact ⟨sent, hmem⟩
  · rintro ⟨sent, he⟩
    exact ⟨u, sent, by simpa using he⟩

instance [DecidableEq Node] (out : List (Node × Event (Node × Int))) (u : Node) (msg : Str) :
    Decidable (Originated out u msg) :=
  decidable_of_iff _ originated_iff

/-- What is read, forwarded and decoded comes over open connections and was broadcast
by the client it comes from originally. -/
structure Traffic (dst : Node → Int → Node) (net₀ net : Network evp Node)
    (out : List (Node × Event (Node × Int))) : Prop where
  peer_list : ∀ u, (net.node u).peer_list = (net₀.node u).peer_list
  flight : ∀ p ∈ net.flight, Open net₀ p.link ∧ ∃ v, Originated out v (cstr p.bytes)
  recv : ∀ u c msg, (u, Event.recv c msg) ∈ out →
    Open net₀ c ∧ dst c.1 c.2 = u ∧ ∃ v, Originated out v msg
  forward : ∀ u c msg sent, (u, Event.broadcast (some c) msg sent) ∈ out →
    (u, Event.recv c msg) ∈ out
  decode : ∀ u msg, (u, Event.decode msg) ∈ out → ∃ c, (u, Event.recv c msg) ∈ out
  sent_length : ∀ u src msg sent, (u, Event.broadcast src msg sent) ∈ out →
    sent.length = (net₀.node u).peer_list.countP (·.open_con)

theorem Started.traffic (dst : Node → Int → Node) {net₀ : Network evp Node} (h : Started net₀) :
    Traffic dst net₀ net₀ [] where
  peer_list _ := rfl
  flight := by simp [h.flight]
  recv := by simp
  forward := by simp
  decode := by simp
  sent_length := by simp

section Traffic
variable [DecidableEq Node] {dst : Node → Int → Node} {net₀ net : Network evp Node}
  {out : List (Node × Event (Node × Int))}

omit [DecidableEq Node] in
theorem mem_append_map {u v : Node} {e : Event (Node × Int)}
    {events : List (Event (Node × Int))} :
    (v, e) ∈ out ++ events.map (fun e => (u, e)) ↔ (v, e) ∈ out ∨ v = u ∧ e ∈ events := by
  rw [List.mem_append, List.mem_map]
  refine or_congr_right ⟨?_, ?_⟩
  · rintro ⟨e', he, heq⟩
    cases heq
    exact ⟨rfl, he⟩
  · rintro ⟨rfl, he⟩
    exact ⟨e, he, rfl⟩

/-- A step of one client keeps the invariant, when what it was handed, if anything,
was in flight to it. -/
theorem Traffic.after (h : Traffic dst net₀ net out) {flight : List (Packet Node)}
    (hsub : ∀ p ∈ flight, p ∈ net.flight) {u : Node} {w : World evp} {i : Input (Node × Int)}
    {r : ClientState evp (Node × Int) × List (Event (Node × Int))}
    (ho : Outcome (net.node u) w i r)
    (hi : ∀ c data, i = .recv c data → ⟨c, data⟩ ∈ net.flight ∧ dst c.1 c.2 = u) :
    Traffic dst net₀ (net.after flight u r).1 (out ++ (net.after flight u r).2) where
  peer_list v := by
    by_cases hv : v = u
    · subst hv
      simp [ho.peer_list_eq, h.peer_list]
    · simp [hv, h.peer_list]
  flight p hp := by
    rcases List.mem_append.mp hp with hp | hp
    · obtain ⟨hopen, v, hv⟩ := h.flight p (hsub p hp)
      exact ⟨hopen, v, hv.append _⟩
    · obtain ⟨⟨peer, hmem, hcon, hlink⟩, horigin⟩ := ho.mem_packets hp
      refine ⟨⟨peer, ?_, hcon, by rw [hlink]⟩, ?_⟩
      · rw [hlink, ← h.peer_list]
        exact hmem
      · rcases horigin with ⟨c, hc⟩ | ⟨htext, sent, hsent⟩
        · obtain ⟨-, v, hv⟩ := h.flight _ (hi c _ hc).1
          exact ⟨v, hv.append _⟩
        · rw [htext]
          exact ⟨u, sent, mem_append_map.mpr (Or.inr ⟨rfl, hsent⟩)⟩
  recv v c msg he := by
    rcases mem_append_map.mp he with hold | ⟨rfl, hnew⟩
    · obtain ⟨hopen, hdst, x, hx⟩ := h.recv v c msg hold
      exact ⟨hopen, hdst, x, hx.append _⟩
    · obtain ⟨data, rfl, rfl⟩ := ho.recv_eq hnew
      obtain ⟨hmem, hdst⟩ := hi c data rfl
      obtain ⟨hopen, x, hx⟩ := h.flight _ hmem
      exact ⟨hopen, hdst, x, hx.append _⟩
  forward v c msg sent he := by
    rcases mem_append_map.mp he with hold | ⟨rfl, hnew⟩
    · exact List.mem_append_left _ (h.forward v c msg sent hold)
    · exact mem_append_map.mpr (Or.inr ⟨rfl, ho.forward_recv hnew⟩)
  decode v msg he := by
    rcases mem_append_map.mp he with hold | ⟨rfl, hnew⟩
    · obtain ⟨c, hc⟩ := h.decode v msg hold
      exact ⟨c, List.mem_append_left _ hc⟩
    · obtain ⟨c, hc⟩ := ho.decode_recv hnew
      exact ⟨c, mem_append_map.mpr (Or.inr ⟨rfl, hc⟩)⟩
  sent_length v src msg sent he := by
    rcases mem_append_map.mp he with hold | ⟨rfl, hnew⟩
    · exact h.sent_length v src msg sent hold
    · rw [ho.sent_length hnew, h.peer_list]

/-- **Every step of the network keeps the invariant.** -/
theorem Traffic.step (h : Traffic dst net₀ net out) (a : Action evp Node) :
    Traffic dst net₀ (net_step dst net a).1 (out ++ (net_step dst net a).2) := by
  have ho := net_step_outcome dst net a
  generalize net_step dst net a = r at ho ⊢
  cases ho with
  | idle hk => simpa using h
  | line ho => exact h.after (fun p hp => hp) ho (by rintro c data ⟨⟩)
  | @recv k w p r hp ho =>
    apply h.after (fun q hq => List.mem_of_mem_eraseIdx hq) ho
    rintro c data ⟨⟩
    exact ⟨List.mem_of_getElem? hp, rfl⟩

theorem traffic_exec (hs : Started net₀) (as : List (Action evp Node)) :
    Traffic dst net₀ (exec (net_step dst) net₀ as).1 (exec (net_step dst) net₀ as).2 :=
  exec_invariant (net_step dst) (Traffic dst net₀) (hs.traffic dst) (fun _ _ a h => h.step a) as

end Traffic

/-! ## A concrete network -/

/-- Two clients, each the only peer of the other. -/
def ring : Network block_evp Bool where
  node _ := sample_client
  flight := []

/-- Each connection of the ring leads to the other client. -/
def ring_dst (u : Bool) (_ : Int) : Bool := !u

/-- A line typed at one client, and three deliveries. -/
def ring_run : List (Action block_evp Bool) :=
  [.originate false sample_world [98, 58, 104, 105], .deliver 0 sample_world,
    .deliver 0 sample_world, .deliver 0 sample_world]

/-- The message the line becomes. -/
def ring_text : Str :=
  ((originals (exec (net_step ring_dst) ring ring_run).2).head?).getD []

theorem ring_started : Started ring where
  table _ := rfl
  alive _ := rfl
  flight := rfl

end AnonyChat
