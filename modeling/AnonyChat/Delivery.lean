import AnonyChat.Coverage

/-! # From one screen to another

Nothing reaches a client from nowhere: what it reads, decodes or shows was broadcast by some
client as its own, and every client on the way from there passed it on (`shown_from_origin`).
With coverage this says exactly who decodes a message (`decoded_iff_reached`), and together with
the round trip of the encryption it is the purpose of the whole program: what is typed for
somebody appears on the screen of whoever holds the key, if the flood reaches him
(`typed_line_shown`).
-/
namespace AnonyChat
open CString GHashTable Machine

variable {evp : EVP} {Node : Type}

/-! ## The way a message came -/

/-- `u` broadcast the text, and `v` is one of its open peers. -/
def Passed (dst : Node → Int → Node) (net₀ : Network evp Node)
    (out : List (Node × Event (Node × Int))) (msg : Str) (u v : Node) : Prop :=
  Edge dst net₀ u v ∧ ∃ src sent, (u, Event.broadcast src msg sent) ∈ out

/-- Some client broadcast the text as its own, and from there on clients passed it on until
it came to `v`. -/
def Reached (dst : Node → Int → Node) (net₀ : Network evp Node)
    (out : List (Node × Event (Node × Int))) (msg : Str) (v : Node) : Prop :=
  ∃ u, Originated out u msg ∧ Relation.ReflTransGen (Passed dst net₀ out msg) u v

/-- Whatever is in flight, and whatever was read, came on such a way. -/
structure Ways (dst : Node → Int → Node) (net₀ net : Network evp Node)
    (out : List (Node × Event (Node × Int))) : Prop where
  flight : ∀ p ∈ net.flight, Reached dst net₀ out (cstr p.bytes) (p.dest dst)
  recv : ∀ v c msg, (v, Event.recv c msg) ∈ out → Reached dst net₀ out msg v

section Ways
variable {dst : Node → Int → Node} {net₀ net : Network evp Node}
  {out : List (Node × Event (Node × Int))}

theorem Reached.append {msg : Str} {v : Node} (h : Reached dst net₀ out msg v)
    (more : List (Node × Event (Node × Int))) : Reached dst net₀ (out ++ more) msg v := by
  obtain ⟨u, horigin, hway⟩ := h
  refine ⟨u, horigin.append more, Relation.ReflTransGen.mono ?_ _ _ hway⟩
  rintro a b ⟨hedge, src, sent, hmem⟩
  exact ⟨hedge, src, sent, List.mem_append_left _ hmem⟩

theorem Reached.edges {msg : Str} {v : Node} (h : Reached dst net₀ out msg v) :
    ∃ u, Originated out u msg ∧ Relation.ReflTransGen (Edge dst net₀) u v := by
  obtain ⟨u, horigin, hway⟩ := h
  exact ⟨u, horigin, Relation.ReflTransGen.mono (fun a b hpassed => hpassed.1) _ _ hway⟩

variable [DecidableEq Node]

/-- A message sent was broadcast, and is what was just read or the client's own. -/
theorem Outcome.packet_broadcast {s : ClientState evp (Node × Int)} {w : World evp}
    {i : Input (Node × Int)} {r : ClientState evp (Node × Int) × List (Event (Node × Int))}
    (h : Outcome s w i r) {u : Node} {p : Packet Node} (hp : p ∈ packets u r.2) :
    ∃ src sent, Event.broadcast src (cstr p.bytes) sent ∈ r.2 ∧
      ((∃ c, i = .recv c p.bytes) ∨ Owns r.2 (cstr p.bytes)) := by
  obtain ⟨-, hsource⟩ := h.mem_packets hp
  rcases hsource with ⟨c, rfl⟩ | ⟨htext, sent, hsent⟩
  · generalize hbytes : p.bytes = bytes at h
    cases h with
    | dead hf => cases hp
    | seen hf hrec => cases hp
    | accept hf hrec => exact ⟨some c, _, by simp; rfl, Or.inl ⟨c, rfl⟩⟩
  · rw [htext]
    exact ⟨none, sent, hsent, Or.inr ⟨sent, hsent⟩⟩

/-- A step of one client keeps the invariant, when what it was handed, if anything, was in
flight to it. -/
theorem Ways.after (h : Ways dst net₀ net out) (ht : Traffic dst net₀ net out)
    {flight : List (Packet Node)} (hsub : ∀ p ∈ flight, p ∈ net.flight) {u : Node} {w : World evp}
    {i : Input (Node × Int)}
    {r : ClientState evp (Node × Int) × List (Event (Node × Int))}
    (ho : Outcome (net.node u) w i r)
    (hi : ∀ c data, i = .recv c data → ∃ p ∈ net.flight, p.bytes = data ∧ p.dest dst = u) :
    Ways dst net₀ (net.after flight u r).1 (out ++ (net.after flight u r).2) where
  flight p hp := by
    rcases List.mem_append.mp hp with hp | hp
    · exact (h.flight p (hsub p hp)).append _
    · obtain ⟨⟨peer, hmem, hopen, hlink⟩, -⟩ := ho.mem_packets hp
      obtain ⟨src, sent, hsent, hsource⟩ := ho.packet_broadcast hp
      -- the text had reached `u` before, or is `u`'s own
      have hreached : Reached dst net₀ (out ++ (net.after flight u r).2) (cstr p.bytes) u := by
        rcases hsource with ⟨c, hc⟩ | ⟨sent, hown⟩
        · obtain ⟨q, hq, hbytes, hdest⟩ := hi c _ hc
          have hold := (h.flight q hq).append (net.after flight u r).2
          rwa [hbytes, hdest] at hold
        · exact ⟨u, ⟨sent, mem_append_map.mpr (Or.inr ⟨rfl, hown⟩)⟩, Relation.ReflTransGen.refl⟩
      obtain ⟨origin, horigin, hway⟩ := hreached
      refine ⟨origin, horigin, hway.tail ⟨⟨peer, ?_, hopen, ?_⟩, src, sent, ?_⟩⟩
      · rw [← ht.peer_list]
        exact hmem
      · rw [Packet.dest, hlink]
      · exact mem_append_map.mpr (Or.inr ⟨rfl, hsent⟩)
  recv v c msg he := by
    rcases mem_append_map.mp he with hold | ⟨rfl, hnew⟩
    · exact (h.recv v c msg hold).append _
    · obtain ⟨data, rfl, rfl⟩ := ho.recv_eq hnew
      obtain ⟨q, hq, rfl, rfl⟩ := hi c data rfl
      exact (h.flight q hq).append _

/-- **Every step of the network keeps the invariant.** -/
theorem Ways.step (h : Ways dst net₀ net out) (ht : Traffic dst net₀ net out)
    (a : Action evp Node) :
    Ways dst net₀ (net_step dst net a).1 (out ++ (net_step dst net a).2) := by
  have ho := net_step_outcome dst net a
  generalize net_step dst net a = r at ho ⊢
  cases ho with
  | idle hk => simpa using h
  | line ho => exact h.after ht (fun p hp => hp) ho (by rintro c data ⟨⟩)
  | @recv k w p r hp ho =>
    apply h.after ht (fun q hq => List.mem_of_mem_eraseIdx hq) ho
    rintro c data ⟨⟩
    exact ⟨p, List.mem_of_getElem? hp, rfl, rfl⟩

theorem ways_exec (hs : Started net₀) (as : List (Action evp Node)) :
    Ways dst net₀ (exec (net_step dst) net₀ as).1 (exec (net_step dst) net₀ as).2 := by
  have hinv := exec_invariant (net_step dst)
    (fun net out => Traffic dst net₀ net out ∧ Ways dst net₀ net out)
    ⟨hs.traffic dst, ⟨fun p hp => ?_, fun v c msg he => ?_⟩⟩
    (fun net out a h => ⟨h.1.step a, h.2.step h.1 a⟩) as
  · exact hinv.2
  · rw [hs.flight] at hp
    cases hp
  · cases he

end Ways

/-! ## What is shown -/

section Screens
variable {Conn : Type} [DecidableEq Conn]

/-- What a client shows is what the decoder made of the message it was handed. -/
theorem client_step_received_iff (s : ClientState evp Conn) (i : World evp × Input Conn)
    (text : Str) :
    Event.received text ∈ (client_step s i).2 ↔
      ∃ msg, Event.decode msg ∈ (client_step s i).2 ∧ ∃ ctx,
        msg_decode_decrypt evp s.rsa_encrypt_ctx.rsa_decrypt_ctx msg s.private_key =
          .ok (some text, ctx) := by
  rcases i with ⟨w, i⟩
  cases hf : s.fault with
  | some f => simp [client_step, hf]
  | none =>
    cases i with
    | line input =>
      have hstep : (client_step s (w, .line input)).2 = (input_send_msg s w input).2.1 := by
        simp [client_step, hf]
      rw [hstep]
      rcases input_send_msg_cases s w input with ⟨ctx, fault, ret, h⟩ | ⟨padded, ctx, -, -, h⟩ |
        ⟨padded, ctx, -, -, h⟩
      all_goals simp [h]
    | recv c data =>
      have hstep : client_step s (w, .recv c data) = client_handle s w c data := by
        simp [client_step, hf]
      rw [hstep, client_handle, client_parse_msg, mem_update_buffer_self]
      split
      · simp
      · cases hd : msg_decode_decrypt evp s.rsa_encrypt_ctx.rsa_decrypt_ctx (cstr data)
          s.private_key with
        | error f => simp [hd]
        | ok decoded =>
          obtain ⟨_ | shown, ctx⟩ := decoded
          · simp [hd]
          · simp [hd, eq_comm]

/-- No step changes the keys of a client. -/
theorem Outcome.keys_eq {s : ClientState evp Conn} {w : World evp} {i : Input Conn}
    {r : ClientState evp Conn × List (Event Conn)} (h : Outcome s w i r) :
    r.1.private_key = s.private_key ∧ r.1.public_key_hash_table = s.public_key_hash_table := by
  cases h <;> exact ⟨rfl, rfl⟩

/-- The private key decrypts the text to this, starting from some context. -/
def Decrypts (private_key : evp.PrivKey) (msg text : Str) : Prop :=
  ∃ ctx ctx', msg_decode_decrypt evp ctx msg private_key = .ok (some text, ctx')

/-- It does so from whatever context. -/
def Opens (private_key : evp.PrivKey) (msg text : Str) : Prop :=
  ∀ ctx, ∃ ctx', msg_decode_decrypt evp ctx msg private_key = .ok (some text, ctx')

end Screens

section Network
variable {dst : Node → Int → Node} {net₀ net : Network evp Node}
  {out : List (Node × Event (Node × Int))}

/-- The keys are those of the beginning, and what is shown is what was decrypted. -/
structure Shown (net₀ net : Network evp Node) (out : List (Node × Event (Node × Int))) :
    Prop where
  private_key : ∀ u, (net.node u).private_key = (net₀.node u).private_key
  public_key : ∀ u, (net.node u).public_key_hash_table = (net₀.node u).public_key_hash_table
  shown : ∀ v text, (v, Event.received text) ∈ out →
    ∃ msg, (v, Event.decode msg) ∈ out ∧ Decrypts (net₀.node v).private_key msg text
  opened : ∀ v msg text, (v, Event.decode msg) ∈ out → Opens (net₀.node v).private_key msg text →
    (v, Event.received text) ∈ out

variable [DecidableEq Node]

/-- A step of the network is none, or a step of one client. -/
theorem net_step_cases (dst : Node → Int → Node) (net : Network evp Node) (a : Action evp Node) :
    net_step dst net a = (net, []) ∨ ∃ flight u i,
      net_step dst net a = net.after flight u (client_step (net.node u) i) := by
  cases a with
  | originate u w input => exact Or.inr ⟨net.flight, u, (w, .line input), rfl⟩
  | deliver k w =>
    rw [net_step]
    cases net.flight[k]? with
    | none => exact Or.inl rfl
    | some p =>
      exact Or.inr ⟨net.flight.eraseIdx k, p.dest dst, (w, .recv p.link p.bytes), rfl⟩

/-- **Every step of the network.** -/
theorem Shown.step (h : Shown net₀ net out) (a : Action evp Node) :
    Shown net₀ (net_step dst net a).1 (out ++ (net_step dst net a).2) := by
  rcases net_step_cases dst net a with hidle | ⟨flight, u, i, hstep⟩
  · rw [hidle, List.append_nil]
    exact h
  rw [hstep]
  have ho := client_step_outcome (net.node u) i
  have hshown := client_step_received_iff (net.node u) i
  generalize client_step (net.node u) i = r at ho hshown
  have hkey := h.private_key u
  constructor
  · intro v
    by_cases hv : v = u
    · subst hv
      rw [Network.after_node_self, ho.keys_eq.1, hkey]
    · rw [Network.after_node_of_ne _ _ hv, h.private_key]
  · intro v
    by_cases hv : v = u
    · subst hv
      rw [Network.after_node_self, ho.keys_eq.2, h.public_key]
    · rw [Network.after_node_of_ne _ _ hv, h.public_key]
  · intro v text he
    rcases mem_append_map.mp he with hold | ⟨rfl, hnew⟩
    · obtain ⟨msg, hmsg, hdec⟩ := h.shown v text hold
      exact ⟨msg, List.mem_append_left _ hmsg, hdec⟩
    · obtain ⟨msg, hmsg, ctx', hdec⟩ := (hshown text).mp hnew
      rw [hkey] at hdec
      exact ⟨msg, mem_append_map.mpr (Or.inr ⟨rfl, hmsg⟩), _, ctx', hdec⟩
  · intro v msg text he hopens
    rcases mem_append_map.mp he with hold | ⟨rfl, hnew⟩
    · exact List.mem_append_left _ (h.opened v msg text hold hopens)
    · obtain ⟨ctx', hdec⟩ := hopens (net.node v).rsa_encrypt_ctx.rsa_decrypt_ctx
      rw [← hkey] at hdec
      exact mem_append_map.mpr (Or.inr ⟨rfl, (hshown text).mpr ⟨msg, hnew, ctx', hdec⟩⟩)

theorem shown_exec (net₀ : Network evp Node) (as : List (Action evp Node)) :
    Shown net₀ (exec (net_step dst) net₀ as).1 (exec (net_step dst) net₀ as).2 := by
  apply exec_invariant (net_step dst) (Shown net₀)
  · exact ⟨fun u => rfl, fun u => rfl, by simp, by simp⟩
  · exact fun net out a h => h.step a

/-! ## Runs -/

/-- In every run from a network where nothing has happened, what a client reads or shows came
on a way of clients that passed it on, from one that broadcast it as its own; and what it shows
is what its own key makes of such a message. -/
theorem shown_from_origin (hs : Started net₀) (as : List (Action evp Node)) (v : Node) :
    (∀ c msg, (v, Event.recv c msg) ∈ (exec (net_step dst) net₀ as).2 →
      Reached dst net₀ (exec (net_step dst) net₀ as).2 msg v) ∧
    ∀ text, (v, Event.received text) ∈ (exec (net_step dst) net₀ as).2 →
      ∃ msg, Reached dst net₀ (exec (net_step dst) net₀ as).2 msg v ∧
        Decrypts (net₀.node v).private_key msg text := by
  have hways : Ways dst net₀ _ _ := ways_exec hs as
  have ht : Traffic dst net₀ _ _ := traffic_exec hs as
  refine ⟨hways.recv v, fun text he => ?_⟩
  obtain ⟨msg, hmsg, hdec⟩ := (shown_exec net₀ as).shown v text he
  obtain ⟨c, hc⟩ := ht.decode v msg hmsg
  exact ⟨msg, hways.recv v c msg hc, hdec⟩

/-- What the second client of the ring reads. -/
theorem shown_from_origin_ring :
    (∀ c msg, (true, Event.recv c msg) ∈ (exec (net_step ring_dst) ring ring_run).2 →
      Reached ring_dst ring (exec (net_step ring_dst) ring ring_run).2 msg true) ∧
    ∀ text, (true, Event.received text) ∈ (exec (net_step ring_dst) ring ring_run).2 →
      ∃ msg, Reached ring_dst ring (exec (net_step ring_dst) ring ring_run).2 msg true ∧
        Decrypts (ring.node true).private_key msg text :=
  shown_from_origin ring_started ring_run true

/-- A run from the beginning whose lines their processes survive, in which no two messages
have one hash, and after which nothing is in flight. -/
structure Settled (dst : Node → Int → Node) (net₀ : Network evp Node)
    (as : List (Action evp Node)) : Prop where
  started : Started net₀
  lines : Always (net_step dst) LineSurvives net₀ as
  distinct : ∀ m ∈ originals (exec (net_step dst) net₀ as).2,
    ∀ m' ∈ originals (exec (net_step dst) net₀ as).2, g_str_hash m = g_str_hash m' → m = m'
  quiet : (exec (net_step dst) net₀ as).1.flight = []

/-- The hash of a message has come to every client that can be reached from one that broadcast
it as its own. -/
theorem Settled.informed {as : List (Action evp Node)} (h : Settled dst net₀ as)
    (hseal : SealedFields evp) {u v : Node} {msg : Str}
    (hmsg : Originated (exec (net_step dst) net₀ as).2 u msg)
    (hreach : Relation.ReflTransGen (Edge dst net₀) u v) :
    g_str_hash msg ∈ informed (exec (net_step dst) net₀ as).2 v := by
  obtain ⟨-, hcovers⟩ := flood_exec hseal h.started h.lines
  refine hcovers.reaches ?_ hreach ?_
  · ext p
    simp [as_flood, h.quiet]
  · obtain ⟨sent, hsent⟩ := hmsg
    exact ⟨_, msg, hsent, Or.inr ⟨sent, rfl⟩, rfl⟩

/-- Where the hash has come to, so has the message. -/
theorem Settled.handled {as : List (Action evp Node)} (h : Settled dst net₀ as) {u v : Node}
    {msg : Str} (hmsg : Originated (exec (net_step dst) net₀ as).2 u msg)
    (hinformed : g_str_hash msg ∈ AnonyChat.informed (exec (net_step dst) net₀ as).2 v) :
    Originated (exec (net_step dst) net₀ as).2 v msg ∨
      (v, Event.decode msg) ∈ (exec (net_step dst) net₀ as).2 := by
  have ht : Traffic dst net₀ _ _ := traffic_exec h.started as
  have hown := mem_originals.mpr ⟨u, hmsg⟩
  obtain ⟨e, m, he, hm | ⟨sent, hm⟩, hhash⟩ := hinformed
  · rw [hm] at he
    obtain ⟨c, hc⟩ := ht.decode v m he
    obtain ⟨-, -, horigin⟩ := ht.recv v c m hc
    obtain rfl := h.distinct m (mem_originals.mpr horigin) msg hown hhash
    exact Or.inr he
  · rw [hm] at he
    obtain rfl := h.distinct m (mem_originals.mpr ⟨v, sent, he⟩) msg hown hhash
    exact Or.inl ⟨sent, he⟩

/-- **Exactly who decodes a message.**  A client that did not broadcast the message as its own
has decoded it exactly when it can be reached from one that did. -/
theorem decoded_iff_reached (hseal : SealedFields evp) {as : List (Action evp Node)}
    (h : Settled dst net₀ as) {v : Node} {msg : Str}
    (hother : ¬ Originated (exec (net_step dst) net₀ as).2 v msg) :
    (v, Event.decode msg) ∈ (exec (net_step dst) net₀ as).2 ↔
      ∃ u, Originated (exec (net_step dst) net₀ as).2 u msg ∧
        Relation.ReflTransGen (Edge dst net₀) u v := by
  constructor
  · intro he
    have ht : Traffic dst net₀ _ _ := traffic_exec h.started as
    obtain ⟨c, hc⟩ := ht.decode v msg he
    exact ((ways_exec h.started as).recv v c msg hc).edges
  · rintro ⟨u, hmsg, hreach⟩
    exact (h.handled hmsg (h.informed hseal hmsg hreach)).resolve_left hother

/-- A line that becomes a message, typed into a process that survives it, is broadcast. -/
theorem owns_of_survives {s : ClientState evp (Node × Int)} {w : World evp}
    {input padded : Str} {ctx : evp.Ctx} (hf : s.fault = none)
    (hpad : padded_input s w input = (.ok (some padded), ctx))
    (hlive : (client_step s (w, .line input)).1.fault = none) :
    Owns (client_step s (w, .line input)).2 padded := by
  have hstep : client_step s (w, .line input) =
      ((input_send_msg s w input).1, (input_send_msg s w input).2.1) := by
    simp [client_step, hf]
  rw [hstep] at hlive ⊢
  by_cases hclash : Clashes s w padded
  · -- the table frees the message, and the process dies of it
    have hfree := add_padded_freed_iff.mpr hclash
    simp [input_send_msg, hpad, hfree] at hlive
  · have hfree := mt add_padded_freed_iff.mp hclash
    refine ⟨client_send_to_all_peers s.peer_list padded, ?_⟩
    simp [input_send_msg, hpad, hfree]

/-- **From one screen to another.**  In a settled run, what was typed after the colon for a name
whose key is the public one of `v` is shown by `v`, if the flood reaches it; unless `v` broadcast
the very same message as its own. -/
theorem typed_line_shown (hseal : SealedFields evp) {pre post : List (Action evp Node)}
    {u v : Node} {w : World evp} {name msg encoded_msg : Str} {public_key : evp.PubKey}
    (h : Settled dst net₀ (pre ++ .originate u w (name ++ 58 :: msg) :: post))
    (hkey : KeyPair evp public_key (net₀.node v).private_key) (hname : 58 ∉ name)
    (hmsg : NulFree msg) (hlookup : (net₀.node u).public_key_hash_table name = some public_key)
    (henc : (msg_encrypt_encode evp
      ((exec (net_step dst) net₀ pre).1.node u).rsa_encrypt_ctx.rsa_encrypt_ctx msg public_key
        w.seed w.past).1 = some encoded_msg)
    (hlen : encoded_msg.length < MESSAGE_LENGTH)
    (hreach : Relation.ReflTransGen (Edge dst net₀) u v) :
    ∃ padded, Originated (exec (net_step dst) net₀
        (pre ++ .originate u w (name ++ 58 :: msg) :: post)).2 u padded ∧
      (Originated (exec (net_step dst) net₀
          (pre ++ .originate u w (name ++ 58 :: msg) :: post)).2 v padded ∨
        (v, Event.received msg) ∈ (exec (net_step dst) net₀
          (pre ++ .originate u w (name ++ 58 :: msg) :: post)).2) := by
  -- the state in which the line is typed
  obtain ⟨hhealthy, -⟩ := flood_exec hseal h.started (Always.of_append _ h.lines)
  have hkeys : Shown net₀ (exec (net_step dst) net₀ pre).1 _ := shown_exec net₀ pre
  have hlive := h.lines pre _ post rfl u w _ rfl
  obtain ⟨ctx, hpad⟩ := padded_input_eq_ok (w := w) hname
    ((congrFun (hkeys.public_key u) name).trans hlookup) henc hlen
  obtain ⟨sent, hsent⟩ := owns_of_survives (hhealthy.alive u) hpad hlive
  generalize hpadded : encoded_msg ++ 32 :: str_rand w.rand
    (MESSAGE_LENGTH - encoded_msg.length - 1) = padded at hpad hsent
  have horigin : Originated (exec (net_step dst) net₀
      (pre ++ .originate u w (name ++ 58 :: msg) :: post)).2 u padded := by
    refine ⟨sent, ?_⟩
    rw [exec_append, exec]
    refine List.mem_append_right _ (List.mem_append_left _ ?_)
    exact List.mem_map.mpr ⟨_, hsent, rfl⟩
  refine ⟨padded, horigin, (h.handled horigin (h.informed hseal horigin hreach)).imp_right ?_⟩
  intro hdecode
  refine (shown_exec net₀ _).opened v padded msg hdecode fun dctx => ?_
  rw [← hpadded]
  exact msg_decode_decrypt_padded hkey henc hmsg _ dctx

end Network

/-! ## A concrete run -/

/-- The ring, with clients that can read what is sealed for the key they have. -/
def keyed_ring : Network block_evp Bool where
  node _ := { sample_client with private_key := (7 : UInt8) }
  flight := []

/-- A run with one line, after which one message was broadcast and nothing is in flight. -/
theorem settled_of_one [DecidableEq Node] {dst : Node → Int → Node} {net₀ : Network evp Node}
    (hs : Started net₀) {u : Node} {w : World evp} {input : Str} {rest : List (Action evp Node)}
    (hrest : ∀ a ∈ rest, ∀ u' w' input', a ≠ .originate u' w' input')
    (hlive : (client_step (net₀.node u) (w, .line input)).1.fault = none)
    (hquiet : (exec (net_step dst) net₀ (.originate u w input :: rest)).1.flight = [])
    (hone : (originals (exec (net_step dst) net₀ (.originate u w input :: rest)).2).length = 1) :
    Settled dst net₀ (.originate u w input :: rest) := by
  refine ⟨hs, ?_, fun m hm m' hm' _ => ?_, hquiet⟩
  · rintro pre a post he u' w' input' rfl
    cases pre with
    | nil =>
      cases he
      exact hlive
    | cons b pre =>
      obtain ⟨-, rfl⟩ := List.cons.inj he
      exact absurd rfl (hrest _ (by simp) u' w' input')
  · obtain ⟨text, htext⟩ := List.length_eq_one_iff.mp hone
    rw [htext, List.mem_singleton] at hm hm'
    rw [hm, hm']

theorem keyed_ring_settled : Settled ring_dst keyed_ring ring_run :=
  have hrun : (exec (net_step ring_dst) keyed_ring ring_run).1.flight = [] ∧
      (originals (exec (net_step ring_dst) keyed_ring ring_run).2).length = 1 := by
    decide +kernel
  settled_of_one ⟨fun _ => rfl, fun _ => rfl, rfl⟩ (by simp) (by decide +kernel) hrun.1 hrun.2

theorem keyed_ring_edge (u : Bool) : Edge ring_dst keyed_ring u (!u) :=
  ⟨_, List.mem_singleton_self _, rfl, rfl⟩

/-- The message typed at one client of the ring is decoded by the other. -/
theorem decoded_iff_reached_ring :
    (true, Event.decode ring_text) ∈ (exec (net_step ring_dst) keyed_ring ring_run).2 ↔
      ∃ u, Originated (exec (net_step ring_dst) keyed_ring ring_run).2 u ring_text ∧
        Relation.ReflTransGen (Edge ring_dst keyed_ring) u true :=
  decoded_iff_reached block_evp_sealedFields keyed_ring_settled (by decide +kernel)

/-- And shown by it. -/
theorem typed_line_shown_hi :
    ∃ padded, Originated (exec (net_step ring_dst) keyed_ring ring_run).2 false padded ∧
      (Originated (exec (net_step ring_dst) keyed_ring ring_run).2 true padded ∨
        (true, Event.received [104, 105]) ∈
          (exec (net_step ring_dst) keyed_ring ring_run).2) := by
  have hsplit : ring_run = [] ++ .originate false sample_world ([98] ++ 58 :: [104, 105]) ::
      [.deliver 0 sample_world, .deliver 0 sample_world, .deliver 0 sample_world] := rfl
  have hrun := keyed_ring_settled
  have henc : (msg_encrypt_encode block_evp [] [104, 105] (7 : UInt8) (0 : UInt8) 0).1 =
      some ((msg_encrypt_encode block_evp [] [104, 105] (7 : UInt8) (0 : UInt8) 0).1.getD []) := by
    decide +kernel
  rw [hsplit] at hrun ⊢
  exact typed_line_shown block_evp_sealedFields hrun (block_evp_keyPair 7) (by decide) (by decide)
    rfl henc (by decide +kernel) (Relation.ReflTransGen.single (keyed_ring_edge false))

end AnonyChat
