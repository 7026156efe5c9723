import AnonyChat.Network
import AnonyChat.Lib.Flood

/-! # Flood coverage

What spreads over the network is the hash of a message: a client that meets a hash
for the first time forwards the message, and any later message with that hash may be
dropped, whatever its text, or forwarded again, whatever the keys of the table read by
then.  So the network refines `Flood` with hashes as items (`net_step_refines`); when
no two messages of a run collide, coverage of hashes is coverage of messages
(`flood_coverage`).
-/
namespace AnonyChat
open CString GHashTable Machine

variable {evp : EVP} {Node : Type}

/-- The event hands the text to the decoder, or broadcasts it as the client's own. -/
def Handles (e : Event (Node × Int)) (msg : Str) : Prop :=
  e = .decode msg ∨ ∃ sent, e = .broadcast none msg sent

/-- The hashes of the texts a client has handled. -/
def informed (out : List (Node × Event (Node × Int))) (u : Node) : Set UInt32 :=
  {h | ∃ e msg, (u, e) ∈ out ∧ Handles e msg ∧ g_str_hash msg = h}

/-- The network as a flood of hashes. -/
def as_flood (dst : Node → Int → Node) (net : Network evp Node)
    (out : List (Node × Event (Node × Int))) : Flood.State Node UInt32 where
  informed := informed out
  pending := {p | ∃ q ∈ net.flight, q.dest dst = p.1 ∧ g_str_hash (cstr q.bytes) = p.2}

/-- The client `v` is an open peer of `u`. -/
def Edge (dst : Node → Int → Node) (net : Network evp Node) (u v : Node) : Prop :=
  ∃ peer ∈ (net.node u).peer_list, peer.open_con = true ∧ dst u peer.socket_fd = v

/-- A typed line does not end the process it is typed into. -/
def LineSurvives [DecidableEq Node] (net : Network evp Node)
    (_ : List (Node × Event (Node × Int))) (a : Action evp Node) : Prop :=
  ∀ u w input, a = .originate u w input → (client_step (net.node u) (w, .line input)).1.fault = none

/-- Every client is alive, its own messages can be decoded by all, and its table knows
only hashes of texts it has handled. -/
structure Healthy (net : Network evp Node) (out : List (Node × Event (Node × Int))) : Prop where
  alive : ∀ u, (net.node u).fault = none
  readable : ∀ u msg, Originated out u msg → ∃ m, parse_str_encrypted_msg msg = .ok m
  table : ∀ u hash key, Holds (net.node u).message_hash_table hash key → hash ∈ informed out u

theorem Started.healthy {net₀ : Network evp Node} (h : Started net₀) : Healthy net₀ [] where
  alive := h.alive
  readable u msg hm := by
    obtain ⟨sent, hm⟩ := hm
    cases hm
  table u hash key hold := by
    rw [h.table] at hold
    exact absurd hold (not_holds_nil _ _)

section Steps
variable {out : List (Node × Event (Node × Int))} {u : Node}
  {events : List (Event (Node × Int))}

/-- What a client's step adds to the hashes it has handled. -/
theorem mem_informed_append {v : Node} {h : UInt32} :
    h ∈ informed (out ++ events.map fun e => (u, e)) v ↔
      h ∈ informed out v ∨ v = u ∧ ∃ e ∈ events, ∃ msg, Handles e msg ∧ g_str_hash msg = h := by
  constructor
  · rintro ⟨e, msg, he, hm, rfl⟩
    rcases mem_append_map.mp he with hold | ⟨rfl, hnew⟩
    · exact Or.inl ⟨e, msg, hold, hm, rfl⟩
    · exact Or.inr ⟨rfl, e, hnew, msg, hm, rfl⟩
  · rintro (⟨e, msg, he, hm, rfl⟩ | ⟨rfl, e, he, msg, hm, rfl⟩)
    · exact ⟨e, msg, List.mem_append_left _ he, hm, rfl⟩
    · exact ⟨e, msg, mem_append_map.mpr (Or.inr ⟨rfl, he⟩), hm, rfl⟩

theorem originated_append {v : Node} {msg : Str} :
    Originated (out ++ events.map fun e => (u, e)) v msg ↔
      Originated out v msg ∨ v = u ∧ Owns events msg := by
  constructor
  · rintro ⟨sent, he⟩
    rcases mem_append_map.mp he with hold | ⟨rfl, hnew⟩
    · exact Or.inl ⟨sent, hold⟩
    · exact Or.inr ⟨rfl, sent, hnew⟩
  · rintro (⟨sent, he⟩ | ⟨rfl, sent, he⟩)
    · exact ⟨sent, List.mem_append_left _ he⟩
    · exact ⟨sent, mem_append_map.mpr (Or.inr ⟨rfl, he⟩)⟩

variable [DecidableEq Node] {s : ClientState evp (Node × Int)} {w : World evp}
  {i : Input (Node × Int)} {r : ClientState evp (Node × Int) × List (Event (Node × Int))}

/-- What a table holds after a step it held before, or was handled in the step. -/
theorem Outcome.holds_handled (h : Outcome s w i r) {hash : UInt32} {key : Ptr (Node × Int)}
    (hold : Holds r.1.message_hash_table hash key) (halive : r.1.fault = none) :
    Holds s.message_hash_table hash key ∨
      ∃ e ∈ r.2, ∃ msg, Handles e msg ∧ g_str_hash msg = hash := by
  cases h with
  | dead hf => exact Or.inl hold
  | seen hf hrec => exact Or.inl hold
  | @accept c data ctx texts hf hrec =>
    rcases (holds_accepted_iff hrec).mp hold with hold | ⟨rfl, -⟩
    · exact Or.inl hold
    · exact Or.inr ⟨.decode (cstr data), by simp, cstr data, Or.inl rfl, rfl⟩
  | quiet hf => exact Or.inl hold
  | @sent input padded ctx hf hpad hclash =>
    rcases holds_add_padded_iff.mp hold with hold | ⟨-, rfl, -⟩
    · exact Or.inl hold
    · exact Or.inr ⟨_, List.mem_singleton_self _, padded, Or.inr ⟨_, rfl⟩, rfl⟩
  | clash hf hpad hclash => cases halive

/-- A client that survives its step can only have broadcast messages with three fields. -/
theorem Outcome.owns_readable (h : Outcome s w i r) (hseal : SealedFields evp)
    (halive : r.1.fault = none) {msg : Str} (hm : Owns r.2 msg) :
    ∃ m, parse_str_encrypted_msg msg = .ok m := by
  obtain ⟨sent, hm⟩ := hm
  cases h with
  | dead hf => cases hm
  | seen hf hrec => simp at hm
  | accept hf hrec => simp at hm
  | quiet hf => cases hm
  | @sent input padded ctx hf hpad hclash =>
    obtain ⟨rfl, -⟩ : msg = padded ∧ _ := by simpa using hm
    exact padded_input_parses hseal hpad
  | clash hf hpad hclash => cases halive

/-- Reading a message with three fields does not end the process. -/
theorem Outcome.alive_of_readable {c : Node × Int} {data : List UInt8} {m : message_encrypted_o}
    (h : Outcome s w (.recv c data) r) (hf : s.fault = none)
    (hm : parse_str_encrypted_msg (cstr data) = .ok m) : r.1.fault = none := by
  cases h with
  | dead hf' => exact hf
  | seen hf' hrec => exact hf
  | accept hf' hrec =>
    simp only [accepted, fault_after, hm]
    exact hf

end Steps

section Runs
variable [DecidableEq Node] {dst : Node → Int → Node} {net₀ net : Network evp Node}
  {out : List (Node × Event (Node × Int))}

/-- A step of one client that survives it keeps the network healthy. -/
theorem Healthy.after (h : Healthy net out) (hseal : SealedFields evp)
    {flight : List (Packet Node)} {u : Node} {w : World evp} {i : Input (Node × Int)}
    {r : ClientState evp (Node × Int) × List (Event (Node × Int))}
    (ho : Outcome (net.node u) w i r) (halive : r.1.fault = none) :
    Healthy (net.after flight u r).1 (out ++ (net.after flight u r).2) where
  alive v := by
    by_cases hv : v = u
    · subst hv
      simpa using halive
    · simpa [hv] using h.alive v
  readable v msg hm := by
    rcases originated_append.mp hm with hold | ⟨-, hnew⟩
    · exact h.readable v msg hold
    · exact ho.owns_readable hseal halive hnew
  table v hash key hold := by
    apply mem_informed_append.mpr
    by_cases hv : v = u
    · subst hv
      rw [Network.after_node_self] at hold
      rcases ho.holds_handled hold halive with hold | hnew
      · exact Or.inl (h.table v hash key hold)
      · exact Or.inr ⟨rfl, hnew⟩
    · rw [Network.after_node_of_ne _ _ hv] at hold
      exact Or.inl (h.table v hash key hold)

/-- A client that steps in a healthy network survives the step. -/
theorem Healthy.step (h : Healthy net out) (ht : Traffic dst net₀ net out)
    (hseal : SealedFields evp) {a : Action evp Node} (hline : LineSurvives net out a) :
    Healthy (net_step dst net a).1 (out ++ (net_step dst net a).2) := by
  have ho := net_step_outcome dst net a
  cases a with
  | originate u w input =>
    exact h.after hseal (client_step_outcome _ (w, .line input)) (hline u w input rfl)
  | deliver k w =>
    generalize net_step dst net (.deliver k w) = r at ho ⊢
    cases ho with
    | idle hk => simpa using h
    | @recv _ _ p r hp ho =>
      obtain ⟨-, v, hv⟩ := ht.flight p (List.mem_of_getElem? hp)
      obtain ⟨m, hm⟩ := h.readable v _ hv
      exact h.after hseal ho (ho.alive_of_readable (h.alive _) hm)

omit [DecidableEq Node] in
/-- The packets of a broadcast reach every open peer. -/
theorem pending_of_edge {s : ClientState evp (Node × Int)} {u v : Node}
    (hpeers : s.peer_list = (net₀.node u).peer_list) (hedge : Edge dst net₀ u v)
    {events : List (Event (Node × Int))} {src : Option (Node × Int)} {msg : Str}
    {bytes : List UInt8}
    (hsent : Event.broadcast src msg (client_send_to_all_peers s.peer_list bytes) ∈ events) :
    ∃ q ∈ packets u events, q.dest dst = v ∧ q.bytes = bytes := by
  obtain ⟨peer, hmem, hopen, hdst⟩ := hedge
  rw [← hpeers] at hmem
  have hx : (⟨peer.socket_fd, bytes⟩ : Send) ∈ client_send_to_all_peers s.peer_list bytes :=
    mem_client_send_to_all_peers.mpr ⟨peer, hmem, hopen, rfl⟩
  exact ⟨⟨(u, peer.socket_fd), bytes⟩,
    List.mem_map.mpr ⟨_, mem_sends_of_broadcast hsent hx, rfl⟩, hdst, rfl⟩

/-- A packet that was not the one delivered is still in flight. -/
theorem pending_after {k : Nat} {p : Packet Node} (hp : net.flight[k]? = some p) {u : Node}
    {r : ClientState evp (Node × Int) × List (Event (Node × Int))} {x : Node × UInt32}
    (hx : x ∈ (as_flood dst net out).pending)
    (hne : x ≠ (p.dest dst, g_str_hash (cstr p.bytes))) :
    x ∈ (as_flood dst (net.after (net.flight.eraseIdx k) u r).1
      (out ++ (net.after (net.flight.eraseIdx k) u r).2)).pending := by
  obtain ⟨q, hq, hqx⟩ := hx
  obtain ⟨j, hj⟩ := List.mem_iff_getElem?.mp hq
  have hjk : j ≠ k := by
    rintro rfl
    rw [hp] at hj
    cases hj
    exact hne (Prod.ext hqx.1.symm hqx.2.symm)
  exact ⟨q, List.mem_append_left _ (List.mem_eraseIdx_iff_getElem?.mpr ⟨j, hjk, hj⟩), hqx⟩

/-- A client that handles one hash and broadcasts a text with it makes the flood learn
the hash there. -/
theorem learn_after (ht : Traffic dst net₀ net out) {flight : List (Packet Node)} {u : Node}
    {r : ClientState evp (Node × Int) × List (Event (Node × Int))} (hash : UInt32)
    (hhandled : ∀ x, (∃ e ∈ r.2, ∃ msg, Handles e msg ∧ g_str_hash msg = x) ↔ x = hash)
    {src : Option (Node × Int)} {msg : Str} {bytes : List UInt8}
    (hsent : Event.broadcast src msg (client_send_to_all_peers (net.node u).peer_list bytes) ∈ r.2)
    (hbytes : g_str_hash (cstr bytes) = hash)
    (hkept : ∀ x ∈ (as_flood dst net out).pending, x ≠ (u, hash) →
      x ∈ (as_flood dst (net.after flight u r).1 (out ++ (net.after flight u r).2)).pending) :
    Flood.Step (Edge dst net₀) (as_flood dst net out)
      (as_flood dst (net.after flight u r).1 (out ++ (net.after flight u r).2)) := by
  refine .learn u hash ?_ ?_ hkept
  · intro v x
    exact mem_informed_append.trans (or_congr_right (and_congr_right fun _ => hhandled x))
  · intro v hedge
    obtain ⟨q, hq, hdst, hq'⟩ := pending_of_edge (ht.peer_list u) hedge hsent
    exact ⟨q, List.mem_append_right _ hq, hdst, by rw [hq', hbytes]⟩

/-- **The network refines a flood of hashes.**  A step of a healthy network whose
clients survive it is a step of the flood, or none. -/
theorem net_step_refines (h : Healthy net out) (ht : Traffic dst net₀ net out)
    {a : Action evp Node} (hline : LineSurvives net out a) :
    as_flood dst (net_step dst net a).1 (out ++ (net_step dst net a).2) = as_flood dst net out ∨
      Flood.Step (Edge dst net₀) (as_flood dst net out)
        (as_flood dst (net_step dst net a).1 (out ++ (net_step dst net a).2)) := by
  have ho := net_step_outcome dst net a
  have hsurvive : ∀ u w input, a = .originate u w input →
      (net_step dst net a).1.node u = (client_step (net.node u) (w, .line input)).1 := by
    rintro u w input rfl
    simp [net_step]
  generalize net_step dst net a = r at ho hsurvive ⊢
  cases ho with
  | idle hk => exact Or.inl (by simp)
  | @line u w input r ho =>
    have halive : r.1.fault = none := by
      have hnode := hsurvive u w input rfl
      rw [Network.after_node_self] at hnode
      rw [hnode]
      exact hline u w input rfl
    cases ho with
    | dead hf => rw [h.alive] at hf; cases hf
    | quiet hf => exact Or.inl (by simp [Network.after, as_flood, packets, sends])
    | @sent _ padded ctx hf hpad hclash =>
      have htext := cstr_of_nulFree (padded_input_nulFree hpad)
      refine Or.inr (learn_after ht (g_str_hash padded) (fun x => by simp [Handles, eq_comm])
        (List.mem_singleton_self _) (by rw [htext]) ?_)
      rintro x ⟨q, hq, hx⟩ -
      exact ⟨q, List.mem_append_left _ hq, hx⟩
    | clash hf hpad hclash =>
      -- the padded block was freed by the table, and the process dies of it
      cases halive
  | @recv k w p r hp ho =>
    cases ho with
    | dead hf => rw [h.alive] at hf; cases hf
    | seen hf hrec =>
      -- whatever node matched, its hash is one the client has handled
      obtain ⟨key, hold, -⟩ := hrec
      refine Or.inr (.drop (p.dest dst) (g_str_hash (cstr p.bytes)) (h.table _ _ key hold) ?_
        fun x hx hne => pending_after hp hx hne)
      intro v x
      refine mem_informed_append.trans (or_iff_left ?_)
      simp [Handles]
    | @accept _ _ ctx texts hf hrec =>
      exact Or.inr (learn_after ht (g_str_hash (cstr p.bytes)) (fun x => by simp [Handles, eq_comm])
        (List.mem_append_left _ (List.mem_cons_of_mem _ List.mem_cons_self)) rfl
        fun x hx hne => pending_after hp hx hne)

/-- In every state reached by lines that their processes survive, the network is
healthy, and every neighbour of a client that handled a hash has handled it or will. -/
theorem flood_exec (hseal : SealedFields evp) (hs : Started net₀) {as : List (Action evp Node)}
    (hlines : Always (net_step dst) LineSurvives net₀ as) :
    Healthy (exec (net_step dst) net₀ as).1 (exec (net_step dst) net₀ as).2 ∧
      Flood.Covers (Edge dst net₀)
        (as_flood dst (exec (net_step dst) net₀ as).1 (exec (net_step dst) net₀ as).2) := by
  have hinv := exec_invariant_always (net_step dst)
    (fun net out => Traffic dst net₀ net out ∧ Healthy net out ∧
      Flood.Covers (Edge dst net₀) (as_flood dst net out))
    ⟨hs.traffic dst, hs.healthy, ?_⟩ ?_ hlines
  · exact hinv.2
  · rintro u h ⟨e, msg, he, -⟩
    cases he
  · rintro net out a ⟨ht, hh, hc⟩ hline
    refine ⟨ht.step a, hh.step ht hseal hline, ?_⟩
    rcases net_step_refines hh ht hline with hsame | hstep
    · rw [hsame]
      exact hc
    · exact hc.step hstep

/-- **Flood coverage.**  In any network, after any lines that their processes survive and
deliveries in any order, if no two of the messages broadcast have one hash and nothing
is in flight, every client that can be reached from one that broadcast a message as its
own has handed it to the decoder, unless it broadcast it as its own too. -/
theorem flood_coverage (hseal : SealedFields evp) (hs : Started net₀) {as : List (Action evp Node)}
    (hlines : Always (net_step dst) LineSurvives net₀ as)
    (hcoll : ∀ m ∈ originals (exec (net_step dst) net₀ as).2,
      ∀ m' ∈ originals (exec (net_step dst) net₀ as).2, g_str_hash m = g_str_hash m' → m = m')
    (hquiet : (exec (net_step dst) net₀ as).1.flight = []) {u v : Node} {msg : Str}
    (hmsg : Originated (exec (net_step dst) net₀ as).2 u msg)
    (hreach : Relation.ReflTransGen (Edge dst net₀) u v)
    (hother : ¬ Originated (exec (net_step dst) net₀ as).2 v msg) :
    (v, Event.decode msg) ∈ (exec (net_step dst) net₀ as).2 := by
  have ht : Traffic dst net₀ (exec (net_step dst) net₀ as).1 (exec (net_step dst) net₀ as).2 :=
    traffic_exec hs as
  obtain ⟨-, hcovers⟩ := flood_exec hseal hs hlines
  generalize exec (net_step dst) net₀ as = r at *
  have hempty : (as_flood dst r.1 r.2).pending = ∅ := by
    ext p
    simp [as_flood, hquiet]
  have hinformed : g_str_hash msg ∈ informed r.2 u := by
    obtain ⟨sent, hsent⟩ := hmsg
    exact ⟨_, msg, hsent, Or.inr ⟨sent, rfl⟩, rfl⟩
  -- some message with this hash was handled at `v`; without collisions it is this one
  obtain ⟨e, m, he, hm, hhash⟩ := hcovers.reaches hempty hreach hinformed
  have hown := mem_originals.mpr ⟨u, hmsg⟩
  rcases hm with rfl | ⟨sent, rfl⟩
  · obtain ⟨c, hc⟩ := ht.decode v m he
    obtain ⟨-, -, horigin⟩ := ht.recv v c m hc
    rw [hcoll msg hown m (mem_originals.mpr horigin) hhash.symm]
    exact he
  · have heq := hcoll msg hown m (mem_originals.mpr ⟨v, sent, he⟩) hhash.symm
    exact absurd ⟨sent, heq ▸ he⟩ hother

/-- The message typed at one client of the ring reaches the other. -/
theorem flood_coverage_ring :
    (true, Event.decode ring_text) ∈ (exec (net_step ring_dst) ring ring_run).2 := by
  refine flood_coverage (u := false) ?_ ring_started ?_ (by decide +kernel) (by decide +kernel)
    (by decide +kernel) ?_ (by decide +kernel)
  · rintro ctx (seed : UInt8) (pub : UInt8) ek iv ctx₁ h
    obtain ⟨hsome, -⟩ := Prod.mk.inj h
    obtain ⟨rfl, rfl⟩ := Prod.mk.inj (Option.some.inj hsome)
    exact ⟨List.cons_ne_nil _ _, List.length_replicate⟩
  · rintro pre a post he u w input rfl
    cases pre with
    | nil =>
      cases he
      decide +kernel
    | cons b pre =>
      have htail : [.deliver 0 sample_world, .deliver 0 sample_world, .deliver 0 sample_world] =
          pre ++ Action.originate u w input :: post := (List.cons.inj he).2
      have hmem : Action.originate u w input ∈ pre ++ Action.originate u w input :: post := by simp
      rw [← htail] at hmem
      simp at hmem
  · exact Relation.ReflTransGen.single ⟨_, List.mem_singleton_self _, rfl, rfl⟩

end Runs

end AnonyChat
