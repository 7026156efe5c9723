import AnonyChat.Network
import Mathlib.Algebra.BigOperators.Group.Finset.Basic
import Mathlib.Algebra.Order.BigOperators.Group.Finset
import Mathlib.Data.Fintype.BigOperators
import Mathlib.Data.Finset.Lattice.Fold
import Mathlib.Order.Lattice.Nat

/-! # Floods die out

A client may forward a message more than once, since the keys of its table read
something else by then.  But a node of the table never goes away, and a message that
arrives again on the connection whose buffer keys a node with its hash compares that
buffer with itself.  So each client forwards each hash at most once for each incoming
connection (`Forwarded`), which bounds what a finite number of typed lines can cause.
-/
namespace AnonyChat
open CString GHashTable Machine

variable {evp : EVP} {Node : Type}

/-- The forwards, in order: the client, the connection it read the message from, and
the message. -/
def forwards (out : List (Node × Event (Node × Int))) : List (Node × (Node × Int) × Str) :=
  out.filterMap fun e =>
    match e.2 with
    | .broadcast (some c) msg _ => some (e.1, c, msg)
    | _ => none

/-- The same with the hashes of the messages. -/
def forwarded_hashes (out : List (Node × Event (Node × Int))) :
    List (Node × (Node × Int) × UInt32) :=
  (forwards out).map fun x => (x.1, x.2.1, g_str_hash x.2.2)

/-- The sends of all clients. -/
def all_sends (out : List (Node × Event (Node × Int))) : List Send :=
  sends (out.map Prod.snd)

theorem forwards_append (xs ys : List (Node × Event (Node × Int))) :
    forwards (xs ++ ys) = forwards xs ++ forwards ys := List.filterMap_append

theorem forwarded_hashes_append (xs ys : List (Node × Event (Node × Int))) :
    forwarded_hashes (xs ++ ys) = forwarded_hashes xs ++ forwarded_hashes ys := by
  rw [forwarded_hashes, forwards_append, List.map_append]
  rfl

theorem mem_forwards {out : List (Node × Event (Node × Int))} {u : Node} {c : Node × Int}
    {msg : Str} : (u, c, msg) ∈ forwards out ↔
      ∃ sent, (u, Event.broadcast (some c) msg sent) ∈ out := by
  simp only [forwards, List.mem_filterMap]
  constructor
  · rintro ⟨⟨v, e⟩, he, hm⟩
    rcases e with _ | _ | ⟨_ | _, m, sent⟩ | _ | _ <;> cases hm
    exact ⟨sent, he⟩
  · rintro ⟨sent, he⟩
    exact ⟨_, he, rfl⟩

/-! ## Once for each connection -/

section Steps
variable [DecidableEq Node] {dst : Node → Int → Node} {net net₀ : Network evp Node}
  {out : List (Node × Event (Node × Int))}

/-- A client has forwarded each hash at most once for each connection, and its table
keeps a node with that hash under the connection's buffer. -/
structure Forwarded (net : Network evp Node) (out : List (Node × Event (Node × Int))) : Prop where
  nodup : (forwarded_hashes out).Nodup
  held : ∀ u c hash, (u, c, hash) ∈ forwarded_hashes out →
    Holds (net.node u).message_hash_table hash (.recv c)

/-- What a step of one client forwards. -/
theorem Outcome.forwarded {s : ClientState evp (Node × Int)} {w : World evp}
    {i : Input (Node × Int)} {r : ClientState evp (Node × Int) × List (Event (Node × Int))}
    (h : Outcome s w i r) (u : Node) :
    forwarded_hashes (r.2.map fun e => (u, e)) = [] ∨
      ∃ c hash, forwarded_hashes (r.2.map fun e => (u, e)) = [(u, c, hash)] ∧
        ¬ Holds s.message_hash_table hash (.recv c) ∧
        Holds r.1.message_hash_table hash (.recv c) := by
  cases h with
  | dead hf => exact Or.inl rfl
  | seen hf hrec => exact Or.inl rfl
  | @accept c data ctx texts hf hrec =>
    refine Or.inr ⟨c, g_str_hash (cstr data), ?_, ?_, ?_⟩
    · simp [forwarded_hashes, forwards]
    · exact fun hold => hrec ⟨_, hold, Or.inl rfl⟩
    · exact (holds_accepted_iff hrec).mpr (Or.inr ⟨rfl, rfl⟩)
  | quiet hf => exact Or.inl rfl
  | sent hf hpad hclash => exact Or.inl rfl
  | clash hf hpad hclash => exact Or.inl rfl

theorem Forwarded.after (h : Forwarded net out) (flight : List (Packet Node)) {u : Node}
    {w : World evp} {i : Input (Node × Int)}
    {r : ClientState evp (Node × Int) × List (Event (Node × Int))}
    (ho : Outcome (net.node u) w i r) :
    Forwarded (net.after flight u r).1 (out ++ (net.after flight u r).2) := by
  have hkeep : ∀ v c hash, Holds (net.node v).message_hash_table hash (.recv c) →
      Holds ((net.after flight u r).1.node v).message_hash_table hash (.recv c) := by
    intro v c hash hold
    by_cases hv : v = u
    · subst hv
      rw [Network.after_node_self]
      exact ho.holds_of_holds hold
    · rwa [Network.after_node_of_ne _ _ hv]
  have hout : (net.after flight u r).2 = r.2.map fun e => (u, e) := rfl
  rw [hout]
  rcases ho.forwarded u with hnone | ⟨c, hash, hone, hfresh, hheld⟩
  · refine ⟨?_, ?_⟩
    · rw [forwarded_hashes_append, hnone, List.append_nil]
      exact h.nodup
    · intro v c hash hmem
      rw [forwarded_hashes_append, hnone, List.append_nil] at hmem
      exact hkeep v c hash (h.held v c hash hmem)
  · refine ⟨?_, ?_⟩
    · rw [forwarded_hashes_append, hone]
      refine List.nodup_append.mpr ⟨h.nodup, List.nodup_singleton _, ?_⟩
      rintro x hx y hy rfl
      rw [List.mem_singleton.mp hy] at hx
      exact hfresh (h.held u c hash hx)
    · intro v c' hash' hmem
      rw [forwarded_hashes_append, hone, List.mem_append, List.mem_singleton] at hmem
      rcases hmem with hmem | heq
      · exact hkeep v c' hash' (h.held v c' hash' hmem)
      · cases heq
        rwa [Network.after_node_self]

/-- **Every step of the network keeps the invariant.** -/
theorem Forwarded.step (h : Forwarded net out) (a : Action evp Node) :
    Forwarded (net_step dst net a).1 (out ++ (net_step dst net a).2) := by
  have ho := net_step_outcome dst net a
  generalize net_step dst net a = r at ho ⊢
  cases ho with
  | idle hk => simpa using h
  | line ho => exact h.after _ ho
  | recv hp ho => exact h.after _ ho

theorem forwarded_exec (net₀ : Network evp Node) (as : List (Action evp Node)) :
    Forwarded (exec (net_step dst) net₀ as).1 (exec (net_step dst) net₀ as).2 := by
  refine exec_invariant (net_step dst) Forwarded ⟨List.nodup_nil, ?_⟩ (fun _ _ a h => h.step a) as
  simp [forwarded_hashes, forwards]

/-! ## Counting -/

/-- The number of lines typed. -/
def typed_lines (as : List (Action evp Node)) : Nat :=
  as.countP fun
    | .originate _ _ _ => true
    | .deliver _ _ => false

/-- A delivery delivers something. -/
def Delivers (net : Network evp Node) (_ : List (Node × Event (Node × Int)))
    (a : Action evp Node) : Prop :=
  ∀ k w, a = .deliver k w → k < net.flight.length

omit [DecidableEq Node] in
theorem packets_length (u : Node) (events : List (Event (Node × Int))) :
    (packets u events).length = (all_sends (events.map fun e => (u, e))).length := by
  simp [packets, all_sends, Function.comp_def]

omit [DecidableEq Node] in
theorem all_sends_append (xs ys : List (Node × Event (Node × Int))) :
    all_sends (xs ++ ys) = all_sends xs ++ all_sends ys := by
  rw [all_sends, List.map_append, sends_append]
  rfl

/-- Everything sent is in flight or was delivered. -/
theorem length_add_flight (net₀ : Network evp Node) {as : List (Action evp Node)}
    (hdel : Always (net_step dst) Delivers net₀ as) :
    as.length + (exec (net_step dst) net₀ as).1.flight.length =
      typed_lines as + net₀.flight.length + (all_sends (exec (net_step dst) net₀ as).2).length := by
  induction as using List.reverseRecOn with
  | nil => simp [typed_lines, all_sends, sends]
  | append_singleton as a ih =>
    obtain ⟨hdel, hlast⟩ := (always_concat (net_step dst)).mp hdel
    have ih := ih hdel
    rw [exec_concat, all_sends_append, List.length_append, List.length_append, typed_lines,
      List.countP_append]
    rw [typed_lines] at ih
    generalize exec (net_step dst) net₀ as = r at ih hlast ⊢
    have ho := net_step_outcome dst r.1 a
    generalize net_step dst r.1 a = r' at ho ⊢
    cases ho with
    | idle hk =>
      -- a delivery that delivers something is not idle
      exact absurd (hlast _ _ rfl) (by omega)
    | @line u w input r' ho =>
      simp only [Network.after, List.length_append, packets_length, List.length_singleton,
        List.countP_singleton, if_true]
      omega
    | @recv k w p r' hp ho =>
      have hk := hlast k w rfl
      simp only [Network.after, List.length_append, packets_length, List.length_singleton,
        List.countP_singleton, List.length_eraseIdx, hk, if_true, Bool.false_eq_true, if_false]
      omega

/-- A line typed broadcasts at most one message. -/
theorem originals_length_le (net₀ : Network evp Node) (as : List (Action evp Node)) :
    (originals (exec (net_step dst) net₀ as).2).length ≤ typed_lines as := by
  induction as using List.reverseRecOn with
  | nil => simp [originals]
  | append_singleton as a ih =>
    rw [exec_concat, originals_append, List.length_append, typed_lines, List.countP_append]
    rw [typed_lines] at ih
    generalize exec (net_step dst) net₀ as = r at ih ⊢
    have ho := net_step_outcome dst r.1 a
    generalize net_step dst r.1 a = r' at ho ⊢
    have hone : (originals r'.2).length ≤ List.countP (fun
        | Action.originate _ _ _ => true
        | Action.deliver _ _ => false) [a] := by
      cases ho with
      | idle hk => simp [originals]
      | line ho => cases ho <;> simp [originals, Network.after]
      | recv hp ho => cases ho <;> simp [originals, Network.after]
    omega

section Bounds
variable [Fintype Node]

/-- The number of open connections. -/
def connections (net : Network evp Node) : Nat :=
  ∑ u, (net.node u).peer_list.countP (·.open_con)

/-- The largest number of open peers of a client. -/
def peers (net : Network evp Node) : Nat :=
  Finset.univ.sup fun u => (net.node u).peer_list.countP (·.open_con)

/-- The open connections. -/
def links (net : Network evp Node) : Finset (Node × Int) :=
  Finset.univ.biUnion fun u =>
    (((net.node u).peer_list.filter (·.open_con)).map fun p => (u, p.socket_fd)).toFinset

theorem mem_links {link : Node × Int} (h : Open net link) : link ∈ links net := by
  obtain ⟨peer, hmem, hopen, hfd⟩ := h
  refine Finset.mem_biUnion.mpr ⟨link.1, Finset.mem_univ _, List.mem_toFinset.mpr ?_⟩
  exact List.mem_map.mpr ⟨peer, List.mem_filter.mpr ⟨hmem, hopen⟩, Prod.ext rfl hfd⟩

theorem card_links_le (net : Network evp Node) : (links net).card ≤ connections net := by
  refine Finset.card_biUnion_le.trans (Finset.sum_le_sum fun u _ => ?_)
  apply (List.toFinset_card_le _).trans
  rw [List.length_map, List.countP_eq_length_filter]

/-- There are no more forwards than messages and connections. -/
theorem forwards_length_le (ht : Traffic dst net₀ net out) (h : Forwarded net out) :
    (forwards out).length ≤ (originals out).length * connections net₀ := by
  -- the connection a message came over leads to one client only
  have hpairs : ((forwards out).map fun x => (g_str_hash x.2.2, x.2.1)).Nodup := by
    have hback : (forwarded_hashes out) =
        ((forwards out).map fun x => (g_str_hash x.2.2, x.2.1)).map
          fun y => (dst y.2.1 y.2.2, y.2, y.1) := by
      rw [List.map_map]
      apply List.map_congr_left
      rintro ⟨u, c, msg⟩ hx
      obtain ⟨sent, he⟩ := mem_forwards.mp hx
      obtain ⟨-, hdst, -⟩ := ht.recv u c msg (ht.forward u c msg sent he)
      simp [hdst]
    exact List.Nodup.of_map _ (hback ▸ h.nodup)
  have hsub : ((forwards out).map fun x => (g_str_hash x.2.2, x.2.1)).toFinset ⊆
      ((originals out).map g_str_hash).toFinset ×ˢ links net₀ := by
    intro y hy
    obtain ⟨⟨u, c, msg⟩, hx, rfl⟩ := List.mem_map.mp (List.mem_toFinset.mp hy)
    obtain ⟨sent, he⟩ := mem_forwards.mp hx
    obtain ⟨hopen, -, horigin⟩ := ht.recv u c msg (ht.forward u c msg sent he)
    refine Finset.mem_product.mpr ⟨List.mem_toFinset.mpr ?_, mem_links hopen⟩
    exact List.mem_map.mpr ⟨msg, mem_originals.mpr horigin, rfl⟩
  have hcard := Finset.card_le_card hsub
  rw [List.toFinset_card_of_nodup hpairs, List.length_map, Finset.card_product] at hcard
  refine hcard.trans (Nat.mul_le_mul ?_ (card_links_le net₀))
  exact (List.toFinset_card_le _).trans (List.length_map _).le

omit [DecidableEq Node] [Fintype Node] in
/-- Every send belongs to a forward or to a broadcast of a client's own message. -/
theorem all_sends_length_le {P : Nat} (h : ∀ u src msg sent,
      (u, Event.broadcast src msg sent) ∈ out → sent.length ≤ P) :
    (all_sends out).length ≤ ((forwards out).length + (originals out).length) * P := by
  induction out with
  | nil => simp [all_sends, sends]
  | cons e out ih =>
    have ih := ih fun u src msg sent he => h u src msg sent (List.mem_cons_of_mem _ he)
    rw [show e :: out = [e] ++ out from rfl, all_sends_append, forwards_append, originals_append]
    simp only [List.length_append]
    have hone : (all_sends [e]).length ≤ ((forwards [e]).length + (originals [e]).length) * P := by
      rcases e with ⟨u, _ | _ | ⟨_ | c, m, sent⟩ | _ | _⟩
      case broadcast.none =>
        simpa [all_sends, sends, forwards, originals] using h u _ m sent List.mem_cons_self
      case broadcast.some =>
        simpa [all_sends, sends, forwards, originals] using h u _ m sent List.mem_cons_self
      all_goals simp [all_sends, sends]
    calc (all_sends [e]).length + (all_sends out).length
        ≤ ((forwards [e]).length + (originals [e]).length) * P +
            ((forwards out).length + (originals out).length) * P := Nat.add_le_add hone ih
      _ = _ := by rw [← Nat.add_mul]; congr 1; omega

/-- **Floods die out.**  In any run of a network of finitely many clients, with M
messages originated, C connections and at most P peers for each client: no client
forwards a message twice for one connection, there are at most M * C forwards, and with
the originators' own there are at most M * (C + 1) * P sends.  So a run whose deliveries
all deliver something has at most that many steps besides the lines typed. -/
theorem flood_bound (hs : Started net₀) (as : List (Action evp Node)) :
    (forwards (exec (net_step dst) net₀ as).2).Nodup ∧
      (forwards (exec (net_step dst) net₀ as).2).length ≤
        (originals (exec (net_step dst) net₀ as).2).length * connections net₀ ∧
      (all_sends (exec (net_step dst) net₀ as).2).length ≤
        (originals (exec (net_step dst) net₀ as).2).length * (connections net₀ + 1) * peers net₀ ∧
      (Always (net_step dst) Delivers net₀ as →
        as.length ≤ typed_lines as + typed_lines as * (connections net₀ + 1) * peers net₀) := by
  have ht : Traffic dst net₀ (exec (net_step dst) net₀ as).1 (exec (net_step dst) net₀ as).2 :=
    traffic_exec hs as
  have hf : Forwarded (exec (net_step dst) net₀ as).1 (exec (net_step dst) net₀ as).2 :=
    forwarded_exec net₀ as
  have hforwards := forwards_length_le ht hf
  have hsends : (all_sends (exec (net_step dst) net₀ as).2).length ≤
      (originals (exec (net_step dst) net₀ as).2).length * (connections net₀ + 1) * peers net₀ := by
    refine (all_sends_length_le (P := peers net₀) ?_).trans (Nat.mul_le_mul_right _ ?_)
    · intro u src msg sent he
      rw [ht.sent_length u src msg sent he]
      exact Finset.le_sup (f := fun u => (net₀.node u).peer_list.countP (·.open_con))
        (Finset.mem_univ u)
    · rw [Nat.mul_add_one]
      exact Nat.add_le_add_right hforwards _
  refine ⟨List.Nodup.of_map _ hf.nodup, hforwards, hsends, fun hdel => ?_⟩
  have hlen := length_add_flight net₀ hdel
  have hlines : (originals (exec (net_step dst) net₀ as).2).length ≤ typed_lines as :=
    originals_length_le net₀ as
  rw [hs.flight] at hlen
  have hmul :=
    Nat.mul_le_mul_right (peers net₀) (Nat.mul_le_mul_right (connections net₀ + 1) hlines)
  simp only [List.length_nil] at hlen
  omega

end Bounds

end Steps

/-- The run of the ring in which one line causes four steps. -/
theorem flood_bound_ring :
    (forwards (exec (net_step ring_dst) ring ring_run).2).Nodup ∧
      (forwards (exec (net_step ring_dst) ring ring_run).2).length ≤
        (originals (exec (net_step ring_dst) ring ring_run).2).length * connections ring ∧
      (all_sends (exec (net_step ring_dst) ring ring_run).2).length ≤
        (originals (exec (net_step ring_dst) ring ring_run).2).length * (connections ring + 1) *
          peers ring ∧
      (Always (net_step ring_dst) Delivers ring ring_run →
        ring_run.length ≤ typed_lines ring_run +
          typed_lines ring_run * (connections ring + 1) * peers ring) :=
  flood_bound ring_started ring_run

/-- On the ring, with two connections and one peer each, one message is sent three
times: by its originator, by the other client, and by the originator again, whose table
has only the address of a freed block for it. -/
theorem three_sends_on_ring :
    ¬ ∀ as : List (Action block_evp Bool),
      (all_sends (exec (net_step ring_dst) ring as).2).length ≤
        (originals (exec (net_step ring_dst) ring as).2).length * connections ring * peers ring :=
  fun h => absurd (h ring_run) (by decide +kernel)

end AnonyChat
