import AnonyChat.Refresh

/-! # The sockets of the peers

`connect_to_host` reports its errors by -1, and leaves the socket open when only `connect`
fails; `connect_to_peer` marks a peer as connected whatever it is told; `send_msg` takes
every result of `send` but zero for a success.  So the list of peers tells the truth about
the sockets as long as nothing fails (`truthful_iff`), and only as long.
-/
namespace AnonyChat
open CString Machine

/-! ## The kernel -/

/-- The sockets the process holds for its peers, and those of them that are connected. -/
structure Sockets where
  held : List Int
  connected : List Int
  held_of_connected : ∀ fd ∈ connected, fd ∈ held
  nonneg : ∀ fd ∈ held, 0 ≤ fd

/-- What one call of `socket` returns: a descriptor that is not in use. -/
structure NewSocket where
  pick : List Int → Int
  fresh : ∀ held, pick held ∉ held
  nonneg : ∀ held, 0 ≤ pick held

namespace Sockets

/-- No sockets. -/
def none : Sockets := ⟨[], [], by simp, by simp⟩

/-- `socket`. -/
def socket (k : Sockets) (m : NewSocket) : Sockets where
  held := k.held ++ [m.pick k.held]
  connected := k.connected
  held_of_connected fd h := List.mem_append_left _ (k.held_of_connected fd h)
  nonneg fd h := by
    rcases List.mem_append.mp h with h | h
    · exact k.nonneg fd h
    · rw [List.mem_singleton.mp h]
      exact m.nonneg k.held

/-- A `connect` that succeeds, on a socket of the process. -/
def connect (k : Sockets) (socket_fd : Int) (h : socket_fd ∈ k.held) : Sockets where
  held := k.held
  connected := k.connected ++ [socket_fd]
  held_of_connected fd hfd := by
    rcases List.mem_append.mp hfd with hfd | hfd
    · exact k.held_of_connected fd hfd
    · rw [List.mem_singleton.mp hfd]
      exact h
  nonneg := k.nonneg

/-- `close` of each of these. -/
def close (k : Sockets) (fds : List Int) : Sockets where
  held := k.held.filter fun fd => fd ∉ fds
  connected := k.connected.filter fun fd => fd ∉ fds
  held_of_connected fd h := by
    obtain ⟨hfd, hnot⟩ := List.mem_filter.mp h
    exact List.mem_filter.mpr ⟨k.held_of_connected fd hfd, hnot⟩
  nonneg fd h := k.nonneg fd (List.mem_of_mem_filter h)

end Sockets

/-- How far `connect_to_host` gets. -/
inductive ConnectOutcome where
  | getaddrinfo_failed
  | socket_failed
  | connect_failed (m : NewSocket)
  | connected (m : NewSocket)

/-- It gets to the end. -/
def ConnectOutcome.Succeeds : ConnectOutcome → Prop
  | .connected _ => True
  | _ => False

instance (o : ConnectOutcome) : Decidable o.Succeeds := by
  cases o <;> unfold ConnectOutcome.Succeeds <;> infer_instance

/-- What the kernel makes of a `send` on a connected socket. -/
inductive SendOutcome where
  | failed
  | sent (n : Nat)
  deriving DecidableEq, Repr

/-- `send`: -1, or the number of bytes that were handed over. -/
def send (k : Sockets) (socket_fd : Int) (msg : List UInt8) (o : SendOutcome) : Int :=
  match o with
  | .failed => -1
  | .sent n => if socket_fd ∈ k.connected then (min n msg.length : Nat) else -1

/-! ## The calls -/

/-- `connect_to_host`: the descriptor, or -1. -/
def connect_to_host (k : Sockets) : ConnectOutcome → Sockets × Int
  | .getaddrinfo_failed => (k, -1)
  | .socket_failed => (k, -1)
  -- the error path does not close the socket
  | .connect_failed m => (k.socket m, -1)
  | .connected m =>
    ((k.socket m).connect (m.pick k.held) (List.mem_append_right _ (List.mem_singleton_self _)),
      m.pick k.held)

/-- The loop of `connect_to_peers` from the peer with the index `i` on: the peers, the
sockets and `failed`. -/
def connect_from (o : Nat → ConnectOutcome) :
    Nat → List peer_o → Sockets → List peer_o × Sockets × Nat
  | _, [], k => ([], k, 0)
  | i, to_con :: rest, k =>
    if to_con.open_con then
      let r := connect_from o (i + 1) rest k
      (to_con :: r.1, r.2.1, r.2.2)
    else
      let res := connect_to_host k (o i)
      let r := connect_from o (i + 1) rest res.1
      (connect_to_peer res.2 to_con :: r.1, r.2.1, (if res.2 = -1 then 1 else 0) + r.2.2)

/-- `send_msg`. -/
def send_msg (k : Sockets) (socket_fd : Int) (msg : List UInt8) (o : SendOutcome) : Int :=
  if send k socket_fd msg o = 0 then 0 else 1

/-- The value `send_msg_peer` returns. -/
def send_msg_peer_ret (k : Sockets) (peer : peer_o) (msg : List UInt8) (o : SendOutcome) : Int :=
  match send_msg_peer peer msg with
  | none => -1
  | some s => send_msg k s.socket_fd s.bytes o

/-- `parse_peers` on a text, and whether it is still in its loop: then it has read the
entries before the first incomplete one. -/
def refresh (fd : Nat → Int) (t : Peers) (peer_msg : Str) : Peers × Bool :=
  match parse_peers fd (peer_msg.length + 2) t peer_msg with
  | some (_, t') => (t', false)
  | none =>
    (((tokens peer_msg space).takeWhile fun tok => decide (Complete tok)).foldl (add_entry fd)
      (clean_peers_list t), true)

/-! ## Runs -/

/-- The peers, their sockets, and whether the thread of the name server is still reading a
peer message. -/
structure PeerState where
  peers : Peers
  sockets : Sockets
  reading : Bool

/-- A client before the first peer message. -/
def no_peers : PeerState := ⟨⟨[], 0, []⟩, Sockets.none, false⟩

/-- What happens to the peers of a client. -/
inductive PeerInput where
  /-- A peer message from the name server. -/
  | refresh (peer_msg : Str)
  /-- `connect_to_peers`, with the outcome for each index. -/
  | connect (o : Nat → ConnectOutcome)
  /-- `send_msg_peer` to the peer with this index. -/
  | send (i : Nat) (msg : List UInt8) (o : SendOutcome)

/-- The value a call returned. -/
inductive PeerOutput where
  | connected (failed : Nat)
  | sent (ret : Int)
  deriving DecidableEq, Repr

/-- One call.  The thread that reads peer messages does nothing else while it reads one. -/
def peer_step (fd : Nat → Int) (s : PeerState) : PeerInput → PeerState × List PeerOutput
  | .refresh peer_msg =>
    if s.reading then (s, [])
    else
      let r := refresh fd s.peers peer_msg
      (⟨r.1, s.sockets.close (r.1.closed.drop s.peers.closed.length), r.2⟩, [])
  | .connect o =>
    if s.reading then (s, [])
    else
      let r := connect_from o 0 s.peers.peer_list s.sockets
      (⟨{ s.peers with peer_list := r.1 }, r.2.1, false⟩, [.connected r.2.2])
  | .send i msg o =>
    match s.peers.peer_list[i]? with
    | none => (s, [])
    | some peer => (s, [.sent (send_msg_peer_ret s.sockets peer msg o)])

/-- The flags and descriptors of the peers agree with the sockets. -/
structure Truthful (s : PeerState) : Prop where
  open_iff : ∀ peer ∈ s.peers.peer_list,
    (peer.open_con = true ↔ peer.socket_fd ∈ s.sockets.connected)
  held_iff : ∀ socket_fd, socket_fd ∈ s.sockets.held ↔
    ∃ peer ∈ s.peers.peer_list, peer.open_con = true ∧ peer.socket_fd = socket_fd

/-- The peer at an index is not connected, and will not be. -/
def FailsAt (o : Nat → ConnectOutcome) (peer_list : List peer_o) (i : Nat) : Prop :=
  ∃ peer, peer_list[i]? = some peer ∧ peer.open_con = false ∧ ¬ (o i).Succeeds

/-- A step leaves the peers truthful and tells the truth about what it did: how many peers
failed, and that these are the ones to try again; that a message was handed over as a
whole, or that there is no connection. -/
structure TellsTruth (fd : Nat → Int) (s : PeerState) (i : PeerInput) : Prop where
  state : Truthful (peer_step fd s i).1
  failed : ∀ o failed, i = .connect o → (peer_step fd s i).2 = [.connected failed] →
    ∃ indices : List Nat, indices.Nodup ∧ indices.length = failed ∧
      ∀ j, j ∈ indices ↔ FailsAt o s.peers.peer_list j
  retried : ∀ o failed, i = .connect o → (peer_step fd s i).2 = [.connected failed] →
    ∀ j peer, (peer_step fd s i).1.peers.peer_list[j]? = some peer →
      (peer.open_con = false ↔ FailsAt o s.peers.peer_list j)
  whole : ∀ j msg o, i = .send j msg o → (peer_step fd s i).2 = [.sent 1] →
    ∃ peer, s.peers.peer_list[j]? = some peer ∧ peer.socket_fd ∈ s.sockets.connected ∧
      send s.sockets peer.socket_fd msg o = msg.length
  refused : ∀ j msg o peer, i = .send j msg o → s.peers.peer_list[j]? = some peer →
    peer.socket_fd ∉ s.sockets.connected → (peer_step fd s i).2 = [.sent (-1)]

/-- Nothing fails: every connection that is tried is made, and every `send` on a connected
socket takes all of its message or none. -/
def NothingFails (s : PeerState) : PeerInput → Prop
  | .refresh _ => True
  | .connect o => s.reading = false → ∀ j, ¬ FailsAt o s.peers.peer_list j
  | .send j msg o => ∀ peer, s.peers.peer_list[j]? = some peer →
    peer.socket_fd ∈ s.sockets.connected →
      send s.sockets peer.socket_fd msg o = 0 ∨ send s.sockets peer.socket_fd msg o = msg.length

/-! ## Connecting -/

section Connect
variable {o : Nat → ConnectOutcome} {k : Sockets}

theorem connect_to_host_succeeds {r : ConnectOutcome} (h : r.Succeeds) :
    (connect_to_host k r).2 ∉ k.held ∧ 0 ≤ (connect_to_host k r).2 ∧
      (connect_to_host k r).1.held = k.held ++ [(connect_to_host k r).2] ∧
      (connect_to_host k r).1.connected = k.connected ++ [(connect_to_host k r).2] := by
  cases r with
  | connected m => exact ⟨m.fresh k.held, m.nonneg k.held, rfl, rfl⟩
  | _ => exact absurd h id

theorem connect_to_host_fails {r : ConnectOutcome} (h : ¬ r.Succeeds) :
    (connect_to_host k r).2 = -1 := by
  cases r with
  | connected m => exact absurd trivial h
  | _ => rfl

theorem connect_from_open {to_con : peer_o} (h : to_con.open_con = true) (i : Nat)
    (rest : List peer_o) :
    connect_from o i (to_con :: rest) k =
      (to_con :: (connect_from o (i + 1) rest k).1, (connect_from o (i + 1) rest k).2.1,
        (connect_from o (i + 1) rest k).2.2) := by
  rw [connect_from, if_pos h]

theorem connect_from_closed {to_con : peer_o} (h : to_con.open_con = false) (i : Nat)
    (rest : List peer_o) :
    connect_from o i (to_con :: rest) k =
      (connect_to_peer (connect_to_host k (o i)).2 to_con ::
          (connect_from o (i + 1) rest (connect_to_host k (o i)).1).1,
        (connect_from o (i + 1) rest (connect_to_host k (o i)).1).2.1,
        (if (connect_to_host k (o i)).2 = -1 then 1 else 0) +
          (connect_from o (i + 1) rest (connect_to_host k (o i)).1).2.2) := by
  rw [connect_from, if_neg (by simp [h])]

/-- **A peer that is not connected** is marked as if it were, with -1 for its socket. -/
theorem connect_from_fails {l : List peer_o} {i j : Nat} {peer : peer_o} (hpeer : l[j]? = some peer)
    (hclosed : peer.open_con = false) (hfail : ¬ (o (i + j)).Succeeds) :
    (connect_from o i l k).1[j]? = some (connect_to_peer (-1) peer) := by
  induction l generalizing i j k with
  | nil => cases hpeer
  | cons to_con rest ih =>
    cases j with
    | zero =>
      cases hpeer
      have hfail : ¬ (o i).Succeeds := hfail
      rw [connect_from_closed hclosed, connect_to_host_fails hfail]
      rfl
    | succ j =>
      have hrest : ∀ k, (connect_from o (i + 1) rest k).1[j]? = some (connect_to_peer (-1) peer) :=
        fun k => ih hpeer (by rwa [show i + 1 + j = i + (j + 1) by omega])
      cases hcon : to_con.open_con with
      | true =>
        rw [connect_from_open hcon]
        exact hrest k
      | false =>
        rw [connect_from_closed hcon]
        exact hrest _

/-- What the loop does when every connection it tries is made. -/
structure Connected (l : List peer_o) (k : Sockets) (r : List peer_o × Sockets × Nat) : Prop where
  peers : ∀ peer ∈ r.1, peer.open_con = true ∧ peer.socket_fd ∈ r.2.1.connected
  kept : ∀ peer ∈ l, peer.open_con = true → peer ∈ r.1
  grows : ∀ fd ∈ k.connected, fd ∈ r.2.1.connected
  held : ∀ fd, fd ∈ r.2.1.held ↔ fd ∈ k.held ∨ ∃ peer ∈ r.1, peer.socket_fd = fd
  failed : r.2.2 = 0

/-- **A loop without failures.** -/
theorem connect_from_connected {l : List peer_o} {i : Nat}
    (hopen : ∀ peer ∈ l, peer.open_con = true → peer.socket_fd ∈ k.connected)
    (hall : ∀ j peer, l[j]? = some peer → peer.open_con = false → (o (i + j)).Succeeds) :
    Connected l k (connect_from o i l k) := by
  induction l generalizing i k with
  | nil => exact ⟨by simp [connect_from], by simp, fun _ h => h, by simp [connect_from], rfl⟩
  | cons to_con rest ih =>
    have hrest : ∀ j peer, rest[j]? = some peer → peer.open_con = false →
        (o (i + 1 + j)).Succeeds := by
      intro j peer hpeer hclosed
      rw [show i + 1 + j = i + (j + 1) by omega]
      exact hall (j + 1) peer hpeer hclosed
    cases hcon : to_con.open_con with
    | true =>
      rw [connect_from_open hcon]
      have hfd := hopen to_con List.mem_cons_self hcon
      obtain ⟨hpeers, hkept, hgrows, hheld, hfailed⟩ :=
        ih (fun peer h => hopen peer (List.mem_cons_of_mem _ h)) hrest
      refine ⟨?_, ?_, hgrows, ?_, hfailed⟩
      · intro peer hpeer
        rcases List.mem_cons.mp hpeer with rfl | hpeer
        · exact ⟨hcon, hgrows _ hfd⟩
        · exact hpeers peer hpeer
      · intro peer hpeer hopen
        rcases List.mem_cons.mp hpeer with rfl | hpeer
        · exact List.mem_cons_self
        · exact List.mem_cons_of_mem _ (hkept peer hpeer hopen)
      · intro fd
        rw [hheld, List.exists_mem_cons_iff]
        constructor
        · rintro (h | h)
          · exact Or.inl h
          · exact Or.inr (Or.inr h)
        · rintro (h | rfl | h)
          · exact Or.inl h
          · exact Or.inl (k.held_of_connected _ hfd)
          · exact Or.inr h
    | false =>
      rw [connect_from_closed hcon]
      have hsucc : (o i).Succeeds := hall 0 to_con rfl hcon
      obtain ⟨-, hnonneg, hheld₁, hconnected₁⟩ := connect_to_host_succeeds (k := k) hsucc
      obtain ⟨hpeers, hkept, hgrows, hheld, hfailed⟩ :=
        ih (k := (connect_to_host k (o i)).1) (fun peer h hopen' => by
          rw [hconnected₁]
          exact List.mem_append_left _ (hopen peer (List.mem_cons_of_mem _ h) hopen')) hrest
      refine ⟨?_, ?_, ?_, ?_, ?_⟩
      · intro peer hpeer
        rcases List.mem_cons.mp hpeer with rfl | hpeer
        · refine ⟨rfl, hgrows _ ?_⟩
          rw [hconnected₁]
          exact List.mem_append_right _ (List.mem_singleton_self _)
        · exact hpeers peer hpeer
      · intro peer hpeer hopen'
        rcases List.mem_cons.mp hpeer with rfl | hpeer
        · rw [hcon] at hopen'
          cases hopen'
        · exact List.mem_cons_of_mem _ (hkept peer hpeer hopen')
      · intro fd hfd
        apply hgrows
        rw [hconnected₁]
        exact List.mem_append_left _ hfd
      · intro fd
        rw [hheld, hheld₁, List.mem_append, List.mem_singleton, List.exists_mem_cons_iff, or_assoc,
          eq_comm (a := fd)]
        rfl
      · have hne : (connect_to_host k (o i)).2 ≠ -1 := by omega
        rw [if_neg hne, hfailed]

/-- The turns of the loop over indices, from one on. -/
theorem foldl_connect_turn_eq {sock : Nat → Int} {l : List peer_o} (pre : List peer_o)
    (i failed : Nat) (hpre : pre.length = i)
    (hsock : ∀ j peer, (connect_from o i l k).1[j]? = some peer → peer.socket_fd = sock (i + j)) :
    (List.range' i l.length).foldl
        (fun r i => ((connect_turn sock r.1 i).1, r.2 + (connect_turn sock r.1 i).2))
        (pre ++ l, failed) =
      (pre ++ (connect_from o i l k).1, failed + (connect_from o i l k).2.2) := by
  induction l generalizing pre i failed k with
  | nil => rfl
  | cons to_con rest ih =>
    have hget : (pre ++ to_con :: rest)[i]? = some to_con := by
      rw [List.getElem?_append_right (by omega), hpre, Nat.sub_self]
      rfl
    have hnext (j : Nat) : i + (j + 1) = i + 1 + j := by omega
    rw [List.length_cons, List.range'_succ, List.foldl_cons]
    cases hcon : to_con.open_con with
    | true =>
      rw [connect_from_open hcon] at hsock ⊢
      have hturn : connect_turn sock (pre ++ to_con :: rest) i = (pre ++ to_con :: rest, 0) := by
        simp [connect_turn, hget, hcon]
      have hrest := ih (pre ++ [to_con]) (i + 1) failed (by simp [hpre])
        fun j peer (h : (connect_from o (i + 1) rest k).1[j]? = some peer) =>
          hnext j ▸ hsock (j + 1) peer h
      simp only [List.append_assoc, List.singleton_append] at hrest
      rw [hturn]
      exact hrest
    | false =>
      rw [connect_from_closed hcon] at hsock ⊢
      have hfd : (connect_to_host k (o i)).2 = sock i := hsock 0 _ rfl
      have hturn : connect_turn sock (pre ++ to_con :: rest) i =
          (pre ++ connect_to_peer (sock i) to_con :: rest, if sock i = -1 then 1 else 0) := by
        simp [connect_turn, hcon, ← hpre]
      have hrest := ih (pre ++ [connect_to_peer (sock i) to_con]) (i + 1)
        (failed + if sock i = -1 then 1 else 0) (by simp [hpre])
        fun j peer (h : (connect_from o (i + 1) rest (connect_to_host k (o i)).1).1[j]? =
          some peer) => hnext j ▸ hsock (j + 1) peer h
      simp only [List.append_assoc, List.singleton_append] at hrest
      rw [hturn, hfd, ← Nat.add_assoc]
      exact hrest

/-- **The loop is `connect_to_peers`** for the descriptors it is given on the way. -/
theorem connect_from_eq (o : Nat → ConnectOutcome) (l : List peer_o) (k : Sockets) :
    ∃ sock, connect_to_peers sock l =
      ((connect_from o 0 l k).1, (connect_from o 0 l k).2.2) := by
  let sock (j : Nat) : Int := (((connect_from o 0 l k).1[j]?).map peer_o.socket_fd).getD 0
  have hsock : ∀ j peer, (connect_from o 0 l k).1[j]? = some peer →
      peer.socket_fd = sock (0 + j) := by
    intro j peer h
    simp only [sock, Nat.zero_add, h]
    rfl
  have hloop := foldl_connect_turn_eq [] 0 0 rfl hsock
  refine ⟨sock, ?_⟩
  rw [connect_to_peers, List.range_eq_range']
  rwa [List.nil_append, List.nil_append, Nat.zero_add] at hloop

end Connect

/-! ## Refreshing -/

theorem foldl_add_entry_closed (fd : Nat → Int) (toks : List Str) (t : Peers)
    (h : ∀ peer ∈ t.peer_list, peer.open_con = false) :
    (toks.foldl (add_entry fd) t).closed = t.closed ∧
      ∀ peer ∈ (toks.foldl (add_entry fd) t).peer_list, peer.open_con = false := by
  induction toks generalizing t with
  | nil => exact ⟨rfl, h⟩
  | cons tok toks ih =>
    rw [List.foldl_cons]
    have hone : (add_entry fd t tok).closed = t.closed ∧
        ∀ peer ∈ (add_entry fd t tok).peer_list, peer.open_con = false := by
      unfold add_entry
      split
      · refine ⟨rfl, fun peer hpeer => ?_⟩
        rcases List.mem_append.mp hpeer with hpeer | hpeer
        · exact h peer hpeer
        · rw [List.mem_singleton.mp hpeer]
          rfl
      · exact ⟨rfl, h⟩
    obtain ⟨hclosed, hopen⟩ := ih _ hone.2
    exact ⟨hclosed.trans hone.1, hopen⟩

/-- **A refresh** leaves an empty text alone; otherwise it closes the sockets of the open
peers, and no peer is open afterwards. -/
theorem refresh_cases (fd : Nat → Int) (t : Peers) (peer_msg : Str) :
    (refresh fd t peer_msg).1 = t ∨
      ((refresh fd t peer_msg).1.closed =
          t.closed ++ (t.peer_list.filter (·.open_con)).map (·.socket_fd) ∧
        ∀ peer ∈ (refresh fd t peer_msg).1.peer_list, peer.open_con = false) := by
  by_cases hne : peer_msg = []
  · subst hne
    exact Or.inl rfl
  · right
    have hfold : ∃ toks : List Str,
        (refresh fd t peer_msg).1 = toks.foldl (add_entry fd) (clean_peers_list t) := by
      by_cases h : ∀ tok ∈ tokens peer_msg space, Complete tok
      · obtain ⟨extra, hextra⟩ := Nat.exists_eq_add_of_le (tokens_length_le peer_msg space)
        refine ⟨tokens peer_msg space, ?_⟩
        rw [refresh, show peer_msg.length + 2 =
          extra + (tokens peer_msg space).length + 1 by omega, parse_peers_tokens fd hne h]
      · rw [refresh, parse_peers_stuck fd h]
        exact ⟨_, rfl⟩
    obtain ⟨toks, htoks⟩ := hfold
    rw [htoks]
    exact foldl_add_entry_closed fd toks (clean_peers_list t) (by simp [clean_peers_list])

/-! ## One step -/

section Step
variable {fd : Nat → Int} {s : PeerState}

theorem truthful_no_peers : Truthful no_peers :=
  ⟨by simp [no_peers], by simp [no_peers, Sockets.none]⟩

theorem truthful_refresh (ht : Truthful s) (peer_msg : Str) :
    Truthful (peer_step fd s (.refresh peer_msg)).1 := by
  simp only [peer_step]
  split
  · exact ht
  · rcases refresh_cases fd s.peers peer_msg with he | ⟨hclosed, hopen⟩
    · rw [he]
      refine ⟨fun peer hpeer => ?_, fun socket_fd => ?_⟩
      · simpa [Sockets.close] using ht.open_iff peer hpeer
      · simpa [Sockets.close] using ht.held_iff socket_fd
    · have hheld : ∀ socket_fd, socket_fd ∉ (s.sockets.close ((refresh fd s.peers
          peer_msg).1.closed.drop s.peers.closed.length)).held := by
        intro socket_fd hmem
        rw [hclosed, List.drop_left] at hmem
        obtain ⟨hheld, hnot⟩ := List.mem_filter.mp hmem
        obtain ⟨peer, hpeer, hcon, rfl⟩ := (ht.held_iff socket_fd).mp hheld
        have hmem' : peer.socket_fd ∈
            (s.peers.peer_list.filter (·.open_con)).map (·.socket_fd) :=
          List.mem_map_of_mem (List.mem_filter.mpr ⟨hpeer, hcon⟩)
        simp [hmem'] at hnot
      refine ⟨fun peer hpeer => iff_of_false ?_ fun hmem => ?_, fun socket_fd =>
        iff_of_false (hheld socket_fd) ?_⟩
      · rw [hopen peer hpeer]
        nofun
      · exact hheld _ (Sockets.held_of_connected _ _ hmem)
      · rintro ⟨peer, hpeer, hcon, -⟩
        rw [hopen peer hpeer] at hcon
        cases hcon

theorem send_msg_peer_ret_eq (k : Sockets) (peer : peer_o) (msg : List UInt8) (o : SendOutcome) :
    send_msg_peer_ret k peer msg o =
      if peer.open_con then (if send k peer.socket_fd msg o = 0 then 0 else 1) else -1 := by
  unfold send_msg_peer_ret send_msg_peer
  split
  · rename_i hnone
    split at hnone
    · cases hnone
    · rename_i hcon
      rw [if_neg hcon]
  · rename_i hsome
    split at hsome
    · rename_i hcon
      cases hsome
      rw [if_pos hcon]
      rfl
    · cases hsome

theorem tellsTruth_refresh (ht : Truthful s) (peer_msg : Str) :
    TellsTruth fd s (.refresh peer_msg) :=
  ⟨truthful_refresh ht peer_msg, nofun, nofun, nofun, nofun⟩

/-- **Connecting** tells the truth exactly when no peer fails. -/
theorem tellsTruth_connect_iff (ht : Truthful s) (o : Nat → ConnectOutcome) :
    TellsTruth fd s (.connect o) ↔ NothingFails s (.connect o) := by
  cases hreading : s.reading with
  | true =>
    have hstep : peer_step fd s (.connect o) = (s, []) := by simp [peer_step, hreading]
    refine iff_of_true ⟨by rwa [hstep], ?_, ?_, nofun, nofun⟩ fun hno => ?_
    · intro o' failed _ hout
      rw [hstep] at hout
      cases hout
    · intro o' failed _ hout
      rw [hstep] at hout
      cases hout
    · rw [hreading] at hno
      cases hno
  | false =>
    have hstep : peer_step fd s (.connect o) =
        (⟨{ s.peers with peer_list := (connect_from o 0 s.peers.peer_list s.sockets).1 },
          (connect_from o 0 s.peers.peer_list s.sockets).2.1, false⟩,
          [.connected (connect_from o 0 s.peers.peer_list s.sockets).2.2]) := by
      simp [peer_step, hreading]
    constructor
    · rintro htrue - j ⟨peer, hpeer, hclosed, hfail⟩
      -- the peer counts as connected to socket -1
      have hafter := connect_from_fails (k := s.sockets) (i := 0) hpeer hclosed
        (by rwa [Nat.zero_add])
      have hstate := htrue.state
      rw [hstep] at hstate
      have hmem := (hstate.open_iff _ (List.mem_of_getElem? hafter)).mp rfl
      have hnonneg : (0 : Int) ≤ -1 := Sockets.nonneg _ _ (Sockets.held_of_connected _ _ hmem)
      omega
    · intro hnone
      have hnone := hnone hreading
      have hspec := connect_from_connected (o := o) (k := s.sockets) (i := 0)
        (fun peer hpeer => (ht.open_iff peer hpeer).mp) (fun j peer hpeer hclosed => by
          by_contra hfail
          rw [Nat.zero_add] at hfail
          exact hnone j ⟨peer, hpeer, hclosed, hfail⟩)
      refine ⟨?_, ?_, ?_, nofun, nofun⟩
      · rw [hstep]
        refine ⟨fun peer hpeer => ?_, fun socket_fd => ?_⟩
        · obtain ⟨hcon, hmem⟩ := hspec.peers peer hpeer
          exact iff_of_true hcon hmem
        · rw [hspec.held]
          constructor
          · rintro (hheld | ⟨peer, hpeer, he⟩)
            · obtain ⟨peer, hpeer, hcon, he⟩ := (ht.held_iff socket_fd).mp hheld
              exact ⟨peer, hspec.kept peer hpeer hcon, hcon, he⟩
            · exact ⟨peer, hpeer, (hspec.peers peer hpeer).1, he⟩
          · rintro ⟨peer, hpeer, -, he⟩
            exact Or.inr ⟨peer, hpeer, he⟩
      · intro o' failed hi hout
        cases hi
        rw [hstep, hspec.failed] at hout
        cases hout
        refine ⟨[], List.nodup_nil, rfl, fun j => iff_of_false (by simp) (hnone j)⟩
      · intro o' failed hi _ j peer hpeer
        cases hi
        rw [hstep] at hpeer
        have hcon := (hspec.peers peer (List.mem_of_getElem? hpeer)).1
        exact iff_of_false (by rw [hcon]; nofun) (hnone j)

/-- **Sending** tells the truth exactly when all of the message is taken, or none of it. -/
theorem tellsTruth_send_iff (ht : Truthful s) (j : Nat) (msg : List UInt8) (o : SendOutcome) :
    TellsTruth fd s (.send j msg o) ↔ NothingFails s (.send j msg o) := by
  cases hpeer : s.peers.peer_list[j]? with
  | none =>
    have hstep : peer_step fd s (.send j msg o) = (s, []) := by simp [peer_step, hpeer]
    refine iff_of_true ⟨by rwa [hstep], nofun, nofun, ?_, ?_⟩ fun peer hpeer' => ?_
    · intro j' msg' o' _ hout
      rw [hstep] at hout
      cases hout
    · intro j' msg' o' peer hi hpeer'
      cases hi
      rw [hpeer] at hpeer'
      cases hpeer'
    · rw [hpeer] at hpeer'
      cases hpeer'
  | some peer =>
    have hstep : peer_step fd s (.send j msg o) =
        (s, [.sent (if peer.open_con then
          (if send s.sockets peer.socket_fd msg o = 0 then 0 else 1) else -1)]) := by
      simp [peer_step, hpeer, send_msg_peer_ret_eq]
    have hopen := ht.open_iff peer (List.mem_of_getElem? hpeer)
    constructor
    · intro htrue peer' hpeer' hmem
      cases hpeer.symm.trans hpeer'
      by_contra hbad
      rw [not_or] at hbad
      have hout : (peer_step fd s (.send j msg o)).2 = [.sent 1] := by
        rw [hstep, if_pos (hopen.mpr hmem), if_neg hbad.1]
      obtain ⟨peer', hpeer', -, hwhole⟩ := htrue.whole j msg o rfl hout
      cases hpeer.symm.trans hpeer'
      exact hbad.2 hwhole
    · intro hno
      refine ⟨by rwa [hstep], nofun, nofun, ?_, ?_⟩
      · intro j' msg' o' hi hout
        cases hi
        rw [hstep] at hout
        by_cases hcon : peer.open_con = true
        · have hmem := hopen.mp hcon
          rw [if_pos hcon] at hout
          rcases hno peer hpeer hmem with hzero | hwhole
          · rw [if_pos hzero] at hout
            cases hout
          · exact ⟨peer, hpeer, hmem, hwhole⟩
        · rw [if_neg hcon] at hout
          cases hout
      · intro j' msg' o' peer' hi hpeer' hnot
        cases hi
        cases hpeer.symm.trans hpeer'
        rw [hstep, if_neg fun hcon => hnot (hopen.mp hcon)]

theorem tellsTruth_iff (ht : Truthful s) (i : PeerInput) :
    TellsTruth fd s i ↔ NothingFails s i := by
  cases i with
  | refresh peer_msg => exact iff_of_true (tellsTruth_refresh ht peer_msg) trivial
  | connect o => exact tellsTruth_connect_iff ht o
  | send j msg o => exact tellsTruth_send_iff ht j msg o

end Step

/-- Every step of a run tells the truth exactly when nothing fails in any of them. -/
theorem peers_truthful_iff (fd : Nat → Int) (is : List PeerInput) :
    Always (peer_step fd) (fun s _ i => TellsTruth fd s i) no_peers is ↔
      Always (peer_step fd) (fun s _ i => NothingFails s i) no_peers is := by
  induction is using List.reverseRecOn with
  | nil =>
    refine iff_of_true ?_ ?_ <;>
      · intro pre i post hsplit
        simp at hsplit
  | append_singleton is i ih =>
    rw [always_concat, always_concat, ← ih]
    refine and_congr_right fun h => tellsTruth_iff ?_ i
    exact exec_invariant_always (peer_step fd) (fun s _ => Truthful s) truthful_no_peers
      (fun _ _ _ _ htrue => htrue.state) h

/-- A socket with the number after the largest in use. -/
def next_socket : NewSocket where
  pick held := ((held.map Int.toNat).foldl max 0 + 1 : Nat)
  fresh held hmem := by
    have hle := le_foldl_max (n := 0) (Or.inl (List.mem_map_of_mem (f := Int.toNat) hmem))
    rw [Int.toNat_natCast] at hle
    omega
  nonneg held := Int.natCast_nonneg _

/-- The message `1:2` and a failed connection. -/
def failed_connect : List PeerInput :=
  [.refresh [49, 58, 50], .connect fun _ => .connect_failed next_socket]

/-- The peer is marked as connected, its socket stays open, a later call would not try it
again, and a message to it counts as sent. -/
theorem failed_connect_untruthful :
    (exec (peer_step fun _ => 0) no_peers failed_connect).1.peers.peer_list =
        [⟨0, [49], [50], -1, true⟩] ∧
      (exec (peer_step fun _ => 0) no_peers failed_connect).1.sockets.held = [1] ∧
      (exec (peer_step fun _ => 0) no_peers
        (failed_connect ++ [.connect fun _ => .connected next_socket, .send 0 [97] .failed])).2 =
          [.connected 1, .connected 0, .sent 1] ∧
      ¬ Always (peer_step fun _ => 0) (fun s _ i => TellsTruth (fun _ => 0) s i) no_peers
        failed_connect := by
  have hpeers : (exec (peer_step fun _ => 0) no_peers failed_connect).1.peers.peer_list =
      [⟨0, [49], [50], -1, true⟩] := by decide
  refine ⟨hpeers, by decide, by decide, fun h => ?_⟩
  have hstate : Truthful (exec (peer_step fun _ => 0) no_peers failed_connect).1 :=
    exec_invariant_always (peer_step fun _ => 0) (fun s _ => Truthful s) truthful_no_peers
      (fun _ _ _ _ htrue => htrue.state) h
  have hmem := (hstate.open_iff _ (by rw [hpeers]; exact List.mem_singleton_self _)).mp rfl
  have hnonneg : (0 : Int) ≤ -1 := Sockets.nonneg _ _ (Sockets.held_of_connected _ _ hmem)
  omega

end AnonyChat
