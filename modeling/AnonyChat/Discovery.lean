import AnonyChat.Rounds
import AnonyChat.Receive
import AnonyChat.Framing

/-! # Discovery

The name server and its clients as one system: connections come and go, rounds are made in
between, and each client reads its peer messages whenever it gets to them.  Seen from outside
this is a feed: a round publishes to every client that is connected who else is, and the peers
of a client are what it has read last (`discovery_refines`).  So when the messages of the last
round have been read, every two clients it was for are peers of each other
(`overlay_complete`).

The condition is that the rounds come back, that their messages can carry the names and have
room for them, and that a client reads one message at a time (`Orderly`).  That a peer is marked
open says that the client has dialled it, not that the connection was made.
-/
namespace AnonyChat
open CString Linked Machine

/-! ## A client reads its peers -/

section Read
variable {others : List client}

theorem entries_of_intercalate (hcarried : ∀ c ∈ others, Carried c) :
    tokens (space.intercalate (others.map entry_text)) space = others.map entry_text ∧
      entries_of (space.intercalate (others.map entry_text)) = others.map peer_name := by
  have htokens : tokens (space.intercalate (others.map entry_text)) space =
      others.map entry_text := by
    refine tokens_intercalate (d := 32) (fun tok htok => ?_) (by simp [space])
    obtain ⟨c, hc, rfl⟩ := List.mem_map.mp htok
    exact (hcarried c hc).entry_plain
  refine ⟨htokens, ?_⟩
  rw [entries_of, htokens]
  clear htokens
  induction others with
  | nil => rfl
  | cons c others ih =>
    have hsplit : split_entry (entry_text c) = (some c.address, some c.port) := by
      rw [split_entry_eq, (hcarried c List.mem_cons_self).tokens_entry]
      rfl
    simp only [List.map_cons, List.filterMap_cons, hsplit]
    rw [ih fun d hd => hcarried d (List.mem_cons_of_mem _ hd)]
    rfl

theorem nulFree_intercalate {toks : List Str} (h : ∀ tok ∈ toks, NulFree tok) :
    NulFree (space.intercalate toks) := by
  induction toks with
  | nil => exact fun c hc => nomatch hc
  | cons tok toks ih =>
    have hrest := ih fun tok' htok' => h tok' (List.mem_cons_of_mem _ htok')
    cases toks with
    | nil => simpa [List.intercalate] using h tok List.mem_cons_self
    | cons tok' toks =>
      have hspace : NulFree space := by decide
      have happend := (h tok List.mem_cons_self).append (hspace.append hrest)
      simpa [List.intercalate] using happend

theorem Carried.nulFree {c : client} (hc : Carried c) : NulFree (entry_text c) := by
  have hcolon : NulFree (58 :: c.port) := by
    intro ch hch
    rcases List.mem_cons.mp hch with rfl | hch
    · decide
    · exact (hc.port_plain ch hch).2.2
  exact NulFree.append (fun ch hch => (hc.address_plain ch hch).2.2) hcolon

/-- **A peer message is read**: the names become the peers, and all of them are open. -/
theorem refresh_of_tells {msg : Str} {names : List (Str × Str)} (h : Tells msg names)
    (w : Refresh) (peers : Peers) :
    ∃ peers', refresh_peers w peers (cstr msg) = some peers' ∧
      (peers'.peer_list.map fun p => (p.address, p.port)).Perm names ∧
      ∀ p ∈ peers'.peer_list, p.open_con = true := by
  obtain ⟨others, hperm, hne, hcarried, rfl⟩ := h
  obtain ⟨htokens, hentries⟩ := entries_of_intercalate hcarried
  have hnul : NulFree (PEERS ++ space.intercalate (others.map entry_text)) := by
    refine NulFree.append (by decide) (nulFree_intercalate fun tok htok => ?_)
    obtain ⟨c, hc, rfl⟩ := List.mem_map.mp htok
    exact (hcarried c hc).nulFree
  have hcomplete : ∀ tok ∈ tokens (space.intercalate (others.map entry_text)) space,
      Complete tok := by
    intro tok htok
    rw [htokens] at htok
    obtain ⟨c, hc, rfl⟩ := List.mem_map.mp htok
    rw [complete_iff, (hcarried c hc).tokens_entry]
    exact Nat.le_refl 2
  have htext : space.intercalate (others.map entry_text) ≠ [] := by
    intro he
    rw [he, tokens_nil, List.nil_eq, List.map_eq_nil_iff] at htokens
    exact hne htokens
  have hle := tokens_length_le (space.intercalate (others.map entry_text)) space
  obtain ⟨extra, hextra⟩ := Nat.exists_eq_add_of_le' hle
  obtain ⟨t, hparse, hexec⟩ := exec_refresh_steps w.fd w.sock htext hcomplete extra peers
  rw [← hextra] at hparse
  refine ⟨{ t with peer_list := (connect_to_peers w.sock t.peer_list).1 }, ?_, ?_⟩
  · rw [refresh_peers, cstr_of_nulFree hnul, if_pos (str_starts_with_iff.mpr ⟨_, rfl⟩),
      List.drop_left]
    exact congrArg (Option.map fun r : Int × Peers =>
      ({ r.2 with peer_list := (connect_to_peers w.sock r.2.peer_list).1 } : Peers)) hparse
  -- the refresh has come to its end
  · rw [← hexec, hentries]
    have htotal : (refresh_steps (others.map peer_name)).length =
        1 + others.length + others.length := by
      simp [refresh_steps]
      omega
    have hstage : Stage w.sock (others.map peer_name) (1 + others.length + others.length) _ :=
      stage_exec w.fd w.sock peers (by omega) (by omega)
    rw [List.take_of_length_le (by omega)] at hstage
    have hlen := hstage.length_eq
    rw [List.length_map] at hlen
    constructor
    · refine List.Perm.trans (List.Perm.of_eq ?_) hperm
      apply List.ext_getElem
      · rw [List.length_map, List.length_map, hlen]
        omega
      · intro i h₁ h₂
        rw [List.length_map] at h₁ h₂
        obtain ⟨entry, hentry, hnames⟩ := hstage.names i _ (List.getElem?_eq_getElem h₁)
        have hc := hcarried _ (List.getElem_mem h₂)
        rw [List.getElem?_map, List.getElem?_eq_getElem h₂] at hentry
        obtain rfl := Option.some.inj hentry
        obtain ⟨haddress, hport⟩ := hnames
        rw [List.getElem_map, List.getElem_map, haddress, hport]
        exact Prod.ext (List.take_of_length_le (Nat.le_of_lt hc.address_lt))
          (List.take_of_length_le (Nat.le_of_lt hc.port_lt))
    · intro p hp
      obtain ⟨i, hi⟩ := List.mem_iff_getElem?.mp hp
      have hlt := (List.getElem?_eq_some_iff.mp hi).1
      refine (hstage.open_iff i p hi).mpr ?_
      rw [List.length_map]
      omega

end Read

/-! ## The system -/

/-- The name server, whether it is still running, what it has put on each connection and is not
read yet, and the peers of the client at the other end, `none` when its thread for the name
server is caught in `parse_peers`.  A connection is that of the handler at the same index. -/
structure Discovery where
  server : NameServer
  running : Bool
  wire : Nat → List Str
  peers : Nat → Option Peers

/-- A step of the name server, with what the surroundings supply to a round, or a client that
reads up to this many bytes. -/
inductive DiscoveryInput where
  | server (w : Round) (input : ServerInput)
  | read (w : Refresh) (j : Nat) (res : Fin (BUFFER_SIZE + 1))

/-- A round, in this state of the name server, or a client that has read. -/
inductive DiscoveryEvent where
  | round (s : NameServer)
  | read (j : Nat)

/-- What is left of the messages when so many bytes are read. -/
def unread : Nat → List Str → List Str
  | _, [] => []
  | n, msg :: rest =>
    if n = 0 ∨ n < msg.length then msg.drop n :: rest else unread (n - msg.length) rest

/-- A step of the name server; the messages of a round go to the connections.  When a search of
the round is lost, the process is. -/
def serve (s : Discovery) (w : Round) (input : ServerInput) : Discovery × List DiscoveryEvent :=
  match name_server_step s.server input with
  | (server, []) => ({ s with server := server }, [])
  | (server, e :: _) =>
    match Round.manage_graph { w with deref := e.deref } e.client_list with
    | .error _ => ({ s with running := false }, [])
    | .ok visits =>
      ({ s with server := server
                wire := fun j => s.wire j ++ delivered s.server visits j }, [.round s.server])

/-- A turn of the loop of `name_server_handle` in a client; without any bytes `recv` waits. -/
def read_peers (s : Discovery) (w : Refresh) (j res : Nat) : Discovery × List DiscoveryEvent :=
  match s.peers j with
  | none => (s, [])
  | some peers =>
    let bytes := (s.wire j).flatten.take res
    if bytes = [] then (s, [])
    else
      ({ s with wire := Function.update s.wire j (unread res (s.wire j))
                peers := Function.update s.peers j (refresh_peers w peers (cstr bytes)) },
        [.read j])

/-- One step. -/
def discovery_step (s : Discovery) : DiscoveryInput → Discovery × List DiscoveryEvent
  | .server w input => if s.running then serve s w input else (s, [])
  | .read w j res => read_peers s w j res

/-- Before the first connection. -/
def no_discovery (deref : Nat → client) (allocated : List Nat) (open_fds : List Int) :
    Discovery where
  server := no_clients deref allocated open_fds
  running := true
  wire _ := []
  peers _ := some ⟨[], 0, []⟩

/-- What is unread are the bytes of the stream behind those that were read. -/
theorem unread_flatten (n : Nat) (msgs : List Str) :
    (unread n msgs).flatten = msgs.flatten.drop n := by
  induction msgs generalizing n with
  | nil => simp [unread]
  | cons msg msgs ih =>
    rw [unread, List.flatten_cons, List.drop_append]
    split
    · rename_i hlt
      have hnone : n - msg.length = 0 := by
        rcases hlt with rfl | hlt
        · exact Nat.zero_sub _
        · exact Nat.sub_eq_zero_of_le (Nat.le_of_lt hlt)
      rw [hnone, List.drop_zero, List.flatten_cons]
    · rename_i hle
      have hall : msg.length ≤ n := Nat.not_lt.mp fun hlt => hle (Or.inr hlt)
      rw [ih, List.drop_eq_nil_iff.mpr hall, List.nil_append]

theorem unread_first {msg : Str} (hmsg : msg ≠ []) (rest : List Str) :
    unread msg.length (msg :: rest) = rest := by
  have hpos := List.length_pos_iff.mpr hmsg
  rw [unread, if_neg (by omega), Nat.sub_self]
  cases rest with
  | nil => rfl
  | cons msg' rest => exact if_pos (Or.inl rfl)

/-- The round comes back, and its messages can carry the names and have room for them. -/
structure RoundOrderly (w : Round) (e : RoundEvent) : Prop where
  fuel : e.client_list.length < w.fuel
  returns : (Round.manage_graph { w with deref := e.deref } e.client_list).isOk = true
  carried : ∀ c ∈ e.client_list, Carried (e.deref c)
  fits : ∀ c ∈ e.client_list,
    Fits SERVER_MAX_MESSAGE ((addressed e.client_list c).map e.deref)

/-- A round is orderly, and a client reads one message. -/
def Orderly (s : Discovery) : DiscoveryInput → Prop
  | .server w input => ∀ e ∈ (name_server_step s.server input).2, RoundOrderly w e
  | .read _ j res => ∀ msg ∈ (s.wire j).head?, (res : Nat) = msg.length

/-! ## The feed it refines -/

/-- What an event is in the feed. -/
def feed_op : DiscoveryEvent → Feed.Op Nat (List (Str × Str))
  | .round s => .publish (view s)
  | .read j => .take j

/-- The peers are these names, and marked open; before the first list of names there are none. -/
def GoesBy (peers : Peers) : Option (List (Str × Str)) → Prop
  | none => peers.peer_list = []
  | some names => (peers.peer_list.map fun p => (p.address, p.port)).Perm names ∧
    ∀ p ∈ peers.peer_list, p.open_con = true

/-- The messages on a connection tell the views on their way to its client, and the peers of
the client are the view it has taken last. -/
structure Feeds (s : Discovery) (f : Feed.State Nat (List (Str × Str))) : Prop where
  wire : ∀ j, List.Forall₂ Tells (s.wire j) (f.queue j)
  peers : ∀ j, ∃ peers, s.peers j = some peers ∧ GoesBy peers (f.current j)

section Refinement
variable {s : Discovery} {f : Feed.State Nat (List (Str × Str))}

theorem round_event_eq {server : NameServer} {input : ServerInput} {e : RoundEvent}
    (he : e ∈ (name_server_step server input).2) :
    e.client_list = server.client_list ∧ e.deref = server.deref := by
  cases input with
  | accept m k address port => cases he
  | handler i input =>
    rw [name_server_step] at he
    cases hi : server.handlers[i]? with
    | none =>
      rw [hi] at he
      cases he
    | some h =>
      rw [hi] at he
      simp only [handler_step] at he
      split at he
      all_goals first
        | obtain rfl := List.mem_singleton.mp he
          exact ⟨rfl, rfl⟩
        | cases he

/-- **A step of the name server** publishes what its rounds tell. -/
theorem serve_refines (howned : Owned s.server) (hs : Members s.server) (h : Feeds s f)
    {w : Round} {input : ServerInput} (horderly : Orderly s (.server w input)) :
    (serve s w input).1.running = s.running ∧
      (serve s w input).1.server = (name_server_step s.server input).1 ∧
      Feeds (serve s w input).1 (Feed.run f ((serve s w input).2.map feed_op)) := by
  have hsound := (name_server_step_inv howned hs input).2.2
  have hevent : ∀ e ∈ (name_server_step s.server input).2, _ := fun e => round_event_eq
  simp only [Orderly] at horderly
  rw [serve]
  rcases hstep : name_server_step s.server input with ⟨server, _ | ⟨e, es⟩⟩
  · exact ⟨rfl, rfl, h.wire, h.peers⟩
  · rw [hstep] at hsound hevent horderly
    obtain ⟨hlist, hderef⟩ := hevent e List.mem_cons_self
    obtain ⟨hfuel, hreturns, hcarried, hfits⟩ := horderly e List.mem_cons_self
    have hne := (hsound e List.mem_cons_self).nonempty
    cases hround : Round.manage_graph { w with deref := e.deref } e.client_list with
    | error stuck =>
      rw [hround] at hreturns
      cases hreturns
    | ok visits =>
      rw [hlist, hderef] at hcarried hfits
      rw [hlist] at hne hfuel
      rw [Round.manage_graph, hlist, hderef] at hround
      obtain ⟨hclients, hsent⟩ :=
        sends_addressed w.malloc w.rand w.heap hne (sockets_nodup howned hs) hfuel hround
      have hview := round_view howned hs hclients hsent hcarried hfits
      simp only [Round.manage_graph, hlist, hderef, hround]
      refine ⟨trivial, trivial, fun j => ?_, h.peers⟩
      exact List.rel_append (h.wire j) (hview j)

/-- **A client that reads** takes a view. -/
theorem read_peers_refines (h : Feeds s f) {w : Refresh} {j : Nat} {res : Fin (BUFFER_SIZE + 1)}
    (horderly : Orderly s (.read w j res)) :
    (read_peers s w j res).1.running = s.running ∧
      (read_peers s w j res).1.server = s.server ∧
      Feeds (read_peers s w j res).1
        (Feed.run f ((read_peers s w j res).2.map feed_op)) := by
  obtain ⟨peers, hpeers, -⟩ := h.peers j
  have hwire := h.wire j
  cases hmsgs : s.wire j with
  | nil =>
    have hwait : read_peers s w j res = (s, []) := by
      simp [read_peers, hpeers, hmsgs]
    rw [hwait]
    exact ⟨rfl, rfl, h⟩
  | cons msg rest =>
    rw [hmsgs] at hwire
    obtain ⟨names, queue, htells, hrest, hqueue⟩ := List.forall₂_cons_left_iff.mp hwire
    have hres : (res : Nat) = msg.length := horderly msg (by rw [hmsgs]; rfl)
    have hmsg : msg ≠ [] := by
      obtain ⟨others, -, -, -, rfl⟩ := htells
      simp [PEERS]
    obtain ⟨peers', hrefresh, hnames⟩ := refresh_of_tells htells w peers
    have hread : read_peers s w j res =
        ({ s with wire := Function.update s.wire j rest
                  peers := Function.update s.peers j (some peers') }, [.read j]) := by
      simp only [read_peers, hpeers, hmsgs, hres, List.flatten_cons, List.take_left, if_neg hmsg,
        hrefresh, unread_first hmsg]
    rw [hread]
    refine ⟨rfl, rfl, ?_⟩
    rw [show Feed.run f ([DiscoveryEvent.read j].map feed_op) = Feed.step f (.take j) from rfl,
      Feed.step_take_of_cons hqueue]
    constructor
    · intro i
      by_cases hi : i = j
      · subst hi
        simpa using hrest
      · simpa [hi] using h.wire i
    · intro i
      by_cases hi : i = j
      · subst hi
        refine ⟨peers', by simp, ?_⟩
        simpa [Feed.State.current, GoesBy] using hnames
      · simpa [hi, Feed.State.current] using h.peers i

end Refinement

/-! ## Runs -/

/-- What holds of every run: the name server is sound, and the system refines the feed. -/
structure Follows (s : Discovery) (out : List DiscoveryEvent) : Prop where
  running : s.running = true
  owned : Owned s.server
  members : Members s.server
  refines : Feeds s (Feed.run Feed.init (out.map feed_op))

theorem follows_step {s : Discovery} {out : List DiscoveryEvent} (h : Follows s out)
    {i : DiscoveryInput} (hi : Orderly s i) :
    Follows (discovery_step s i).1 (out ++ (discovery_step s i).2) := by
  cases i with
  | server w input =>
    have hstep : discovery_step s (.server w input) = serve s w input := if_pos h.running
    obtain ⟨hrunning, hserver, hrefines⟩ := serve_refines h.owned h.members h.refines hi
    have hinv := name_server_step_inv h.owned h.members input
    rw [hstep]
    refine ⟨hrunning.trans h.running, hserver ▸ hinv.1, hserver ▸ hinv.2.1, ?_⟩
    rw [List.map_append, Feed.run_append]
    exact hrefines
  | read w j res =>
    obtain ⟨hrunning, hserver, hrefines⟩ := read_peers_refines h.refines hi
    refine ⟨hrunning.trans h.running, ?_, ?_, ?_⟩
    · rw [discovery_step, hserver]
      exact h.owned
    · rw [discovery_step, hserver]
      exact h.members
    · rw [List.map_append, Feed.run_append]
      exact hrefines

section Runs
variable {deref : Nat → client} {allocated : List Nat} {open_fds : List Int}

theorem follows_exec {is : List DiscoveryInput}
    (h : Always discovery_step (fun s _ i => Orderly s i)
      (no_discovery deref allocated open_fds) is) :
    Follows (exec discovery_step (no_discovery deref allocated open_fds) is).1
      (exec discovery_step (no_discovery deref allocated open_fds) is).2 := by
  refine exec_invariant_always discovery_step Follows ?_ (fun t out i ht hi => follows_step ht hi) h
  refine ⟨rfl, ⟨?_, ?_, ?_, ?_⟩, ⟨List.nodup_nil, fun c => ?_⟩, fun j => List.Forall₂.nil,
    fun j => ⟨_, rfl, rfl⟩⟩
  all_goals simp [no_discovery, no_clients]

/-- The views the rounds of a run made for a client. -/
def views (j : Nat) (out : List DiscoveryEvent) : List (List (Str × Str)) :=
  out.filterMap fun
    | .round s => view s j
    | .read _ => none

theorem views_eq_published (j : Nat) (out : List DiscoveryEvent) :
    views j out = Feed.published j (out.map feed_op) := by
  rw [views, Feed.published, List.filterMap_map]
  refine List.filterMap_congr fun e _ => ?_
  cases e with
  | round s => rfl
  | read i => rfl

/-- A client that has read everything goes by the view of the last round that was for it. -/
theorem settled_peers {is : List DiscoveryInput}
    (h : Always discovery_step (fun s _ i => Orderly s i)
      (no_discovery deref allocated open_fds) is)
    {before after : List DiscoveryEvent} {s : NameServer}
    (hout : (exec discovery_step (no_discovery deref allocated open_fds) is).2 =
      before ++ .round s :: after)
    (hlast : ∀ e ∈ after, ∃ i, e = .read i) {j : Nat} {names : List (Str × Str)}
    (hview : view s j = some names)
    (hread : (exec discovery_step (no_discovery deref allocated open_fds) is).1.wire j = []) :
    ∃ peers, (exec discovery_step (no_discovery deref allocated open_fds) is).1.peers j =
      some peers ∧ GoesBy peers (some names) := by
  have hfollows := follows_exec h
  obtain ⟨peers, hpeers, hgoes⟩ := hfollows.refines.peers j
  have hdrained := hfollows.refines.wire j
  rw [hread, List.forall₂_nil_left_iff] at hdrained
  rw [hout, List.map_append, List.map_cons] at hdrained hgoes
  have hquiet : ∀ op ∈ after.map feed_op, ∃ m, op = Feed.Op.take m := by
    intro op hop
    obtain ⟨e, he, rfl⟩ := List.mem_map.mp hop
    obtain ⟨i, rfl⟩ := hlast e he
    exact ⟨i, rfl⟩
  rw [show feed_op (.round s) = .publish (view s) from rfl,
    Feed.current_of_last hview hquiet hdrained] at hgoes
  exact ⟨peers, hpeers, hgoes⟩

end Runs

/-! ## Two clients -/

/-- The characters an entry can carry. -/
def plain (ch : UInt8) : Bool := ch != 32 && ch != 58 && ch != 0

theorem all_plain_iff {s : Str} : s.all plain = true ↔ ∀ ch ∈ s, ch ≠ 32 ∧ ch ≠ 58 ∧ ch ≠ 0 := by
  simp [plain, and_assoc]

instance (c : client) : Decidable (Carried c) :=
  decidable_of_iff (c.address ≠ [] ∧ c.port ≠ [] ∧ c.address.all plain = true ∧
      c.port.all plain = true ∧ c.address.length < NI_MAXHOST ∧ c.port.length < NI_MAXSERV)
    ⟨fun ⟨h₁, h₂, h₃, h₄, h₅, h₆⟩ => ⟨h₁, h₂, all_plain_iff.mp h₃, all_plain_iff.mp h₄, h₅, h₆⟩,
      fun ⟨h₁, h₂, h₃, h₄, h₅, h₆⟩ => ⟨h₁, h₂, all_plain_iff.mpr h₃, all_plain_iff.mpr h₄, h₅, h₆⟩⟩

instance (max_message : Nat) (others : List client) : Decidable (Fits max_message others) :=
  inferInstanceAs (Decidable (_ ≤ _))

instance (w : Round) (e : RoundEvent) : Decidable (RoundOrderly w e) :=
  decidable_of_iff (e.client_list.length < w.fuel ∧
      (Round.manage_graph { w with deref := e.deref } e.client_list).isOk = true ∧
      (∀ c ∈ e.client_list, Carried (e.deref c)) ∧ ∀ c ∈ e.client_list,
        Fits SERVER_MAX_MESSAGE ((addressed e.client_list c).map e.deref))
    ⟨fun ⟨h₁, h₂, h₃, h₄⟩ => ⟨h₁, h₂, h₃, h₄⟩, fun ⟨h₁, h₂, h₃, h₄⟩ => ⟨h₁, h₂, h₃, h₄⟩⟩

instance (s : Discovery) (i : DiscoveryInput) : Decidable (Orderly s i) :=
  match i with
  | .server w input =>
    inferInstanceAs (Decidable (∀ e ∈ (name_server_step s.server input).2, RoundOrderly w e))
  | .read _ j res =>
    inferInstanceAs (Decidable (∀ msg ∈ (s.wire j).head?, (res : Nat) = msg.length))

/-- Blocks are numbered. -/
def next_block : NewBlock where
  pick allocated := allocated.foldl max 0 + 1
  fresh allocated hmem := by
    have hle := le_foldl_max (n := 0) (Or.inl hmem)
    omega

/-- Two clients connect, the second tells its port, and both read what they are sent. -/
def two_join : List DiscoveryInput :=
  [.server sample_round (.accept next_block next_socket [] []),
    .server sample_round (.accept next_block next_socket [] []),
    .server sample_round (.handler 0 (.add [49])),
    .server sample_round (.handler 1 (.add [50])),
    .server sample_round (.handler 1 (.message (PORTUPD ++ [32, 57]))),
    .server sample_round (.handler 1 .manage_graph),
    .read sample_refresh 1 12,
    .read sample_refresh 0 9]

/-- The name server before them. -/
def before_two : Discovery := no_discovery (fun _ => ⟨-1, [], []⟩) [] [0, 1, 2]

theorem two_join_orderly :
    Always discovery_step (fun s _ i => Orderly s i) before_two two_join := by
  decide +kernel

/-- The name server at the round of the two. -/
def at_round : NameServer := (exec discovery_step before_two (two_join.take 5)).1.server

theorem two_join_events :
    (exec discovery_step before_two two_join).2 = [] ++ .round at_round :: [.read 1, .read 0] := by
  rfl

end AnonyChat
