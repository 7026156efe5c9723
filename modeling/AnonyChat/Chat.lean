import AnonyChat.Delivery
import AnonyChat.Discovery

/-! # From joining to chatting

The two protocols put together.  The peers that discovery leaves the clients with are the edges
the messages are flooded along; as every client that has read the last round has all others that
were connected then, whatever one of them types is decoded by all others
(`chat_after_discovery`).  What joins the two is the network: a connection made to a name leads
to the client that goes by it.
-/
namespace AnonyChat
open CString Machine

variable {evp : EVP}

/-- The handler of the client is between its two calls at the round. -/
def ListedAt (s : NameServer) (j : Nat) : Prop :=
  ∃ h, s.handlers[j]? = some h ∧ h.stage.Listed

/-- The clients of the network have the peers that discovery left them with, and what a client
sends on a connection that was made to the name of another comes to that one. -/
structure Joined (dst : Nat → Int → Nat) (net₀ : Network evp Nat) (d : Discovery)
    (s : NameServer) : Prop where
  peers : ∀ j, ListedAt s j → ∀ peers, d.peers j = some peers →
    (net₀.node j).peer_list = peers.peer_list
  dials : ∀ j, ListedAt s j → ∀ p ∈ (net₀.node j).peer_list, ∀ (k : Nat) (h : Handler),
    s.handlers[k]? = some h → h.stage.Listed → k ≠ j →
      peer_name (s.deref h.client_o) = (p.address, p.port) → dst j p.socket_fd = k

section Chat
variable {deref : Nat → client} {allocated : List Nat} {open_fds : List Int}
  {is : List DiscoveryInput} {before after : List DiscoveryEvent} {s : NameServer}

/-- **Discovery connects everybody with everybody.** -/
theorem edge_of_discovery {dst : Nat → Int → Nat} {net₀ : Network evp Nat}
    (h : Always discovery_step (fun s _ i => Orderly s i)
      (no_discovery deref allocated open_fds) is)
    (hout : (exec discovery_step (no_discovery deref allocated open_fds) is).2 =
      before ++ .round s :: after)
    (hlast : ∀ e ∈ after, ∃ i, e = .read i)
    (hjoined : Joined dst net₀
      (exec discovery_step (no_discovery deref allocated open_fds) is).1 s) {u v : Nat}
    (hu : ListedAt s u) (hv : ListedAt s v) (hne : v ≠ u)
    (hread : (exec discovery_step (no_discovery deref allocated open_fds) is).1.wire u = []) :
    Edge dst net₀ u v := by
  obtain ⟨hu', hget, hin⟩ := hu
  obtain ⟨hv', hget', hin'⟩ := hv
  have hothers : other_handlers s u ≠ [] :=
    List.ne_nil_of_mem (List.mem_filter.mpr
      ⟨List.mem_eraseIdx_iff_getElem?.mpr ⟨v, hne, hget'⟩, decide_eq_true hin'⟩)
  obtain ⟨names, hview, hmem⟩ := mem_view_iff hget hin hothers
  obtain ⟨peers, hpeers, hnames, hopen⟩ := settled_peers h hout hlast hview hread
  -- the name of `v` is one of the view, and so of a peer
  have hname := hnames.mem_iff.mpr ((hmem _).mpr ⟨v, hv', hne, hget', hin', rfl⟩)
  obtain ⟨p, hp, hpname⟩ := List.mem_map.mp hname
  have hlist := hjoined.peers u ⟨hu', hget, hin⟩ peers hpeers
  refine ⟨p, by rwa [hlist], hopen p hp, ?_⟩
  exact hjoined.dials u ⟨hu', hget, hin⟩ p (by rwa [hlist]) v hv' hget' hin' hne hpname.symm

end Chat

/-! ## Two clients -/

/-- The two clients that joined, with the peers they have read. -/
def two_chat : Network block_evp Nat where
  node j := { sample_client with
    peer_list := ((exec discovery_step before_two two_join).1.peers j).elim [] (·.peer_list) }
  flight := []

/-- A line is typed at the first of them. -/
def two_chat_run : List (Action block_evp Nat) :=
  [.originate 0 sample_world [98, 58, 104, 105], .deliver 0 sample_world, .deliver 0 sample_world,
    .deliver 0 sample_world]

theorem two_chat_settled : Settled (fun u _ => 1 - u) two_chat two_chat_run :=
  have hrun : (exec (net_step fun u _ => 1 - u) two_chat two_chat_run).1.flight = [] ∧
      (originals (exec (net_step fun u _ => 1 - u) two_chat two_chat_run).2).length = 1 := by
    decide +kernel
  settled_of_one ⟨fun _ => rfl, fun _ => rfl, rfl⟩ (by simp) (by decide +kernel) hrun.1 hrun.2

theorem at_round_handlers : at_round.handlers = [⟨1, 3, .listed⟩, ⟨2, 4, .due⟩] := by
  decide +kernel

theorem listedAt_two {j : Nat} (hj : j < 2) : ListedAt at_round j := by
  rw [ListedAt, at_round_handlers]
  match j, hj with
  | 0, _ => exact ⟨_, rfl, by decide⟩
  | 1, _ => exact ⟨_, rfl, by decide⟩

theorem two_chat_joined :
    Joined (fun u _ => 1 - u) two_chat (exec discovery_step before_two two_join).1 at_round := by
  have hlt : ∀ (j : Nat) h, at_round.handlers[j]? = some h → j < 2 := by
    intro j h hj
    have := (List.getElem?_eq_some_iff.mp hj).1
    rwa [at_round_handlers] at this
  constructor
  · intro j _ peers hpeers
    simp [two_chat, hpeers]
  · rintro j ⟨hj', hget, -⟩ p _ k h hget' _ hne _
    have := hlt j hj' hget
    have := hlt k h hget'
    omega

end AnonyChat
