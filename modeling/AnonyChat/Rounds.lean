import AnonyChat.Lib.Feed
import AnonyChat.Membership
import AnonyChat.PeerAgreement

/-! # What a round sends to whom

`manage_graph` makes a message for every client in the list and sends it to the socket of that
client.  Up to four clients each are sent all the others, from five on each of the others twice
(`sends_addressed`).  Seen from the connections, a round gives every handler between its
`list_add` and its `list_remove` the names of all other such handlers, and nothing to anybody
else (`round_view`).
-/
namespace AnonyChat
open CString Linked Machine

/-! ## The messages of a round -/

/-- The clients whose entries a client is sent, up to their order. -/
def addressed (client_list : List Nat) (c : Nat) : List Nat :=
  if client_list.length < PEER_POOL_SIZE then client_list.erase c
  else client_list.erase c ++ client_list.erase c

theorem LostUnless.of_eq_ok {α : Type} {cond : Prop} {r : Except Stuck α} {good : α → Prop}
    (h : LostUnless cond r good) {x : α} (hx : r = .ok x) : good x := by
  by_cases hcond : cond
  · obtain ⟨y, hy, hgood⟩ := h.1 hcond
    cases hx.symm.trans hy
    exact hgood
  · cases hx.symm.trans (h.2 hcond)

section Messages
variable {deref : Nat → client} {client_list : List Nat} {g : Graph} {head graph fuel : Nat}

theorem static_clients_perm (hfd : (client_list.map fun c => (deref c).socket_fd).Nodup) {c : Nat}
    (hc : c ∈ client_list) :
    (static_clients deref client_list (deref c)).Perm (client_list.erase c) := by
  have hnodup : client_list.Nodup := hfd.of_map
  refine (List.perm_ext_iff_of_nodup (hnodup.filter _) (hnodup.erase c)).mpr fun d => ?_
  rw [← static_clients, mem_static_clients_iff hfd hc, hnodup.mem_erase_iff, and_comm]

/-- The nodes of the clients other than one, in the order of the list. -/
theorem map_range_erase {pos : Nat} (hpos : pos < client_list.length) :
    (((List.range client_list.length).erase pos).map fun u => client_list.getD u 0).Perm
      (client_list.erase client_list[pos]) := by
  have hall : (List.range client_list.length).map (fun u => client_list.getD u 0) = client_list := by
    apply List.ext_getElem
    · simp
    · intro i h₁ h₂
      simp [h₂]
  have hmem : pos ∈ List.range client_list.length := List.mem_range.mpr hpos
  have hperm := (List.perm_cons_erase hmem).map fun u => client_list.getD u 0
  rw [hall, List.map_cons, List.getD_eq_getElem?_getD, List.getElem?_eq_getElem hpos,
    Option.getD_some] at hperm
  exact ((List.perm_cons_erase (List.getElem_mem hpos)).symm.trans hperm).cons_inv.symm

theorem rand_clients_perm {rand : Nat → Nat} (hg : BuiltGraph rand client_list g head)
    (hthree : 3 ≤ client_list.length) {pos : Nat}
    (hpos : pos < client_list.length) :
    (rand_clients g pos).Perm
      (client_list.erase client_list[pos] ++ client_list.erase client_list[pos]) := by
  have hmeshed := hg.meshed (List.ne_nil_of_length_pos (by omega))
  have hdata : (fun u => (g u).data) = fun u => client_list.getD u 0 := funext hmeshed.data
  rw [rand_clients, edges_of_wellFormed hmeshed.wellFormed, Option.getD_some, hdata]
  refine ((hg.connections_perm hthree hpos).map _).trans ?_
  rw [List.map_append]
  exact (map_range_erase hpos).append (map_range_erase hpos)

/-- **The message to one client.** -/
theorem client_send_peers_addressed {rand : Nat → Nat} (hg : BuiltGraph rand client_list g head)
    (hfd : (client_list.map fun c => (deref c).socket_fd).Nodup) (htwo : 2 ≤ client_list.length)
    {pos : Nat} (hpos : pos < client_list.length) :
    ∃ others : List Nat, others.Perm (addressed client_list client_list[pos]) ∧
      ∃ msg, client_send_peers deref client_list g (deref client_list[pos]) pos = .ok (some msg) ∧
        Built deref SERVER_MAX_MESSAGE (others.map deref) msg := by
  have hmeshed := hg.meshed (List.ne_nil_of_length_pos (by omega))
  have hsize : 1 ≤ SERVER_MAX_MESSAGE - 2 - 6 := by decide
  by_cases hpool : client_list.length < PEER_POOL_SIZE
  · have hstatic := client_peers_static_eq hsize deref (deref client_list[pos])
      (show client_list.length ≠ 1 by omega)
    have hbuilt : Built deref SERVER_MAX_MESSAGE _ _ := Built.static hstatic
    rw [List.filter_map] at hbuilt
    refine ⟨static_clients deref client_list (deref client_list[pos]), ?_, _, ?_, hbuilt⟩
    · rw [addressed, if_pos hpool]
      exact static_clients_perm hfd (List.getElem_mem hpos)
    · simp only [client_send_peers, gt_iff_lt, if_pos hpool, hstatic]
      rfl
  · have hrand := client_peers_rand_eq hsize deref hmeshed.wellFormed pos
    have hbuilt : Built deref SERVER_MAX_MESSAGE _ _ :=
      Built.rand (edges_of_wellFormed hmeshed.wellFormed pos) hrand
    have hclients : (rand_clients g pos).map deref =
        (g pos).connections.map fun u => deref (g u).data := by
      rw [rand_clients, edges_of_wellFormed hmeshed.wellFormed, Option.getD_some, List.map_map]
      rfl
    rw [← hclients] at hbuilt
    refine ⟨rand_clients g pos, ?_, _, ?_, hbuilt⟩
    · rw [addressed, if_neg hpool]
      have : PEER_POOL_SIZE = 5 := rfl
      exact rand_clients_perm hg (by omega) hpos
    · simp only [client_send_peers, gt_iff_lt, if_neg hpool, hrand, bind, Except.bind]
      rfl

/-- A client that is alone is sent nothing. -/
theorem client_send_peers_alone {c : Nat} :
    client_send_peers deref [c] g (deref c) graph = .ok none := rfl

/-- **The clients one after the other**: who is visited, and from which node its message is
made. -/
theorem visit_clients_of_ok (hg : Meshed client_list g)
    (hfd : (client_list.map fun c => (deref c).socket_fd).Nodup)
    (hgraph : graph < client_list.length) (hfuel : client_list.length < fuel)
    (malloc : Nat → Nat → Malloc Nat) {pre rest : List Nat} (hsplit : client_list = pre ++ rest)
    {heap : Heap Nat} {visits : List Visit}
    (hok : visit_clients fuel deref malloc client_list g graph pre.length rest heap = .ok visits) :
    visits.map Visit.client = rest ∧ ∀ v ∈ visits, ∃ (pos : Nat) (hpos : pos < client_list.length),
      client_list[pos] = v.client ∧
        client_send_peers deref client_list g (deref v.client) pos = .ok v.sent := by
  induction rest generalizing pre heap visits with
  | nil =>
    cases hok
    exact ⟨rfl, fun v hv => nomatch hv⟩
  | cons here rest ih =>
    have hpos : pre.length < client_list.length := by simp [hsplit]
    have hhere : client_list[pre.length] = here := by simp [hsplit]
    have hnext : client_list = (pre ++ [here]) ++ rest := by simp [hsplit]
    obtain ⟨s, hstart, hscan⟩ :=
      scan_spec hg hfd.of_map hgraph hpos hfuel (malloc pre.length) heap
    rw [hhere] at hscan
    rw [visit_clients, hstart] at hok
    simp only [bind, Except.bind] at hok
    cases hloop : scan_loop fuel (malloc pre.length) g here fuel none s with
    | error stuck =>
      rw [hloop] at hok
      cases hok
    | ok r =>
      obtain ⟨target, s'⟩ := r
      obtain rfl : target = some pre.length := hscan.of_eq_ok hloop
      obtain ⟨sent, hsend, -⟩ := client_send_peers_spec hg hfd hpos
      rw [hhere] at hsend
      simp only [hloop, access, hsend] at hok
      cases hrest : visit_clients fuel deref malloc client_list g graph (pre.length + 1) rest
          s'.heap with
      | error stuck =>
        rw [hrest] at hok
        cases hok
      | ok visits' =>
        rw [hrest] at hok
        cases hok
        have hlen : pre.length + 1 = (pre ++ [here]).length := by simp
        rw [hlen] at hrest
        obtain ⟨hclients, hsent⟩ := ih hnext hrest
        refine ⟨by rw [List.map_cons, hclients], fun v hv => ?_⟩
        rcases List.mem_cons.mp hv with rfl | hv
        · exact ⟨pre.length, hpos, hhere, hsend⟩
        · exact hsent v hv

/-- What a round sends to a client, when it comes back. -/
structure SentAddressed (deref : Nat → client) (client_list : List Nat) (v : Visit) : Prop where
  alone : client_list.length = 1 → v.sent = none
  others : 2 ≤ client_list.length → ∃ others : List Nat,
    others.Perm (addressed client_list v.client) ∧
      ∃ msg, v.sent = some msg ∧ Built deref SERVER_MAX_MESSAGE (others.map deref) msg

/-- **The messages of a round** that comes back. -/
theorem sends_addressed (malloc : Nat → Nat → Malloc Nat) (rand : Nat → Nat) (heap : Heap Nat)
    (hne : client_list ≠ []) (hfd : (client_list.map fun c => (deref c).socket_fd).Nodup)
    (hfuel : client_list.length < fuel) {visits : List Visit}
    (hok : manage_graph fuel deref malloc rand heap client_list = .ok visits) :
    visits.map Visit.client = client_list ∧ ∀ v ∈ visits, SentAddressed deref client_list v := by
  obtain ⟨g, graph, hcombine, hg, hgraph, -⟩ := meshed rand hne
  have hround : manage_graph fuel deref malloc rand heap client_list =
      visit_clients fuel deref malloc client_list g graph 0 client_list heap := by
    rw [manage_graph, hcombine]
    rfl
  rw [hround] at hok
  obtain ⟨hclients, hsent⟩ :=
    visit_clients_of_ok hg hfd hgraph hfuel malloc (List.nil_append client_list).symm hok
  refine ⟨hclients, fun v hv => ?_⟩
  obtain ⟨pos, hpos, hclient, hsend⟩ := hsent v hv
  constructor
  · intro hone
    obtain ⟨c, rfl⟩ := List.length_eq_one_iff.mp hone
    obtain rfl : pos = 0 := Nat.lt_one_iff.mp hpos
    rw [← hclient] at hsend
    exact (Except.ok.inj (client_send_peers_alone.symm.trans hsend)).symm
  · intro htwo
    obtain ⟨others, hperm, msg, hmsg, hbuilt⟩ :=
      client_send_peers_addressed (show BuiltGraph rand client_list g graph from hcombine) hfd
        htwo hpos
    rw [hclient] at hperm hmsg
    exact ⟨others, hperm, msg, Except.ok.inj (hsend.symm.trans hmsg), hbuilt⟩

end Messages

/-! ## Seen from the connections -/

/-- What an entry tells about a client. -/
def peer_name (client_p : client) : Str × Str := (client_p.address, client_p.port)

/-- The message lists these names, as often as the list does. -/
def Tells (msg : Str) (names : List (Str × Str)) : Prop :=
  ∃ others : List client, (others.map peer_name).Perm names ∧ others ≠ [] ∧
    (∀ c ∈ others, Carried c) ∧ msg = PEERS ++ space.intercalate (others.map entry_text)

/-- The handlers between their two calls, other than the one at `j`. -/
def other_handlers (s : NameServer) (j : Nat) : List Handler :=
  (s.handlers.eraseIdx j).filter (·.stage.Listed)

/-- What the client at the other end of a connection is to be told: the names of all others
whose handlers are between their two calls, from five clients on twice.  Nothing when there
are none, or before the handler of its own has entered it, or after it has taken it out. -/
def view (s : NameServer) (j : Nat) : Option (List (Str × Str)) :=
  match s.handlers[j]? with
  | none => none
  | some h =>
    let others := (other_handlers s j).map fun h => peer_name (s.deref h.client_o)
    if h.stage.Listed ∧ others ≠ [] then
      some (if others.length + 1 < PEER_POOL_SIZE then others else others ++ others)
    else none

/-- What the visits of a round put on the connection of a handler: the messages that are sent
to its socket while it is open. -/
def delivered (s : NameServer) (visits : List Visit) (j : Nat) : List Str :=
  match s.handlers[j]? with
  | none => []
  | some h =>
    if h.stage.Connected then
      visits.filterMap fun v =>
        if (s.deref v.client).socket_fd = h.client_socket then v.sent else none
    else []

theorem Fits.of_perm {max_message : Nat} {others others' : List client}
    (h : Fits max_message others) (hperm : others'.Perm others) : Fits max_message others' := by
  rw [Fits, (hperm.map fun c => entry_text c ++ space).flatten.length_eq]
  exact h

/-- At most one element of the list is kept. -/
theorem filterMap_of_unique {α β : Type} {l : List α} (hl : l.Nodup) {f : α → Option β} {a : α}
    (ha : a ∈ l) (h : ∀ b ∈ l, b ≠ a → f b = none) : l.filterMap f = (f a).toList := by
  obtain ⟨pre, post, rfl⟩ := List.append_of_mem ha
  rw [List.nodup_append] at hl
  have hpre : pre.filterMap f = [] := List.filterMap_eq_nil_iff.mpr fun b hb =>
    h b (List.mem_append_left _ hb) fun he => hl.2.2 b hb a List.mem_cons_self he
  have hpost : post.filterMap f = [] := List.filterMap_eq_nil_iff.mpr fun b hb =>
    h b (List.mem_append_right _ (List.mem_cons_of_mem _ hb)) fun he =>
      (List.nodup_cons.mp hl.2.1).1 (he ▸ hb)
  rw [List.filterMap_append, hpre, List.nil_append, ← List.singleton_append,
    List.filterMap_append, hpost, List.append_nil]
  cases hf : f a <;> simp [hf]

section View
variable {s : NameServer} {j : Nat} {h : Handler}

/-- The other handlers are those of the other clients in the list. -/
theorem other_handlers_perm (howned : Owned s) (hs : Members s) (hj : s.handlers[j]? = some h)
    (hin : h.stage.Listed) :
    ((other_handlers s j).map (·.client_o)).Perm (s.client_list.erase h.client_o) := by
  have hdistinct : s.handlers.Pairwise fun h h' =>
      h.stage.Listed → h'.stage.Listed → h.client_o ≠ h'.client_o := by
    refine List.pairwise_iff_getElem.mpr fun i k hi hk hlt hin hin' he => ?_
    have := howned.block_inj i k _ _ (List.getElem?_eq_getElem hi) (List.getElem?_eq_getElem hk)
      hin.connected.live hin'.connected.live he
    omega
  have hnodup : ((other_handlers s j).map (·.client_o)).Nodup := by
    have hothers := (hdistinct.sublist (List.eraseIdx_sublist s.handlers j)).filter
      (fun h => decide h.stage.Listed)
    refine List.pairwise_map.mpr (hothers.imp_of_mem fun ha hb hne => ?_)
    exact hne (of_decide_eq_true (List.mem_filter.mp ha).2)
      (of_decide_eq_true (List.mem_filter.mp hb).2)
  refine (List.perm_ext_iff_of_nodup hnodup (hs.nodup.erase _)).mpr fun d => ?_
  rw [hs.nodup.mem_erase_iff, hs.mem_iff]
  constructor
  · intro hd
    obtain ⟨h', hmem, rfl⟩ := List.mem_map.mp hd
    obtain ⟨hmem, hin'⟩ := List.mem_filter.mp hmem
    have hin' := of_decide_eq_true hin'
    obtain ⟨i, hne, hi⟩ := List.mem_eraseIdx_iff_getElem?.mp hmem
    refine ⟨fun he => hne ?_, i, h', hi, hin', rfl⟩
    exact howned.block_inj i j h' h hi hj hin'.connected.live hin.connected.live he
  · rintro ⟨hne, i, h', hi, hin', rfl⟩
    refine List.mem_map.mpr ⟨h', List.mem_filter.mpr ⟨?_, decide_eq_true hin'⟩, rfl⟩
    refine List.mem_eraseIdx_iff_getElem?.mpr ⟨i, fun he => hne ?_, hi⟩
    subst he
    rw [Option.some.inj (hi.symm.trans hj)]

/-- The socket of a listed client is that of its own handler. -/
theorem handler_of_socket (howned : Owned s) (hs : Members s) (hj : s.handlers[j]? = some h)
    (hconn : h.stage.Connected) {c : Nat} (hc : c ∈ s.client_list)
    (hfd : (s.deref c).socket_fd = h.client_socket) : c = h.client_o ∧ h.stage.Listed := by
  obtain ⟨i, h', hi, hin, hclient⟩ := (hs.mem_iff c).mp hc
  rw [← hclient, (howned.socket i h' hi hin.connected).1] at hfd
  obtain rfl := howned.socket_inj i j h' h hi hj hin.connected hconn hfd
  obtain rfl := Option.some.inj (hi.symm.trans hj)
  exact ⟨hclient.symm, hin⟩

variable {visits : List Visit}

/-- A handler that is not between its two calls gets nothing. -/
theorem delivered_of_not_listed (howned : Owned s) (hs : Members s)
    (hj : s.handlers[j]? = some h) (hin : ¬ h.stage.Listed)
    (hclients : visits.map Visit.client = s.client_list) : delivered s visits j = [] := by
  unfold delivered
  rw [hj]
  by_cases hconn : h.stage.Connected
  · refine (if_pos hconn).trans (List.filterMap_eq_nil_iff.mpr fun v hv => if_neg fun hfd => hin ?_)
    exact (handler_of_socket howned hs hj hconn (hclients ▸ List.mem_map_of_mem hv) hfd).2
  · exact if_neg hconn

/-- Any other gets what is sent to its own client. -/
theorem delivered_of_listed (howned : Owned s) (hs : Members s) (hj : s.handlers[j]? = some h)
    (hin : h.stage.Listed) (hclients : visits.map Visit.client = s.client_list) :
    ∃ v ∈ visits, v.client = h.client_o ∧ delivered s visits j = v.sent.toList := by
  have hmem : h.client_o ∈ s.client_list := (hs.mem_iff _).mpr ⟨j, h, hj, hin, rfl⟩
  obtain ⟨v, hv, hvc⟩ := List.mem_map.mp (hclients ▸ hmem)
  have hnodup : (visits.map Visit.client).Nodup := hclients ▸ hs.nodup
  refine ⟨v, hv, hvc, ?_⟩
  unfold delivered
  rw [hj]
  refine (if_pos hin.connected).trans ?_
  -- its own visit is the only one that sends to its socket
  rw [filterMap_of_unique hnodup.of_map hv fun w hw hne => if_neg fun hfd => hne ?_]
  · rw [hvc, (howned.socket j h hj hin.connected).1, if_pos rfl]
  · have hwc := (handler_of_socket howned hs hj hin.connected (hclients ▸ List.mem_map_of_mem hw)
      hfd).1
    exact List.inj_on_of_nodup_map hnodup hw hv (hwc.trans hvc.symm)

/-- The message of a builder tells the names of those it was made for. -/
theorem tells_addressed {deref : Nat → client} {client_list others : List Nat} {c : Nat}
    {msg : Str} (hc : c ∈ client_list) (htwo : 2 ≤ client_list.length)
    (hothers : others.Perm (addressed client_list c))
    (hbuilt : Built deref SERVER_MAX_MESSAGE (others.map deref) msg)
    (hcarried : ∀ d ∈ client_list, Carried (deref d))
    (hfits : Fits SERVER_MAX_MESSAGE ((addressed client_list c).map deref)) :
    Tells msg ((addressed client_list c).map fun d => peer_name (deref d)) := by
  have herase := List.length_erase_of_mem hc
  refine ⟨others.map deref, ?_, ?_, fun d hd => ?_, built_eq hbuilt (hfits.of_perm
    (hothers.map _))⟩
  · rw [List.map_map]
    exact hothers.map _
  · rw [ne_eq, List.map_eq_nil_iff]
    rintro rfl
    have hnil := hothers.length_eq
    rw [addressed] at hnil
    split at hnil
    · rw [List.length_nil] at hnil
      omega
    · rw [List.length_nil, List.length_append] at hnil
      omega
  · obtain ⟨e, he, rfl⟩ := List.mem_map.mp hd
    have hmem := hothers.subset he
    rw [addressed] at hmem
    split at hmem
    · exact hcarried e (List.mem_of_mem_erase hmem)
    · exact hcarried e ((List.mem_append.mp hmem).elim List.mem_of_mem_erase List.mem_of_mem_erase)

/-- The view of a client is what its message tells. -/
theorem view_of_listed (howned : Owned s) (hs : Members s) (hj : s.handlers[j]? = some h)
    (hin : h.stage.Listed) :
    (s.client_list.length = 1 → view s j = none) ∧ (2 ≤ s.client_list.length →
      ∃ names, view s j = some names ∧ ((addressed s.client_list h.client_o).map
        fun d => peer_name (s.deref d)).Perm names) := by
  have hmem : h.client_o ∈ s.client_list := (hs.mem_iff _).mpr ⟨j, h, hj, hin, rfl⟩
  have hperm := (other_handlers_perm howned hs hj hin).map fun c => peer_name (s.deref c)
  have hlen := hperm.length_eq
  have hpos := List.length_pos_of_mem hmem
  rw [List.map_map, List.length_map, List.length_map, List.length_erase_of_mem hmem] at hlen
  unfold view
  simp only [hj, hin, true_and]
  constructor
  · intro hone
    have hnil : (other_handlers s j).map (fun h => peer_name (s.deref h.client_o)) = [] := by
      rw [← List.length_eq_zero_iff, List.length_map]
      omega
    exact if_neg (not_not.mpr hnil)
  · intro htwo
    have hsome : (other_handlers s j).map (fun h => peer_name (s.deref h.client_o)) ≠ [] := by
      rw [← List.length_pos_iff, List.length_map]
      omega
    refine ⟨_, if_pos hsome, ?_⟩
    rw [List.map_map] at hperm
    rw [addressed, List.length_map, hlen, Nat.sub_add_cancel hpos]
    split
    · exact hperm.symm
    · rw [List.map_append]
      exact hperm.symm.append hperm.symm

/-- The view of a client that is not alone has the names of all others, and no other. -/
theorem mem_view_iff (hj : s.handlers[j]? = some h) (hin : h.stage.Listed)
    (hothers : other_handlers s j ≠ []) :
    ∃ names, view s j = some names ∧ ∀ name, name ∈ names ↔
      ∃ (k : Nat) (h : Handler), k ≠ j ∧ s.handlers[k]? = some h ∧ h.stage.Listed ∧
        peer_name (s.deref h.client_o) = name := by
  have hsome : (other_handlers s j).map (fun h => peer_name (s.deref h.client_o)) ≠ [] :=
    mt List.map_eq_nil_iff.mp hothers
  have hmem : ∀ name, name ∈ (other_handlers s j).map (fun h => peer_name (s.deref h.client_o)) ↔
      ∃ (k : Nat) (h : Handler), k ≠ j ∧ s.handlers[k]? = some h ∧ h.stage.Listed ∧
        peer_name (s.deref h.client_o) = name := by
    intro name
    simp only [other_handlers, List.mem_map, List.mem_filter, decide_eq_true_iff,
      List.mem_eraseIdx_iff_getElem?]
    constructor
    · rintro ⟨h', ⟨⟨k, hk, hget⟩, hin'⟩, hname⟩
      exact ⟨k, h', hk, hget, hin', hname⟩
    · rintro ⟨k, h', hk, hget, hin', hname⟩
      exact ⟨h', ⟨⟨k, hk, hget⟩, hin'⟩, hname⟩
  unfold view
  simp only [hj, hin, true_and]
  refine ⟨_, if_pos hsome, fun name => ?_⟩
  rw [← hmem]
  split
  · rfl
  · rw [List.mem_append, or_self]

/-- **What a round puts on a connection** is the view of its client. -/
theorem round_view (howned : Owned s) (hs : Members s)
    (hclients : visits.map Visit.client = s.client_list)
    (hsent : ∀ v ∈ visits, SentAddressed s.deref s.client_list v)
    (hcarried : ∀ c ∈ s.client_list, Carried (s.deref c))
    (hfits : ∀ c ∈ s.client_list,
      Fits SERVER_MAX_MESSAGE ((addressed s.client_list c).map s.deref)) (j : Nat) :
    List.Forall₂ Tells (delivered s visits j) (view s j).toList := by
  cases hj : s.handlers[j]? with
  | none =>
    rw [delivered, view, hj]
    exact List.Forall₂.nil
  | some h =>
    by_cases hin : h.stage.Listed
    · have hmem : h.client_o ∈ s.client_list := (hs.mem_iff _).mpr ⟨j, h, hj, hin, rfl⟩
      have hpos := List.length_pos_of_mem hmem
      obtain ⟨v, hv, hvc, hdelivered⟩ := delivered_of_listed howned hs hj hin hclients
      obtain ⟨halone, hothers⟩ := view_of_listed howned hs hj hin
      rw [hdelivered]
      by_cases hone : s.client_list.length = 1
      · rw [(hsent v hv).alone hone, halone hone]
        exact List.Forall₂.nil
      · obtain ⟨names, hview, hnames⟩ := hothers (by omega)
        obtain ⟨others, hperm, msg, hmsg, hbuilt⟩ := (hsent v hv).others (by omega)
        rw [hvc] at hperm
        obtain ⟨others', hperm', htells⟩ :=
          tells_addressed hmem (by omega) hperm hbuilt hcarried (hfits _ hmem)
        rw [hmsg, hview]
        exact List.Forall₂.cons ⟨others', hperm'.trans hnames, htells⟩ List.Forall₂.nil
    · have hview : view s j = none := by
        unfold view
        simp only [hj, hin, false_and, if_false]
      rw [delivered_of_not_listed howned hs hj hin hclients, hview]
      exact List.Forall₂.nil

end View

end AnonyChat
