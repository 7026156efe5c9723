import AnonyChat.ClientServer
import AnonyChat.PeerList

/-! # A broadcast during a refresh of the peers

The thread of the name server empties the peer list, adds the new peers one by one, and
then connects to them one by one; the lock is held within each of these steps only.  A
broadcast of another thread falls between two of them, and reaches the peers that are
open there.  From the first step on no peer is open until its own connection is made
(`stage_exec`), so a peer that was open before and stays a peer is left out unless the
broadcast comes before all of the refresh or late enough (`refresh_sends_iff`).
-/
namespace AnonyChat
open CString Machine

/-! ## Connecting -/

/-- `connect_to_peer`, with the socket `connect_to_host` returns. -/
def connect_to_peer (socket_fd : Int) (peer : peer_o) : peer_o :=
  { peer with socket_fd := socket_fd, open_con := true }

section Connect
variable (sock : Nat → Int)

/-- One turn of the loop of `connect_to_peers`: the list, and what is added to `failed`. -/
def connect_turn (peer_list : List peer_o) (i : Nat) : List peer_o × Nat :=
  match peer_list[i]? with
  | none => (peer_list, 0)
  | some to_con =>
    if to_con.open_con then (peer_list, 0)
    else (peer_list.set i (connect_to_peer (sock i) to_con), if sock i = -1 then 1 else 0)

/-- `connect_to_peers`: the list and the number returned; `sock i` is what the connection
to the peer at `i` returns. -/
def connect_to_peers (peer_list : List peer_o) : List peer_o × Nat :=
  (List.range peer_list.length).foldl
    (fun r i => ((connect_turn sock r.1 i).1, r.2 + (connect_turn sock r.1 i).2)) (peer_list, 0)

end Connect

/-! ## The steps -/

/-- The atomic steps of the two threads. -/
inductive RefreshStep where
  /-- `clean_peers_list`. -/
  | clean
  /-- `list_add` of the peer created from an address and a port. -/
  | add (entry : Str × Str)
  /-- `connect_to_peers` at the peer with this index. -/
  | connect (i : Nat)
  /-- `client_send_to_all_peers`. -/
  | broadcast
  deriving DecidableEq, Repr

/-- One step, and the peers that `send_msg_peer` sends to in it. -/
def refresh_step (fd sock : Nat → Int) (t : Peers) : RefreshStep → Peers × List peer_o
  | .clean => (clean_peers_list t, [])
  | .add entry => (add_peer fd t entry.1 entry.2, [])
  | .connect i => ({ t with peer_list := (connect_turn sock t.peer_list i).1 }, [])
  | .broadcast => (t, t.peer_list.filter (·.open_con))

/-- A broadcast sends to these peers. -/
theorem client_send_to_all_peers_eq (peer_list : List peer_o) (msg : List UInt8) :
    client_send_to_all_peers peer_list msg =
      (peer_list.filter (·.open_con)).map fun peer => ⟨peer.socket_fd, msg⟩ := by
  induction peer_list with
  | nil => rfl
  | cons peer rest ih =>
    simp only [client_send_to_all_peers, send_msg_peer] at ih ⊢
    by_cases h : peer.open_con = true
    · simp [h, ih]
    · simp [h, ih]

/-- The refresh for these entries, step by step. -/
def refresh_steps (entries : List (Str × Str)) : List RefreshStep :=
  .clean :: (entries.map .add ++ (List.range entries.length).map .connect)

/-- The address and the port of each entry of a peer message. -/
def entries_of (peer_msg : Str) : List (Str × Str) :=
  (tokens peer_msg space).filterMap fun tok =>
    match split_entry tok with
    | (some ip_addr, some port) => some (ip_addr, port)
    | _ => none

section Whole
variable (fd sock : Nat → Int)

theorem exec_add (t : Peers) (entries : List (Str × Str)) :
    (exec (refresh_step fd sock) t (entries.map .add)).1 =
      entries.foldl (fun t entry => add_peer fd t entry.1 entry.2) t := by
  induction entries generalizing t with
  | nil => rfl
  | cons entry entries ih => exact ih _

theorem exec_connect (t : Peers) (is : List Nat) (failed : Nat) :
    (exec (refresh_step fd sock) t (is.map .connect)).1 =
      { t with peer_list := (is.foldl (fun r i => ((connect_turn sock r.1 i).1,
          r.2 + (connect_turn sock r.1 i).2)) (t.peer_list, failed)).1 } := by
  induction is generalizing t failed with
  | nil => rfl
  | cons i is ih => exact ih _ _

theorem foldl_add_entries (toks : List Str) (t : Peers) (h : ∀ tok ∈ toks, Complete tok) :
    (toks.filterMap fun tok =>
      match split_entry tok with
      | (some ip_addr, some port) => some (ip_addr, port)
      | _ => none).foldl (fun t entry => add_peer fd t entry.1 entry.2) t =
      toks.foldl (add_entry fd) t := by
  induction toks generalizing t with
  | nil => rfl
  | cons tok toks ih =>
    obtain ⟨ip_addr, port, hsplit⟩ := split_entry_of_complete (h tok List.mem_cons_self)
    simp only [List.filterMap_cons, hsplit, List.foldl_cons, add_entry]
    exact ih _ fun tok' htok' => h tok' (List.mem_cons_of_mem _ htok')

theorem foldl_add_peer_length (entries : List (Str × Str)) (t : Peers) :
    (entries.foldl (fun t entry => add_peer fd t entry.1 entry.2) t).peer_list.length =
      t.peer_list.length + entries.length := by
  induction entries generalizing t with
  | nil => rfl
  | cons entry entries ih =>
    rw [List.foldl_cons, ih, add_peer, List.length_append, List.length_singleton,
      List.length_cons]
    omega

/-- **Without a broadcast in between** the steps are `parse_peers` and then
`connect_to_peers`. -/
theorem exec_refresh_steps {peer_msg : Str} (hne : peer_msg ≠ [])
    (h : ∀ tok ∈ tokens peer_msg space, Complete tok) (extra : Nat) (t : Peers) :
    ∃ t', parse_peers fd (extra + (tokens peer_msg space).length + 1) t peer_msg = some (0, t') ∧
      (exec (refresh_step fd sock) t (refresh_steps (entries_of peer_msg))).1 =
        { t' with peer_list := (connect_to_peers sock t'.peer_list).1 } := by
  refine ⟨_, parse_peers_tokens fd hne h extra t, ?_⟩
  have hfold := foldl_add_entries fd (tokens peer_msg space) (clean_peers_list t) h
  have hlen := foldl_add_peer_length fd (entries_of peer_msg) (clean_peers_list t)
  rw [show (clean_peers_list t).peer_list.length = 0 from rfl, Nat.zero_add, entries_of,
    hfold] at hlen
  rw [refresh_steps, exec, exec_append, exec_add, exec_connect _ _ _ _ 0, connect_to_peers, hlen,
    refresh_step, entries_of, hfold]

end Whole

/-! ## Who is open when -/

/-- The peer has the address and the port that `create_peer` copies from the entry. -/
def Names (entry : Str × Str) (peer : peer_o) : Prop :=
  peer.address = entry.1.take NI_MAXHOST ∧ peer.port = entry.2.take NI_MAXSERV

section Stage
variable (fd sock : Nat → Int) (entries : List (Str × Str))

/-- The peer list after `k` steps of the refresh, from the first on: the entries added so
far, open as far as they are connected. -/
structure Stage (k : Nat) (peer_list : List peer_o) : Prop where
  length_eq : peer_list.length = min (k - 1) entries.length
  names : ∀ (i : Nat) peer, peer_list[i]? = some peer → ∃ entry, entries[i]? = some entry ∧
    Names entry peer
  open_iff : ∀ (i : Nat) peer, peer_list[i]? = some peer →
    (peer.open_con = true ↔ 1 + entries.length + i < k)
  socket : ∀ (i : Nat) peer, peer_list[i]? = some peer → 1 + entries.length + i < k →
    peer.socket_fd = sock i

variable {entries}

theorem refresh_steps_add {k : Nat} {entry : Str × Str} (hk : 1 ≤ k)
    (hentry : entries[k - 1]? = some entry) :
    (refresh_steps entries)[k]? = some (.add entry) := by
  obtain ⟨k, rfl⟩ := Nat.exists_eq_add_of_le' hk
  have hlt : k < (entries.map RefreshStep.add).length := by
    rw [List.length_map]
    exact (List.getElem?_eq_some_iff.mp hentry).1
  rw [refresh_steps, List.getElem?_cons_succ, List.getElem?_append_left hlt, List.getElem?_map,
    show entries[k]? = some entry from hentry]
  rfl

theorem refresh_steps_connect {k : Nat} (hn : entries.length < k)
    (hk : k < 1 + entries.length + entries.length) :
    (refresh_steps entries)[k]? = some (.connect (k - 1 - entries.length)) := by
  obtain ⟨k, rfl⟩ := Nat.exists_eq_add_of_le' (show 1 ≤ k by omega)
  rw [refresh_steps, List.getElem?_cons_succ, List.getElem?_append_right (by simp; omega),
    List.length_map, List.getElem?_map, List.getElem?_range (by omega)]
  rfl

/-- The list is empty after the first step. -/
theorem Stage.clean : Stage sock entries 1 [] := by
  constructor <;> simp

/-- An entry is added behind the others, not open. -/
theorem Stage.add {k : Nat} {t : Peers} {entry : Str × Str}
    (h : Stage sock entries k t.peer_list) (hk : 1 ≤ k)
    (hentry : entries[k - 1]? = some entry) :
    Stage sock entries (k + 1) (add_peer fd t entry.1 entry.2).peer_list := by
  have hn := (List.getElem?_eq_some_iff.mp hentry).1
  have hlen : t.peer_list.length = k - 1 := by
    rw [h.length_eq]
    omega
  -- the new peer is the one at `k - 1`
  have hnew : ∀ {i : Nat} {peer : peer_o},
      (add_peer fd t entry.1 entry.2).peer_list[i]? = some peer →
      t.peer_list[i]? = some peer ∨
        (i = k - 1 ∧ peer = create_peer t.peer_id (fd t.peer_id) entry.1 entry.2) := by
    intro i peer hpeer
    rw [add_peer, List.getElem?_append] at hpeer
    split at hpeer
    · exact Or.inl hpeer
    · rw [List.getElem?_singleton] at hpeer
      split at hpeer
      · exact Or.inr ⟨by omega, (Option.some.inj hpeer).symm⟩
      · cases hpeer
  constructor
  · rw [add_peer, List.length_append, hlen, List.length_singleton]
    omega
  · intro i peer hpeer
    rcases hnew hpeer with hold | ⟨rfl, rfl⟩
    · exact h.names i peer hold
    · exact ⟨entry, hentry, rfl, rfl⟩
  · intro i peer hpeer
    rcases hnew hpeer with hold | ⟨rfl, rfl⟩
    · rw [h.open_iff i peer hold]
      omega
    · exact iff_of_false Bool.false_ne_true (by omega)
  · intro i peer hpeer hlt
    omega

/-- The peer whose turn it is is not open yet, and becomes it. -/
theorem Stage.connect {k : Nat} {peer_list : List peer_o} (h : Stage sock entries k peer_list)
    (hn : entries.length < k) (hk : k < 1 + entries.length + entries.length) :
    Stage sock entries (k + 1) (connect_turn sock peer_list (k - 1 - entries.length)).1 := by
  have hlen : peer_list.length = entries.length := by
    rw [h.length_eq]
    omega
  have hlt : k - 1 - entries.length < peer_list.length := by omega
  have hto := List.getElem?_eq_getElem hlt
  have hclosed : ¬ (peer_list[k - 1 - entries.length]).open_con = true := by
    rw [h.open_iff _ _ hto]
    omega
  have hturn : (connect_turn sock peer_list (k - 1 - entries.length)).1 =
      peer_list.set (k - 1 - entries.length) (connect_to_peer (sock (k - 1 - entries.length))
        peer_list[k - 1 - entries.length]) := by
    simp [connect_turn, hto, hclosed]
  have hnew : ∀ {i : Nat} {peer : peer_o},
      (connect_turn sock peer_list (k - 1 - entries.length)).1[i]? = some peer →
      (i ≠ k - 1 - entries.length ∧ peer_list[i]? = some peer) ∨
        (i = k - 1 - entries.length ∧ peer = connect_to_peer (sock (k - 1 - entries.length))
          peer_list[k - 1 - entries.length]) := by
    intro i peer hpeer
    rw [hturn] at hpeer
    by_cases hi : i = k - 1 - entries.length
    · subst hi
      rw [List.getElem?_set_self hlt] at hpeer
      exact Or.inr ⟨rfl, (Option.some.inj hpeer).symm⟩
    · rw [List.getElem?_set_ne (Ne.symm hi)] at hpeer
      exact Or.inl ⟨hi, hpeer⟩
  constructor
  · rw [hturn, List.length_set, hlen]
    omega
  · intro i peer hpeer
    rcases hnew hpeer with ⟨-, hold⟩ | ⟨rfl, rfl⟩
    · exact h.names i peer hold
    · obtain ⟨entry, hentry, hnames⟩ := h.names _ _ hto
      exact ⟨entry, hentry, hnames⟩
  · intro i peer hpeer
    rcases hnew hpeer with ⟨hne, hold⟩ | ⟨rfl, rfl⟩
    · rw [h.open_iff i peer hold]
      omega
    · exact iff_of_true rfl (by omega)
  · intro i peer hpeer hlt
    rcases hnew hpeer with ⟨hne, hold⟩ | ⟨rfl, rfl⟩
    · exact h.socket i peer hold (by omega)
    · rfl

/-- **After `k` steps** of the refresh, from any list of peers. -/
theorem stage_exec (t : Peers) {k : Nat} (hk : 1 ≤ k)
    (hle : k ≤ (refresh_steps entries).length) :
    Stage sock entries k
      (exec (refresh_step fd sock) t ((refresh_steps entries).take k)).1.peer_list := by
  have htotal : (refresh_steps entries).length = 1 + entries.length + entries.length := by
    simp [refresh_steps]
    omega
  induction k, hk using Nat.le_induction with
  | base => exact Stage.clean sock
  | succ k hk ih =>
    have ih := ih (by omega)
    rw [List.take_add_one, exec_append]
    by_cases hn : k ≤ entries.length
    · have hentry := List.getElem?_eq_getElem (show k - 1 < entries.length by omega)
      rw [refresh_steps_add hk hentry]
      exact ih.add fd sock hk hentry
    · rw [refresh_steps_connect (by omega) (by omega)]
      exact ih.connect sock (by omega) (by omega)

end Stage

/-! ## Who is sent the message -/

/-- The connection to the peer is open. -/
def IsOpen (peer : peer_o) : Prop := peer.open_con = true ∧ peer.socket_fd ≠ -1

/-- One of the peers sent to is this one, by its address and port, on a connection that
is open. -/
def SentTo (sent : List peer_o) (peer : peer_o) : Prop :=
  ∃ to_send ∈ sent, to_send.address = peer.address ∧ to_send.port = peer.port ∧
    to_send.socket_fd ≠ -1

/-- The peer was open before the refresh and is named by one of its entries. -/
def Stays (t : Peers) (entries : List (Str × Str)) (peer : peer_o) : Prop :=
  peer ∈ t.peer_list ∧ IsOpen peer ∧ ∃ entry ∈ entries, Names entry peer

theorem sentTo_stage_iff {sock : Nat → Int} {entries : List (Str × Str)} {k : Nat}
    {peer_list : List peer_o} (h : Stage sock entries k peer_list) (hsock : ∀ i, sock i ≠ -1)
    (peer : peer_o) :
    SentTo (peer_list.filter (·.open_con)) peer ↔
      ∃ i entry, entries[i]? = some entry ∧ Names entry peer ∧ 1 + entries.length + i < k := by
  constructor
  · intro hto
    obtain ⟨to_send, hsent, haddress, hport, -⟩ := hto
    obtain ⟨hmem, hopen⟩ := List.mem_filter.mp hsent
    obtain ⟨i, hi⟩ := List.mem_iff_getElem?.mp hmem
    obtain ⟨entry, hentry, hnames⟩ := h.names i to_send hi
    exact ⟨i, entry, hentry, ⟨haddress ▸ hnames.1, hport ▸ hnames.2⟩,
      (h.open_iff i to_send hi).mp hopen⟩
  · intro hnamed
    obtain ⟨i, entry, hentry, hnames, hlt⟩ := hnamed
    have hi : i < peer_list.length := by
      have := (List.getElem?_eq_some_iff.mp hentry).1
      rw [h.length_eq]
      omega
    have hto := List.getElem?_eq_getElem hi
    obtain ⟨entry', hentry', hnames'⟩ := h.names i _ hto
    obtain rfl := Option.some.inj (hentry.symm.trans hentry')
    refine ⟨peer_list[i], List.mem_filter.mpr ⟨List.getElem_mem hi, ?_⟩,
      hnames'.1.trans hnames.1.symm, hnames'.2.trans hnames.2.symm, ?_⟩
    · exact (h.open_iff i _ hto).mpr hlt
    · rw [h.socket i _ hto hlt]
      exact hsock i

/-- What a run with a broadcast after `pre` sends. -/
theorem exec_broadcast (fd sock : Nat → Int) (t : Peers) (entries : List (Str × Str))
    {pre post : List RefreshStep} (hsplit : pre ++ post = refresh_steps entries) :
    (exec (refresh_step fd sock) t (pre ++ .broadcast :: post)).2 =
      (exec (refresh_step fd sock) t pre).1.peer_list.filter (·.open_con) := by
  have hquiet : ∀ (steps : List RefreshStep) (t : Peers), .broadcast ∉ steps →
      (exec (refresh_step fd sock) t steps).2 = [] := by
    intro steps
    induction steps with
    | nil => exact fun t _ => rfl
    | cons step steps ih =>
      intro t hstep
      rw [List.mem_cons, not_or] at hstep
      rw [exec, ih _ hstep.2, List.append_nil]
      cases step with
      | broadcast => exact absurd rfl hstep.1
      | clean => rfl
      | add entry => rfl
      | connect i => rfl
  have hnone : RefreshStep.broadcast ∉ pre ++ post := by
    rw [hsplit]
    simp [refresh_steps]
  rw [List.mem_append, not_or] at hnone
  rw [exec_append, hquiet pre _ hnone.1, exec, hquiet post _ hnone.2, List.append_nil,
    List.nil_append]
  rfl

/-- Every peer that stays is sent the message exactly when the broadcast comes before the
refresh, or for each of them after the connection to one of its entries. -/
theorem refresh_sends_iff (fd : Nat → Int) {sock : Nat → Int} (hsock : ∀ i, sock i ≠ -1)
    (t : Peers) {entries : List (Str × Str)} {pre post : List RefreshStep}
    (hsplit : pre ++ post = refresh_steps entries) :
    (∀ peer, Stays t entries peer →
        SentTo (exec (refresh_step fd sock) t (pre ++ .broadcast :: post)).2 peer) ↔
      pre = [] ∨ ∀ peer, Stays t entries peer → ∃ i entry, entries[i]? = some entry ∧
        Names entry peer ∧ 1 + entries.length + i < pre.length := by
  rw [exec_broadcast fd sock t entries hsplit]
  by_cases hpre : pre = []
  · subst hpre
    refine iff_of_true (fun peer hstays => ?_) (Or.inl rfl)
    obtain ⟨hmem, ⟨hopen, hfd⟩, -⟩ := hstays
    exact ⟨peer, List.mem_filter.mpr ⟨hmem, hopen⟩, rfl, rfl, hfd⟩
  · have hlen := List.length_pos_iff.mpr hpre
    have htake : (refresh_steps entries).take pre.length = pre := by
      rw [← hsplit, List.take_left]
    have hle : pre.length ≤ (refresh_steps entries).length := by
      rw [← hsplit, List.length_append]
      omega
    have hstage : Stage sock entries pre.length _ := stage_exec fd sock t hlen hle
    rw [htake] at hstage
    rw [or_iff_right hpre]
    exact forall_congr' fun peer => imp_congr_right fun _ => sentTo_stage_iff hstage hsock peer

/-- A client with one open peer. -/
def one_peer : Peers := ⟨[⟨0, [49], [50], 5, true⟩], 1, []⟩

/-- The entry that names this peer. -/
def one_entry : Str × Str := ([49], [50])

/-- Its peer stays, and the broadcast comes after the connection to it. -/
theorem refresh_sends_iff_late :
    (∀ peer, Stays one_peer [one_entry] peer →
        SentTo (exec (refresh_step (fun _ => 0) (fun _ => 6)) one_peer
          (refresh_steps [one_entry] ++ RefreshStep.broadcast :: [])).2 peer) ↔
      refresh_steps [one_entry] = [] ∨
        ∀ peer, Stays one_peer [one_entry] peer → ∃ i entry,
          [one_entry][i]? = some entry ∧ Names entry peer ∧
            1 + [one_entry].length + i < (refresh_steps [one_entry]).length :=
  refresh_sends_iff _ (fun _ => by decide) _ (List.append_nil _)

/-- The broadcast right after the list was emptied is sent to nobody. -/
theorem broadcast_lost_in_refresh :
    [RefreshStep.clean] ++ [RefreshStep.add one_entry, RefreshStep.connect 0] =
      refresh_steps [one_entry] ∧
    Stays one_peer [one_entry] ⟨0, [49], [50], 5, true⟩ ∧
    (exec (refresh_step (fun _ => 0) (fun _ => 6)) one_peer
      ([RefreshStep.clean] ++ RefreshStep.broadcast ::
        [RefreshStep.add one_entry, RefreshStep.connect 0])).2 = [] ∧
    ¬ SentTo (exec (refresh_step (fun _ => 0) (fun _ => 6)) one_peer
      ([RefreshStep.clean] ++ RefreshStep.broadcast ::
        [RefreshStep.add one_entry, RefreshStep.connect 0])).2 ⟨0, [49], [50], 5, true⟩ := by
  have hstays : Stays one_peer [one_entry] ⟨0, [49], [50], 5, true⟩ :=
    ⟨List.mem_singleton.mpr rfl, ⟨rfl, by decide⟩, one_entry, List.mem_singleton.mpr rfl, rfl, rfl⟩
  refine ⟨rfl, hstays, rfl, ?_⟩
  intro h
  obtain ⟨to_send, hmem, -⟩ := h
  cases hmem

end AnonyChat
