import AnonyChat.Lib.Block
import AnonyChat.Refresh

/-! # Names in fixed fields

The port a client announces and the address and port of a peer are copied with `strncpy`
and the size of the field as the count.  A name that takes up the whole field is stored
without a terminator, and every later `strncat` or `getaddrinfo` reads on into what lies
behind it.  The names come from the network; `names_terminated_iff` says which ones the
fields can take.
-/
namespace AnonyChat
open CString Block

/-! ## The port of a client on the server -/

/-- `CLIENT_PEER_DEF_PORT`. -/
def CLIENT_PEER_DEF_PORT : Str := [52, 55, 53, 56]

/-- What a peer request starts with. -/
def PEERREQ : Str := [80, 69, 69, 82, 82, 69, 81]

/-- What a message with a port starts with. -/
def PORTUPD : Str := [80, 79, 82, 84, 85, 80, 68]

/-- What `client_handle` does with a received message, as far as the port goes. -/
def client_handle_port (port : Block NI_MAXSERV) (message : List UInt8) :
    Except Stray (Block NI_MAXSERV) :=
  let buffer := cstr message
  if str_starts_with buffer PEERREQ then return port
  else if str_starts_with buffer PORTUPD then
    match (strtok_r (strtok_r buffer space).2 space).1 with
    | none => return port
    | some tok => port.strncpy tok NI_MAXSERV
  else return port

/-- The port of a client after these messages; `fresh` is what the field held before. -/
def client_port (fresh : Block NI_MAXSERV) (messages : List (List UInt8)) :
    Except Stray (Block NI_MAXSERV) := do
  let port ← fresh.strncpy CLIENT_PEER_DEF_PORT NI_MAXSERV
  messages.foldlM client_handle_port port

/-- The token that a message makes the new port, `none` when it leaves the port alone. -/
def new_port (message : List UInt8) : Option Str :=
  let buffer := cstr message
  if !str_starts_with buffer PEERREQ && str_starts_with buffer PORTUPD then
    (strtok_r (strtok_r buffer space).2 space).1
  else none

/-- The token the port was last set to. -/
def last_port (messages : List (List UInt8)) : Str :=
  messages.foldl (fun tok message => (new_port message).getD tok) CLIENT_PEER_DEF_PORT

/-- After the messages the field holds the last port, terminated, and one more message that
is no valid `PORTUPD` would leave it as it is. -/
def PortStored (fresh : Block NI_MAXSERV) (messages : List (List UInt8)) : Prop :=
  ∃ port, client_port fresh messages = .ok port ∧ port.Terminated (last_port messages) ∧
    ∀ message, new_port message = none → client_handle_port port message = .ok port

section Server
variable {fresh : Block NI_MAXSERV} {messages : List (List UInt8)}

theorem client_handle_port_eq (port : Block NI_MAXSERV) (message : List UInt8) :
    client_handle_port port message =
      match new_port message with
      | none => .ok port
      | some tok => port.strncpy tok NI_MAXSERV := by
  by_cases hreq : str_starts_with (cstr message) PEERREQ = true
  · simp [client_handle_port, new_port, hreq, pure, Except.pure]
  · by_cases hupd : str_starts_with (cstr message) PORTUPD = true
    · simp only [client_handle_port, new_port, hreq, hupd]
      cases (strtok_r (strtok_r (cstr message) space).2 space).1 <;> rfl
    · simp [client_handle_port, new_port, hreq, hupd, pure, Except.pure]

theorem new_port_nulFree {message : List UInt8} {tok : Str} (h : new_port message = some tok) :
    NulFree tok := by
  simp only [new_port] at h
  split at h
  · intro c hc
    obtain ⟨hsub, -⟩ := strtok_r_subset (strtok_r (cstr message) space).2 space
    obtain ⟨-, hsub'⟩ := strtok_r_subset (cstr message) space
    exact cstr_nulFree message c (hsub' (hsub tok h hc))
  · cases h

theorem client_port_concat (fresh : Block NI_MAXSERV) (messages : List (List UInt8))
    (message : List UInt8) :
    client_port fresh (messages ++ [message]) =
      client_port fresh messages >>= fun port => client_handle_port port message := by
  rw [client_port, client_port, bind_assoc]
  simp [List.foldlM_append]

theorem last_port_concat (messages : List (List UInt8)) (message : List UInt8) :
    last_port (messages ++ [message]) = (new_port message).getD (last_port messages) := by
  rw [last_port, List.foldl_append]
  rfl

/-- **One message** keeps the field terminated exactly when its token is short. -/
theorem portStored_concat_iff (h : PortStored fresh messages) (message : List UInt8) :
    PortStored fresh (messages ++ [message]) ↔
      ∀ tok, new_port message = some tok → tok.length < NI_MAXSERV := by
  obtain ⟨port, hport, hterm, hkeep⟩ := h
  have hsame : ∀ (port : Block NI_MAXSERV) message, new_port message = none →
      client_handle_port port message = .ok port := by
    intro port message hnone
    rw [client_handle_port_eq, hnone]
  have hnext : client_port fresh (messages ++ [message]) = client_handle_port port message := by
    rw [client_port_concat, hport]
    rfl
  rw [PortStored, hnext, last_port_concat]
  cases hnew : new_port message with
  | none =>
    refine iff_of_true ⟨port, hsame port message hnew, hterm, hkeep⟩ fun tok htok => ?_
    cases htok
  | some tok =>
    obtain ⟨port', hcopy, hiff⟩ := strncpy_terminated_iff port (new_port_nulFree hnew)
    rw [client_handle_port_eq, hnew, Option.getD_some]
    constructor
    · rintro ⟨port'', hcopy', hterm', -⟩ tok' htok'
      cases htok'
      cases hcopy.symm.trans hcopy'
      exact hiff.mp hterm'
    · intro hlen
      exact ⟨port', hcopy, hiff.mpr (hlen tok rfl), hsame port'⟩

theorem portStored_nil (fresh : Block NI_MAXSERV) : PortStored fresh [] := by
  obtain ⟨port, hcopy, hiff⟩ :=
    strncpy_terminated_iff fresh (show NulFree CLIENT_PEER_DEF_PORT by decide)
  refine ⟨port, ?_, hiff.mpr (by decide), fun message hnone => ?_⟩
  · rw [client_port, hcopy]
    rfl
  · rw [client_handle_port_eq, hnone]

/-- **All messages.** -/
theorem portStored_iff (fresh : Block NI_MAXSERV) (messages : List (List UInt8)) :
    (∀ pre, pre <+: messages → PortStored fresh pre) ↔
      ∀ message ∈ messages, ∀ tok, new_port message = some tok → tok.length < NI_MAXSERV := by
  induction messages using List.reverseRecOn with
  | nil =>
    refine iff_of_true (fun pre hpre => ?_) fun message hmem => nomatch hmem
    rw [List.prefix_nil.mp hpre]
    exact portStored_nil fresh
  | append_singleton messages message ih =>
    constructor
    · intro hall message' hmem
      have hinit : ∀ pre, pre <+: messages → PortStored fresh pre :=
        fun pre hpre => hall pre (hpre.trans (List.prefix_append _ _))
      rcases List.mem_append.mp hmem with hmem | hmem
      · exact ih.mp hinit message' hmem
      · rw [List.mem_singleton.mp hmem]
        exact (portStored_concat_iff (hinit messages (List.prefix_refl _)) message).mp
          (hall _ (List.prefix_refl _))
    · intro hshort pre hpre
      have hinit := ih.mpr fun message' hmem => hshort message' (List.mem_append_left _ hmem)
      rcases List.prefix_concat_iff.mp hpre with rfl | hpre
      · exact (portStored_concat_iff (hinit messages (List.prefix_refl _)) message).mpr
          (hshort message (List.mem_append_right _ (List.mem_singleton_self _)))
      · exact hinit pre hpre

end Server

/-! ## The peers of a client -/

/-- The two names in the block of a peer. -/
structure PeerNames where
  address : Block NI_MAXHOST
  port : Block NI_MAXSERV

/-- `create_peer`, on the bytes of the two names. -/
def create_peer_names (block : PeerNames) (ip_addr port : Str) : Except Stray PeerNames := do
  let address ← block.address.strncpy ip_addr NI_MAXHOST
  let port ← block.port.strncpy port NI_MAXSERV
  return ⟨address, port⟩

/-- The text is parsed to the end.  Every entry becomes a peer, and its names are stored
terminated, whatever `malloc` left in the block. -/
structure PeersStored (fd : Nat → Int) (t : Peers) (peer_msg : Str) : Prop where
  parsed : ∃ fuel ret t', parse_peers fd fuel t peer_msg = some (ret, t') ∧
    (peer_msg ≠ [] → t'.peer_list.map (fun peer => (peer.address, peer.port)) =
      (entries_of peer_msg).map fun entry => (entry.1.take NI_MAXHOST, entry.2.take NI_MAXSERV))
  stored : ∀ entry ∈ entries_of peer_msg, ∀ block, ∃ names,
    create_peer_names block entry.1 entry.2 = .ok names ∧ names.address.Terminated entry.1 ∧
      names.port.Terminated entry.2

section Client
variable {fd : Nat → Int} {t : Peers} {peer_msg : Str}

theorem foldl_add_peer_names (entries : List (Str × Str)) (t : Peers) :
    (entries.foldl (fun t entry => add_peer fd t entry.1 entry.2) t).peer_list.map
        (fun peer => (peer.address, peer.port)) =
      t.peer_list.map (fun peer => (peer.address, peer.port)) ++
        entries.map fun entry => (entry.1.take NI_MAXHOST, entry.2.take NI_MAXSERV) := by
  induction entries generalizing t with
  | nil => simp
  | cons entry entries ih =>
    rw [List.foldl_cons, ih]
    simp [add_peer, create_peer]

/-- A text of complete entries is parsed to the end. -/
theorem parse_peers_entries (fd : Nat → Int) (t : Peers)
    (h : ∀ tok ∈ tokens peer_msg space, Complete tok) :
    ∃ fuel ret t', parse_peers fd fuel t peer_msg = some (ret, t') ∧
      (peer_msg ≠ [] → t'.peer_list.map (fun peer => (peer.address, peer.port)) =
        (entries_of peer_msg).map fun entry =>
          (entry.1.take NI_MAXHOST, entry.2.take NI_MAXSERV)) := by
  by_cases hne : peer_msg = []
  · subst hne
    exact ⟨0, 1, t, rfl, fun hne => absurd rfl hne⟩
  · refine ⟨_, _, _, parse_peers_tokens fd hne h 0 t, fun _ => ?_⟩
    rw [← foldl_add_entries fd _ _ h]
    exact foldl_add_peer_names (entries_of peer_msg) (clean_peers_list t)

theorem split_entry_subset {tok ip_addr port : Str}
    (h : split_entry tok = (some ip_addr, some port)) :
    ip_addr ⊆ tok ∧ port ⊆ tok := by
  obtain ⟨hip, hport⟩ := Prod.ext_iff.mp h
  obtain ⟨hsub, hsub'⟩ := strtok_r_subset tok colon
  obtain ⟨hsub'', -⟩ := strtok_r_subset (strtok_r tok colon).2 colon
  exact ⟨hsub ip_addr hip, List.Subset.trans (hsub'' port hport) hsub'⟩

theorem entries_of_nulFree (hnul : NulFree peer_msg) {entry : Str × Str}
    (h : entry ∈ entries_of peer_msg) : NulFree entry.1 ∧ NulFree entry.2 := by
  obtain ⟨tok, htok, hsplit⟩ := List.mem_filterMap.mp h
  have hsub := tokens_subset htok
  split at hsplit
  · rename_i ip_addr port heq
    cases hsplit
    obtain ⟨hip, hport⟩ := split_entry_subset heq
    exact ⟨fun c hc => hnul c (hsub (hip hc)), fun c hc => hnul c (hsub (hport hc))⟩
  · cases hsplit

theorem create_peer_names_iff (block : PeerNames) {ip_addr port : Str} (hip : NulFree ip_addr)
    (hport : NulFree port) :
    (∃ names, create_peer_names block ip_addr port = .ok names ∧
        names.address.Terminated ip_addr ∧ names.port.Terminated port) ↔
      ip_addr.length < NI_MAXHOST ∧ port.length < NI_MAXSERV := by
  obtain ⟨address', haddress, hiff⟩ := strncpy_terminated_iff block.address hip
  obtain ⟨port', hport, hiff'⟩ := strncpy_terminated_iff block.port hport
  have hnames : create_peer_names block ip_addr port = .ok ⟨address', port'⟩ := by
    simp only [create_peer_names, haddress, hport, bind, Except.bind]
    rfl
  rw [hnames, ← hiff, ← hiff']
  constructor
  · rintro ⟨names, ⟨⟩, hterm⟩
    exact hterm
  · intro hterm
    exact ⟨_, rfl, hterm⟩

theorem peersStored_iff (fd : Nat → Int) (t : Peers) (hnul : NulFree peer_msg)
    (h : ∀ tok ∈ tokens peer_msg space, Complete tok) :
    PeersStored fd t peer_msg ↔ ∀ entry ∈ entries_of peer_msg,
      entry.1.length < NI_MAXHOST ∧ entry.2.length < NI_MAXSERV := by
  have hiff : ∀ entry ∈ entries_of peer_msg, ∀ block, _ ↔ _ := fun entry hentry block =>
    create_peer_names_iff block (entries_of_nulFree hnul hentry).1
      (entries_of_nulFree hnul hentry).2
  constructor
  · intro hstored entry hentry
    exact (hiff entry hentry ⟨Block.fill _ 0, Block.fill _ 0⟩).mp (hstored.stored entry hentry _)
  · intro hshort
    exact ⟨parse_peers_entries fd t h,
      fun entry hentry block => (hiff entry hentry block).mpr (hshort entry hentry)⟩

end Client

/-- The fields are terminated after every message exactly when each token that becomes a
port and each name of an entry is shorter than its field. -/
theorem names_terminated_iff (fresh : Block NI_MAXSERV) (messages : List (List UInt8))
    (fd : Nat → Int) (t : Peers) (peers : List UInt8)
    (hentries : ∀ tok ∈ tokens (cstr peers) space, Complete tok) :
    ((∀ pre, pre <+: messages → PortStored fresh pre) ↔
        ∀ message ∈ messages, ∀ tok, new_port message = some tok → tok.length < NI_MAXSERV) ∧
      (PeersStored fd t (cstr peers) ↔ ∀ entry ∈ entries_of (cstr peers),
        entry.1.length < NI_MAXHOST ∧ entry.2.length < NI_MAXSERV) :=
  ⟨portStored_iff fresh messages, peersStored_iff fd t (cstr_nulFree peers) hentries⟩

/-- `PORTUPD 1` and `1:2`. -/
theorem names_terminated_iff_short :
    ((∀ pre, pre <+: [PORTUPD ++ [32, 49]] → PortStored (Block.fill NI_MAXSERV 0) pre) ↔
        ∀ message ∈ [PORTUPD ++ [32, 49]], ∀ tok, new_port message = some tok →
          tok.length < NI_MAXSERV) ∧
      (PeersStored (fun _ => 0) ⟨[], 0, []⟩ (cstr [49, 58, 50]) ↔
        ∀ entry ∈ entries_of (cstr [49, 58, 50]),
          entry.1.length < NI_MAXHOST ∧ entry.2.length < NI_MAXSERV) :=
  names_terminated_iff (Block.fill NI_MAXSERV 0) [PORTUPD ++ [32, 49]] (fun _ => 0) ⟨[], 0, []⟩
    [49, 58, 50] (by decide)

/-- `PORTUPD` with a port of 32 characters. -/
def long_portupd : List UInt8 := PORTUPD ++ 32 :: List.replicate 32 49

/-- It fits a message, and fills the field. -/
theorem port_unterminated :
    long_portupd.length ≤ SERVER_MAX_MESSAGE ∧
      (client_port (Block.fill NI_MAXSERV 0) [long_portupd]).map Block.bytes =
        .ok (List.replicate 32 49) ∧
      ¬ PortStored (Block.fill NI_MAXSERV 0) [long_portupd] := by
  refine ⟨by decide, by decide, ?_⟩
  intro hstored
  have hlen := (portStored_concat_iff (portStored_nil _) long_portupd).mp hstored
    (List.replicate 32 49) (by decide)
  rw [List.length_replicate] at hlen
  exact absurd hlen (by decide)

end AnonyChat
