import AnonyChat.Lib.Block
import AnonyChat.PeerAgreement
import Mathlib.Algebra.Order.BigOperators.Group.List
import Mathlib.Data.List.InsertIdx

/-! # The bytes of a peer message

The builders of the name server are handed the size of their block, and hand it on to
every `strncat`, as if the block were empty each time.  So nothing keeps the text of many
clients inside, and from three clients on every one of them is listed twice.
`peersFit_iff` is the number of characters that do fit.
-/
namespace AnonyChat
open CString Block

/-! ## The builders on bytes -/

/-- The four `strncat` calls for one peer. -/
def entry_calls (max_msg_size : Nat) (client_p : client) : List (Str × Nat) :=
  [(client_p.address, max_msg_size), (colon, max_msg_size), (client_p.port, max_msg_size),
    (space, max_msg_size)]

/-- The message block of a builder. -/
def new_msg (max_msg_size : Nat) : Except Stray (Block max_msg_size) :=
  (Block.fill max_msg_size 0).write 0 [0]

/-- The loop of a builder. -/
def append_entries {size : Nat} (max_msg_size : Nat) (msg : Block size) (others : List client) :
    Except Stray (Block size) :=
  others.foldlM (fun msg client_p => msg.strncats (entry_calls max_msg_size client_p)) msg

/-- The extra space at the end is removed. -/
def trim {size : Nat} (msg : Block size) : Except Stray (Block size) := do
  let len ← msg.strlen
  if len > 0 then msg.write (len - 1) [0] else return msg

section Builders
variable (deref : Nat → client) (client_list : List Nat)

/-- `client_peers_static` on bytes. -/
def client_peers_static_bytes (client_o : client) (max_msg_size : Nat) :
    Except Stray (Option (Block max_msg_size)) := do
  let msg ← new_msg max_msg_size
  if client_list.length = 1 then return none
  else
    let msg ← append_entries max_msg_size msg ((client_list.map deref).filter fun client_p =>
      client_p.socket_fd ≠ client_o.socket_fd)
    return some (← trim msg)

/-- `client_peers_rand` on bytes. -/
def client_peers_rand_bytes (max_msg_size : Nat) (g : Graph) (graph : Nat) :
    Except Stray (Block max_msg_size) := do
  let msg ← new_msg max_msg_size
  match edges (g graph) with
  | none => throw .read
  | some connections =>
    let msg ← append_entries max_msg_size msg (connections.map fun u => deref (g u).data)
    trim msg

/-- `client_send_peers` up to the send; `stack` is what the array holds before. -/
def client_send_peers_bytes (g : Graph) (client_o : client) (graph : Nat)
    (stack : Block SERVER_MAX_MESSAGE) : Except Stray (Option (Block SERVER_MAX_MESSAGE)) := do
  let msg ← stack.write 0 [0]
  let msg ← msg.strncat PEERS SERVER_MAX_MESSAGE
  let msg_size := SERVER_MAX_MESSAGE - 2 - 6
  if PEER_POOL_SIZE > client_list.length then
    match ← client_peers_static_bytes deref client_list client_o msg_size with
    | none => return none
    | some to_cat => return some (← msg.strncat (cstr to_cat.bytes) SERVER_MAX_MESSAGE)
  else
    let to_cat ← client_peers_rand_bytes deref msg_size g graph
    return some (← msg.strncat (cstr to_cat.bytes) SERVER_MAX_MESSAGE)

/-- Everything the two builders and `client_send_peers` write for a client lies within their
blocks. -/
structure PeersFit (g : Graph) (client_o : client) (graph : Nat) : Prop where
  static : ∃ to_cat, client_peers_static_bytes deref client_list client_o
    (SERVER_MAX_MESSAGE - 2 - 6) = .ok to_cat
  rand : ∃ to_cat, client_peers_rand_bytes deref (SERVER_MAX_MESSAGE - 2 - 6) g graph = .ok to_cat
  send : ∀ stack, ∃ msg, client_send_peers_bytes deref client_list g client_o graph stack = .ok msg

end Builders

/-! ## How much is written -/

/-- The strings of a client: an IPv4 address and a port, with their terminators. -/
structure Addressed (c : client) : Prop where
  address_nulFree : NulFree c.address
  address_le : c.address.length ≤ 15
  port_nulFree : NulFree c.port
  port_le : c.port.length ≤ 5

/-- The characters of an entry, with its colon and its space. -/
def entry_size (c : client) : Nat := c.address.length + c.port.length + 2

section Text
variable {size max_msg_size : Nat} {others : List client}

theorem append_entries_eq (msg : Block size) (others : List client) :
    append_entries max_msg_size msg others =
      msg.strncats (others.flatMap (entry_calls max_msg_size)) := by
  induction others generalizing msg with
  | nil => rfl
  | cons c others ih =>
    rw [List.flatMap_cons, strncats_append, append_entries, List.foldlM_cons]
    exact congrArg _ (funext fun msg => ih msg)

/-- What is appended on the bytes is what the text says. -/
theorem foldl_append_entry_eq (s : Str) (others : List client) :
    others.foldl (append_entry max_msg_size) s =
      s ++ appended (others.flatMap (entry_calls max_msg_size)) := by
  induction others generalizing s with
  | nil => simp [appended]
  | cons c others ih =>
    rw [List.foldl_cons, ih]
    simp [appended, entry_calls, append_entry, CString.strncat]

theorem entry_calls_nulFree (hothers : ∀ c ∈ others, Addressed c) :
    ∀ src ∈ others.flatMap (entry_calls max_msg_size), NulFree src.1 := by
  intro src hsrc
  obtain ⟨c, hc, hcall⟩ := List.mem_flatMap.mp hsrc
  simp only [entry_calls, List.mem_cons, List.not_mem_nil, or_false] at hcall
  rcases hcall with rfl | rfl | rfl | rfl
  · exact (hothers c hc).address_nulFree
  · exact show NulFree colon by decide
  · exact (hothers c hc).port_nulFree
  · exact show NulFree space by decide

/-- No entry is cut. -/
theorem appended_length (hothers : ∀ c ∈ others, Addressed c) (hmax : 15 ≤ max_msg_size) :
    (appended (others.flatMap (entry_calls max_msg_size))).length =
      (others.map entry_size).sum := by
  induction others with
  | nil => rfl
  | cons c others ih =>
    have hc := hothers c List.mem_cons_self
    have haddress := hc.address_le
    have hport := hc.port_le
    have ih := ih fun d hd => hothers d (List.mem_cons_of_mem _ hd)
    simp only [appended] at ih
    simp only [appended, List.flatMap_cons, List.map_append, List.flatten_append,
      List.length_append, ih, List.map_cons, List.sum_cons]
    simp only [entry_calls, entry_size, colon, space, List.map_cons, List.map_nil,
      List.flatten_cons, List.flatten_nil, List.length_append, List.length_take,
      List.length_singleton, List.length_nil]
    omega

theorem new_msg_ok (hmax : 1 ≤ max_msg_size) :
    ∃ msg : Block max_msg_size, new_msg max_msg_size = .ok msg ∧ msg.Holds [] := by
  obtain ⟨msg, hmsg, hbytes⟩ := write_ok (b := Block.fill max_msg_size 0)
    (show 0 + [(0 : UInt8)].length ≤ max_msg_size from hmax)
  exact ⟨msg, hmsg, show NulFree [] by decide, _, hbytes⟩

theorem trim_ok {msg : Block size} {s : Str} (h : msg.Holds s) :
    ∃ msg', trim msg = .ok msg' ∧ msg'.Holds s.dropLast := by
  rw [trim, h.strlen_eq]
  rcases List.eq_nil_or_concat s with rfl | ⟨t, c, rfl⟩
  · exact ⟨msg, rfl, h⟩
  · rw [List.concat_eq_append] at h ⊢
    obtain ⟨rest, hrest⟩ := h.bytes_eq
    have hlt := h.length_lt
    rw [List.length_append, List.length_singleton] at hlt
    obtain ⟨msg', hmsg', hbytes⟩ := write_ok (b := msg)
      (show t.length + [(0 : UInt8)].length ≤ size from Nat.le_of_lt hlt)
    refine ⟨msg', ?_, ?_, msg.bytes.drop (t.length + 1), ?_⟩
    · simpa [bind, Except.bind] using hmsg'
    · rw [List.dropLast_concat]
      exact fun d hd => h.nulFree d (List.mem_append_left _ hd)
    · rw [List.dropLast_concat, hbytes, hrest, List.append_assoc, List.take_left]
      rfl

/-- **A builder's loop** stays inside its block exactly when the entries and a terminator
fit. -/
theorem build_ok (hothers : ∀ c ∈ others, Addressed c) (hmax : 15 ≤ max_msg_size)
    (hfits : (others.map entry_size).sum < max_msg_size) :
    ∃ msg : Block max_msg_size, (new_msg max_msg_size >>= fun msg =>
        append_entries max_msg_size msg others >>= trim) = .ok msg ∧
      msg.Holds ((others.foldl (append_entry max_msg_size) []).dropLast) := by
  obtain ⟨msg, hnew, hmsg⟩ := new_msg_ok (show 1 ≤ max_msg_size by omega)
  rw [← appended_length hothers hmax] at hfits
  obtain ⟨msg', happend, hmsg'⟩ := hmsg.strncats_ok (entry_calls_nulFree hothers) hfits
  obtain ⟨msg'', htrim, hmsg''⟩ := trim_ok hmsg'
  refine ⟨msg'', ?_, ?_⟩
  · rw [hnew]
    show (append_entries max_msg_size msg others >>= trim) = _
    rw [append_entries_eq, happend]
    exact htrim
  · rw [foldl_append_entry_eq]
    exact hmsg''

theorem build_stray (hothers : ∀ c ∈ others, Addressed c) (hmax : 15 ≤ max_msg_size)
    (hlong : max_msg_size ≤ (others.map entry_size).sum) :
    (new_msg max_msg_size >>= fun msg => append_entries max_msg_size msg others >>= trim) =
      .error .write := by
  obtain ⟨msg, hnew, hmsg⟩ := new_msg_ok (show 1 ≤ max_msg_size by omega)
  rw [← appended_length hothers hmax] at hlong
  rw [hnew]
  show (append_entries max_msg_size msg others >>= trim) = _
  rw [append_entries_eq, hmsg.strncats_stray (entry_calls_nulFree hothers) hlong]
  rfl

/-- The text of a builder is no longer than its entries. -/
theorem built_length_le (hothers : ∀ c ∈ others, Addressed c) (hmax : 15 ≤ max_msg_size) :
    ((others.foldl (append_entry max_msg_size) []).dropLast).length ≤
      (others.map entry_size).sum := by
  rw [foldl_append_entry_eq, List.nil_append, List.length_dropLast, appended_length hothers hmax]
  exact Nat.sub_le _ _

end Text

/-! ## Which clients are listed -/

section Lists
variable {deref : Nat → client} {client_list : List Nat} {g : Graph} {head pos : Nat}

/-- The entries of all clients but the one at a position, in characters. -/
def others_size (deref : Nat → client) (client_list : List Nat) (pos : Nat) : Nat :=
  ((client_list.eraseIdx pos).map fun c => entry_size (deref c)).sum

/-- The clients `client_peers_static` lists. -/
def static_others (deref : Nat → client) (client_list : List Nat) (client_o : client) :
    List client :=
  (client_list.map deref).filter fun client_p => client_p.socket_fd ≠ client_o.socket_fd

/-- The clients `client_peers_rand` lists. -/
def rand_others (deref : Nat → client) (g : Graph) (graph : Nat) : List client :=
  (g graph).connections.map fun u => deref (g u).data

/-- A client is never listed to itself, and no other twice. -/
theorem static_others_size (hpos : pos < client_list.length) :
    ((static_others deref client_list (deref client_list[pos])).map entry_size).sum ≤
      others_size deref client_list pos := by
  have hsplit := List.take_append_drop pos (client_list.map deref)
  rw [List.drop_eq_getElem_cons (by simpa using hpos), List.getElem_map] at hsplit
  have hself : static_others deref client_list (deref client_list[pos]) =
      static_others deref (client_list.eraseIdx pos) (deref client_list[pos]) := by
    rw [static_others, static_others, ← List.eraseIdx_map, List.eraseIdx_eq_take_drop_succ]
    conv_lhs => rw [← hsplit]
    simp [List.filter_append]
  have hsub : (static_others deref (client_list.eraseIdx pos) (deref client_list[pos])).Sublist
      ((client_list.eraseIdx pos).map deref) := List.filter_sublist
  have hle := (hsub.map entry_size).sum_le_sum fun _ _ => Nat.zero_le _
  rw [hself]
  simpa [others_size, List.map_map, Function.comp_def] using hle

/-- The clients of the other nodes are the other clients. -/
theorem BuiltGraph.others_map {rand : Nat → Nat} (hg : BuiltGraph rand client_list g head)
    (hpos : pos < client_list.length) :
    ((List.range client_list.length).erase pos).map (fun u => deref (g u).data) =
      (client_list.eraseIdx pos).map deref := by
  have hdata := (hg.meshed (List.ne_nil_of_length_pos (by omega))).data
  have herase : (List.range client_list.length).erase pos =
      (List.range client_list.length).eraseIdx pos := by
    have := (List.nodup_range (n := client_list.length)).erase_getElem pos (by simpa using hpos)
    simpa using this
  have hall : (List.range client_list.length).map (fun u => deref (g u).data) =
      client_list.map deref := by
    apply List.ext_getElem (by simp)
    intro u hu _
    have hlt : u < client_list.length := by simpa using hu
    simp [hdata, hlt]
  rw [herase, ← List.eraseIdx_map, ← List.eraseIdx_map, hall]

/-- From three clients on every other client is listed twice. -/
theorem rand_others_size {rand : Nat → Nat} (hg : BuiltGraph rand client_list g head)
    (hthree : 3 ≤ client_list.length) (hpos : pos < client_list.length) :
    ((rand_others deref g pos).map entry_size).sum = 2 * others_size deref client_list pos := by
  have hperm := (hg.connections_perm hthree hpos).map fun u => deref (g u).data
  rw [List.map_append, hg.others_map hpos] at hperm
  have hsum := (hperm.map entry_size).sum_nat
  rw [List.map_append, List.sum_append, List.map_map (l := client_list.eraseIdx pos)] at hsum
  rw [rand_others, others_size, Nat.two_mul]
  exact hsum

/-- Of one or two clients no other is listed more than once. -/
theorem rand_others_size_le {rand : Nat → Nat} (hg : BuiltGraph rand client_list g head)
    (hfew : client_list.length ≤ 2) (hpos : pos < client_list.length) :
    ((rand_others deref g pos).map entry_size).sum ≤ others_size deref client_list pos := by
  have hmeshed := hg.meshed (List.ne_nil_of_length_pos (by omega))
  have hmem := hmeshed.connected pos hpos
  have hnodup : (g pos).connections.Nodup := by
    by_cases htwo : client_list.length = 2
    · exact hg.nodup_of_two htwo pos
    · -- the only client has no connections
      have hnil : (g pos).connections = [] := by
        refine List.eq_nil_iff_forall_not_mem.mpr fun w hw => ?_
        have := (hmem w).mp hw
        omega
      rw [hnil]
      exact List.nodup_nil
  have hsub : (g pos).connections.Subperm ((List.range client_list.length).erase pos) := by
    refine List.subperm_of_subset hnodup fun w hw => ?_
    obtain ⟨hlt, hne⟩ := (hmem w).mp hw
    exact List.nodup_range.mem_erase_iff.mpr ⟨hne, List.mem_range.mpr hlt⟩
  obtain ⟨l, hperm, hl⟩ := hsub
  have hle := ((hl.map fun u => deref (g u).data).map entry_size).sum_le_sum
    fun _ _ => Nat.zero_le _
  rw [hg.others_map hpos, List.map_map (l := client_list.eraseIdx pos)] at hle
  have hsum := ((hperm.map fun u => deref (g u).data).map entry_size).sum_nat
  rw [rand_others, others_size, ← hsum]
  exact hle

theorem others_size_few (hstored : ∀ c ∈ client_list, Addressed (deref c))
    (hfew : client_list.length ≤ 2) (hpos : pos < client_list.length) :
    others_size deref client_list pos ≤ 22 := by
  have hsize : ∀ c ∈ client_list, entry_size (deref c) ≤ 22 := by
    intro c hc
    have haddress := (hstored c hc).address_le
    have hport := (hstored c hc).port_le
    rw [entry_size]
    omega
  have hlen : (client_list.eraseIdx pos).length ≤ 1 := by
    rw [List.length_eraseIdx_of_lt hpos]
    omega
  rw [others_size]
  match hrest : client_list.eraseIdx pos, hlen with
  | [], _ => exact Nat.zero_le _
  | [c], _ =>
    have hc : c ∈ client_list :=
      List.mem_of_mem_eraseIdx (by rw [hrest]; exact List.mem_singleton_self c)
    simpa using hsize c hc

/-- Both builders list at most this much. -/
theorem listed_size_le {rand : Nat → Nat} (hg : BuiltGraph rand client_list g head)
    (hpos : pos < client_list.length) :
    ((rand_others deref g pos).map entry_size).sum ≤ 2 * others_size deref client_list pos := by
  by_cases hthree : 3 ≤ client_list.length
  · exact Nat.le_of_eq (rand_others_size hg hthree hpos)
  · have hle : ((rand_others deref g pos).map entry_size).sum ≤ _ :=
      rand_others_size_le hg (by omega) hpos
    omega

end Lists

/-! ## What fits -/

section Fit
variable {deref : Nat → client} {client_list : List Nat} {g : Graph} {head pos : Nat}

theorem client_peers_static_bytes_eq (client_o : client) (hlen : client_list.length ≠ 1) :
    client_peers_static_bytes deref client_list client_o (SERVER_MAX_MESSAGE - 2 - 6) =
      (new_msg (SERVER_MAX_MESSAGE - 2 - 6) >>= fun msg =>
        append_entries (SERVER_MAX_MESSAGE - 2 - 6) msg (static_others deref client_list client_o)
          >>= trim).map some := by
  obtain ⟨msg, hmsg, -⟩ := new_msg_ok (show 0 < SERVER_MAX_MESSAGE - 2 - 6 by decide)
  simp only [client_peers_static_bytes, hmsg, if_neg hlen, bind, Except.bind, Except.map,
    static_others]
  cases append_entries (SERVER_MAX_MESSAGE - 2 - 6) msg ((client_list.map deref).filter
    fun client_p => client_p.socket_fd ≠ client_o.socket_fd) with
  | error e => rfl
  | ok msg' => rfl

theorem client_peers_static_bytes_ok (hstored : ∀ c ∈ client_list, Addressed (deref c))
    (client_o : client)
    (hfits : ((static_others deref client_list client_o).map entry_size).sum <
      SERVER_MAX_MESSAGE - 2 - 6) :
    ∃ to_cat, client_peers_static_bytes deref client_list client_o (SERVER_MAX_MESSAGE - 2 - 6) =
        .ok to_cat ∧
      ∀ b, to_cat = some b → ∃ s, b.Holds s ∧ s.length < SERVER_MAX_MESSAGE - 2 - 6 := by
  have hothers : ∀ c ∈ static_others deref client_list client_o, Addressed c := by
    intro c hc
    obtain ⟨d, hd, rfl⟩ := List.mem_map.mp (List.mem_of_mem_filter hc)
    exact hstored d hd
  by_cases hlen : client_list.length = 1
  · obtain ⟨msg, hmsg, -⟩ := new_msg_ok (show 0 < SERVER_MAX_MESSAGE - 2 - 6 by decide)
    refine ⟨none, ?_, fun b hb => by cases hb⟩
    simp only [client_peers_static_bytes, hmsg, if_pos hlen, bind, Except.bind]
    rfl
  · obtain ⟨b, hb, hholds⟩ := build_ok hothers (by decide) hfits
    rw [client_peers_static_bytes_eq client_o hlen, hb]
    refine ⟨some b, rfl, ?_⟩
    rintro b' ⟨⟩
    exact ⟨_, hholds, Nat.lt_of_le_of_lt (built_length_le hothers (by decide)) hfits⟩

theorem client_peers_rand_bytes_eq (hg : WellFormed g) (graph : Nat) :
    client_peers_rand_bytes deref (SERVER_MAX_MESSAGE - 2 - 6) g graph =
      (new_msg (SERVER_MAX_MESSAGE - 2 - 6) >>= fun msg =>
        append_entries (SERVER_MAX_MESSAGE - 2 - 6) msg (rand_others deref g graph)
          >>= trim) := by
  rw [client_peers_rand_bytes, edges_of_wellFormed hg]
  rfl

/-- The connections of a node are the nodes of stored clients. -/
theorem BuiltGraph.rand_others_addressed {rand : Nat → Nat}
    (hg : BuiltGraph rand client_list g head) (hpos : pos < client_list.length)
    (hstored : ∀ c ∈ client_list, Addressed (deref c)) :
    ∀ c ∈ rand_others deref g pos, Addressed c := by
  have hmeshed := hg.meshed (List.ne_nil_of_length_pos (by omega))
  intro c hc
  obtain ⟨u, hu, rfl⟩ := List.mem_map.mp hc
  obtain ⟨hlt, -⟩ := (hmeshed.connected pos hpos u).mp hu
  apply hstored
  rw [hmeshed.data, List.getD_eq_getElem?_getD, List.getElem?_eq_getElem hlt]
  exact List.getElem_mem hlt

theorem client_peers_rand_bytes_ok {rand : Nat → Nat} (hg : BuiltGraph rand client_list g head)
    (hpos : pos < client_list.length) (hstored : ∀ c ∈ client_list, Addressed (deref c))
    (hfits : ((rand_others deref g pos).map entry_size).sum < SERVER_MAX_MESSAGE - 2 - 6) :
    ∃ to_cat s, client_peers_rand_bytes deref (SERVER_MAX_MESSAGE - 2 - 6) g pos = .ok to_cat ∧
      to_cat.Holds s ∧ s.length < SERVER_MAX_MESSAGE - 2 - 6 := by
  have hothers := hg.rand_others_addressed hpos hstored
  obtain ⟨b, hb, hholds⟩ := build_ok hothers (by decide) hfits
  rw [client_peers_rand_bytes_eq (hg.meshed (List.ne_nil_of_length_pos (by omega))).wellFormed, hb]
  exact ⟨b, _, rfl, hholds, Nat.lt_of_le_of_lt (built_length_le hothers (by decide)) hfits⟩

/-- From three clients on a builder writes behind its block when the others take up half of
it. -/
theorem client_peers_rand_bytes_stray {rand : Nat → Nat}
    (hg : BuiltGraph rand client_list g head) (hthree : 3 ≤ client_list.length)
    (hpos : pos < client_list.length) (hstored : ∀ c ∈ client_list, Addressed (deref c))
    (hlong : 252 ≤ others_size deref client_list pos) :
    client_peers_rand_bytes deref (SERVER_MAX_MESSAGE - 2 - 6) g pos = .error .write := by
  have hsize : SERVER_MAX_MESSAGE - 2 - 6 ≤ ((rand_others deref g pos).map entry_size).sum := by
    rw [rand_others_size hg hthree hpos]
    show 504 ≤ _
    omega
  rw [client_peers_rand_bytes_eq (hg.meshed (List.ne_nil_of_length_pos (by omega))).wellFormed]
  exact build_stray (hg.rand_others_addressed hpos hstored) (by decide) hsize

/-- What a builder returns has place behind `PEERS `. -/
theorem send_append_ok {size : Nat} {msg : Block SERVER_MAX_MESSAGE} {to_cat : Block size}
    {s : Str}
    (hmsg : msg.Holds PEERS) (hcat : to_cat.Holds s) (hlen : s.length < SERVER_MAX_MESSAGE - 2 - 6) :
    ∃ msg', msg.strncat (cstr to_cat.bytes) SERVER_MAX_MESSAGE = .ok msg' := by
  have hfits : (CString.strncat PEERS s SERVER_MAX_MESSAGE).length < SERVER_MAX_MESSAGE := by
    have htake : (s.take SERVER_MAX_MESSAGE).length ≤ s.length := List.length_take_le' _ _
    have hpeers : PEERS.length = 6 := rfl
    have hmax : SERVER_MAX_MESSAGE = 512 := rfl
    rw [CString.strncat, List.length_append]
    omega
  rw [hcat.cstr_eq]
  obtain ⟨msg', hmsg', -⟩ := hmsg.strncat_ok hcat.nulFree hfits
  exact ⟨msg', hmsg'⟩

theorem client_send_peers_bytes_ok {rand : Nat → Nat} (hg : BuiltGraph rand client_list g head)
    (hpos : pos < client_list.length) (hstored : ∀ c ∈ client_list, Addressed (deref c))
    (client_o : client)
    (hstatic : ((static_others deref client_list client_o).map entry_size).sum <
      SERVER_MAX_MESSAGE - 2 - 6)
    (hrand : ((rand_others deref g pos).map entry_size).sum < SERVER_MAX_MESSAGE - 2 - 6)
    (stack : Block SERVER_MAX_MESSAGE) :
    ∃ msg, client_send_peers_bytes deref client_list g client_o pos stack = .ok msg := by
  obtain ⟨msg, hmsg, hbytes⟩ := write_ok (b := stack)
    (show 0 + [(0 : UInt8)].length ≤ SERVER_MAX_MESSAGE by decide)
  have hempty : msg.Holds [] := ⟨show NulFree [] by decide, _, hbytes⟩
  obtain ⟨msg', hmsg', hpeers⟩ := hempty.strncat_ok (n := SERVER_MAX_MESSAGE)
    (show NulFree PEERS by decide) (by decide)
  have hpeers : msg'.Holds PEERS := hpeers
  simp only [client_send_peers_bytes, hmsg, hmsg', bind, Except.bind]
  split
  · obtain ⟨to_cat, hcat, htext⟩ := client_peers_static_bytes_ok hstored client_o hstatic
    rw [hcat]
    cases to_cat with
    | none => exact ⟨none, rfl⟩
    | some b =>
      obtain ⟨s, hholds, hlen⟩ := htext b rfl
      obtain ⟨msg'', hmsg''⟩ := send_append_ok hpeers hholds hlen
      exact ⟨some msg'', by simp only [hmsg'']; rfl⟩
  · obtain ⟨to_cat, s, hcat, hholds, hlen⟩ := client_peers_rand_bytes_ok hg hpos hstored hrand
    obtain ⟨msg'', hmsg''⟩ := send_append_ok hpeers hholds hlen
    exact ⟨some msg'', by simp only [hcat, hmsg'']; rfl⟩

/-- The messages of a list fit exactly when the entries of the others never take up more
than 251 characters. -/
theorem peersFit_iff (hstored : ∀ c ∈ client_list, Addressed (deref c)) {rand : Nat → Nat}
    (hg : BuiltGraph rand client_list g head) :
    (∀ pos (hpos : pos < client_list.length),
        PeersFit deref client_list g (deref client_list[pos]) pos) ↔
      ∀ pos < client_list.length, others_size deref client_list pos ≤ 251 := by
  constructor
  · intro hfit pos hpos
    by_contra hlong
    have hthree : 3 ≤ client_list.length := by
      by_contra hfew
      have := others_size_few hstored (by omega) hpos
      omega
    obtain ⟨to_cat, hcat⟩ := (hfit pos hpos).rand
    rw [client_peers_rand_bytes_stray hg hthree hpos hstored (by omega)] at hcat
    cases hcat
  · intro hsizes pos hpos
    have hsize := hsizes pos hpos
    have hstatic : ((static_others deref client_list (deref client_list[pos])).map
        entry_size).sum < SERVER_MAX_MESSAGE - 2 - 6 := by
      have hothers : ((static_others deref client_list (deref client_list[pos])).map
          entry_size).sum ≤ _ := static_others_size hpos
      show _ < 504
      omega
    have hrand : ((rand_others deref g pos).map entry_size).sum < SERVER_MAX_MESSAGE - 2 - 6 := by
      have hlisted : ((rand_others deref g pos).map entry_size).sum ≤ _ := listed_size_le hg hpos
      show _ < 504
      omega
    obtain ⟨to_cat, hcat, -⟩ := client_peers_static_bytes_ok hstored _ hstatic
    obtain ⟨to_cat', _, hcat', -⟩ := client_peers_rand_bytes_ok hg hpos hstored hrand
    exact ⟨⟨to_cat, hcat⟩, ⟨to_cat', hcat'⟩,
      client_send_peers_bytes_ok hg hpos hstored _ hstatic hrand⟩

end Fit

/-- Clients on one machine, whose ports are `1234` and the numbers after it. -/
def tester_clients (c : Nat) : client :=
  ⟨c, [49, 50, 55, 46, 48, 46, 48, 46, 49],
    [49, 50, 48 + UInt8.ofNat ((34 + c) / 10), 48 + UInt8.ofNat ((34 + c) % 10)]⟩

theorem tester_clients_addressed : ∀ c ∈ List.range 30, Addressed (tester_clients c) := by
  intro c hc
  have hport : ∀ c ∈ List.range 30, NulFree (tester_clients c).port := by decide
  exact ⟨show NulFree (tester_clients 0).address by decide, show 9 ≤ 15 by decide, hport c hc,
    show 4 ≤ 5 by decide⟩

/-- Two clients. -/
theorem peersFit_iff_two :
    ∃ g head, BuiltGraph (fun _ => 0) [0, 1] g head ∧
      ((∀ pos (hpos : pos < [0, 1].length),
          PeersFit tester_clients [0, 1] g (tester_clients [0, 1][pos]) pos) ↔
        ∀ pos < [0, 1].length, others_size tester_clients [0, 1] pos ≤ 251) := by
  obtain ⟨g, head, hg, -⟩ := meshed (fun _ => 0) (List.cons_ne_nil 0 [1])
  have hstored : ∀ c ∈ [0, 1], Addressed (tester_clients c) := by
    intro c hc
    apply tester_clients_addressed
    simp only [List.mem_cons, List.not_mem_nil, or_false] at hc
    rcases hc with rfl | rfl <;> decide
  exact ⟨g, head, hg, peersFit_iff hstored hg⟩

/-- Of thirty clients each is sent 870 characters. -/
theorem peers_overrun_thirty :
    (∀ c ∈ List.range 30, Addressed (tester_clients c)) ∧
    ∃ g head, BuiltGraph (fun _ => 0) (List.range 30) g head ∧
      others_size tester_clients (List.range 30) 0 = 435 ∧
      client_peers_rand_bytes tester_clients (SERVER_MAX_MESSAGE - 2 - 6) g 0 = .error .write ∧
      ¬ PeersFit tester_clients (List.range 30) g (tester_clients 0) 0 := by
  obtain ⟨g, head, hg, -⟩ :=
    meshed (fun _ => 0) (show List.range 30 ≠ [] from List.ne_nil_of_length_pos (by decide))
  have hsize : others_size tester_clients (List.range 30) 0 = 435 := by decide
  have hstray := client_peers_rand_bytes_stray hg (by decide) (show 0 < _ by decide)
    tester_clients_addressed (by rw [hsize]; decide)
  refine ⟨tester_clients_addressed, g, head, hg, hsize, hstray, ?_⟩
  intro hfit
  obtain ⟨to_cat, hcat⟩ := hfit.rand
  rw [hstray] at hcat
  cases hcat

end AnonyChat
