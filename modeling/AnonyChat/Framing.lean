import AnonyChat.ClientServer
import AnonyChat.Peers
import Mathlib.Data.List.Flatten

/-! # Message framing

A TCP connection delivers a stream of bytes; `recv` cuts it wherever it likes.
Neither receive loop looks for the end of a message: `client_handle` hands each
chunk to `client_parse_msg`, and `name_server_handle` hands each chunk that starts
with `PEERS ` to `parse_peers`.  So the messages processed are the messages sent
only if every `recv` happens to return one whole message; `framing_iff` proves that
this is the only way.
-/
namespace AnonyChat
open CString Machine

/-- The chunks of a stream: in order, without loss, none empty and none longer than
what `recv` was asked for. -/
structure Cuts (stream : List UInt8) (chunks : List (List UInt8)) : Prop where
  in_order : chunks.flatten = stream
  nonempty : ∀ data ∈ chunks, data ≠ []
  bounded : ∀ data ∈ chunks, data.length ≤ BUFFER_SIZE

/-- Messages are recovered whole exactly when the chunks have their lengths. -/
theorem Cuts.eq_iff {messages chunks : List (List UInt8)} (h : Cuts messages.flatten chunks) :
    chunks = messages ↔ chunks.map List.length = messages.map List.length := by
  rw [List.eq_iff_flatten_eq, h.in_order]
  simp

theorem Cuts.cstr_eq {messages chunks : List (List UInt8)} (h : Cuts messages.flatten chunks)
    (hnul : ∀ m ∈ messages, NulFree m) {data : List UInt8} (hdata : data ∈ chunks) :
    cstr data = data := by
  refine cstr_of_nulFree fun c hc => ?_
  have hmem : c ∈ chunks.flatten := List.mem_flatten.mpr ⟨data, hdata, hc⟩
  rw [h.in_order] at hmem
  obtain ⟨m, hm, hcm⟩ := List.mem_flatten.mp hmem
  exact hnul m hm c hcm

/-- A sublist of a list of nonempty parts is all of it once it is as long in total. -/
theorem eq_of_sublist_of_flatten_eq {α : Type} {xs ys : List (List α)} (h : xs.Sublist ys)
    (hne : ∀ y ∈ ys, y ≠ []) (he : xs.flatten = ys.flatten) : xs = ys := by
  induction h with
  | slnil => rfl
  | @cons xs ys y h ih =>
    have hsub : xs.flatten.length ≤ ys.flatten.length := h.flatten.length_le
    have hpos := List.length_pos_iff.mpr (hne y List.mem_cons_self)
    rw [he, List.flatten_cons, List.length_append] at hsub
    omega
  | @cons_cons xs ys y h ih =>
    rw [List.flatten_cons, List.flatten_cons, List.append_cancel_left_eq] at he
    rw [ih (fun y hy => hne y (List.mem_cons_of_mem _ hy)) he]

/-- When the strings handed over are among the chunks, they are the messages only if
the chunks are. -/
theorem Cuts.eq_of_sublist {messages chunks : List (List UInt8)} (h : Cuts messages.flatten chunks)
    (hsub : messages.Sublist chunks) : chunks = messages :=
  (eq_of_sublist_of_flatten_eq hsub h.nonempty h.in_order.symm).symm

/-! ## Between clients -/

section Client
variable {evp : EVP} {Conn : Type} [DecidableEq Conn]

/-- What `recv` returned on a connection, in order. -/
def arrivals (c : Conn) (is : List (World evp × Input Conn)) : List (List UInt8) :=
  is.filterMap fun i =>
    match i.2 with
    | .recv c' data => if c' = c then some data else none
    | .line _ => none

/-- The strings handed to `client_parse_msg` from a connection, in order. -/
def handed (c : Conn) (out : List (Event Conn)) : List Str :=
  out.filterMap fun
    | .recv c' msg => if c' = c then some msg else none
    | _ => none

/-- The process is alive when a chunk arrives on the connection. -/
def Reads (c : Conn) (s : ClientState evp Conn) (_ : List (Event Conn))
    (i : World evp × Input Conn) : Prop :=
  ∀ data, i.2 = .recv c data → s.fault = none

theorem handed_append (c : Conn) (xs ys : List (Event Conn)) :
    handed c (xs ++ ys) = handed c xs ++ handed c ys := List.filterMap_append

theorem arrivals_append (c : Conn) (is js : List (World evp × Input Conn)) :
    arrivals c (is ++ js) = arrivals c is ++ arrivals c js := List.filterMap_append

theorem handed_received (c : Conn) (texts : List Str) :
    handed c (texts.map (Event.received : Str → Event Conn)) = [] := by
  simp [handed]

/-- A step hands over the chunk it read, unless the process has died. -/
theorem handed_step (c : Conn) (s : ClientState evp Conn) (i : World evp × Input Conn) :
    handed c (client_step s i).2 =
      if s.fault = none then (arrivals c [i]).map cstr else [] := by
  rcases i with ⟨w, i⟩
  have ho := client_step_outcome s (w, i)
  generalize client_step s (w, i) = r at ho ⊢
  cases ho with
  | dead hf => simp [handed, hf]
  | @seen c' data hf hrec => by_cases hc : c' = c <;> simp [handed, arrivals, hf, hc]
  | @accept c' data ctx texts hf hrec =>
    rw [handed_append, handed_received]
    by_cases hc : c' = c <;> simp [handed, arrivals, hf, hc]
  | quiet hf => simp [handed, arrivals, hf]
  | sent hf hpad hclash => simp [handed, arrivals, hf]
  | clash hf hpad hclash => simp [handed, arrivals, hf]

theorem handed_step_sublist (c : Conn) (s : ClientState evp Conn) (i : World evp × Input Conn) :
    (handed c (client_step s i).2).Sublist ((arrivals c [i]).map cstr) := by
  rw [handed_step]
  split
  · exact List.Sublist.refl _
  · exact List.nil_sublist _

theorem handed_step_eq_iff (c : Conn) (s : ClientState evp Conn) (out : List (Event Conn))
    (i : World evp × Input Conn) :
    handed c (client_step s i).2 = (arrivals c [i]).map cstr ↔ Reads c s out i := by
  rw [handed_step]
  rcases i with ⟨w, ⟨c', data⟩ | input⟩
  · by_cases hc : c' = c
    · by_cases hf : s.fault = none <;> simp [arrivals, Reads, hf, hc]
    · simp [arrivals, Reads, hc]
  · simp [arrivals, Reads]

/-- Nothing but what arrived is handed over. -/
theorem handed_exec_sublist (c : Conn) (s : ClientState evp Conn)
    (is : List (World evp × Input Conn)) :
    (handed c (exec client_step s is).2).Sublist ((arrivals c is).map cstr) := by
  induction is using List.reverseRecOn with
  | nil => exact List.Sublist.refl _
  | append_singleton is i ih =>
    rw [exec_concat, handed_append, arrivals_append, List.map_append]
    exact ih.append (handed_step_sublist c _ i)

/-- Two sublists put together are the whole only if both were. -/
theorem append_eq_iff_of_sublist {α : Type} {xs xs' ys ys' : List α} (hx : xs.Sublist xs')
    (hy : ys.Sublist ys') : xs ++ ys = xs' ++ ys' ↔ xs = xs' ∧ ys = ys' := by
  constructor
  · intro h
    have hlen := congrArg List.length h
    rw [List.length_append, List.length_append] at hlen
    have hx' := hx.length_le
    have hy' := hy.length_le
    exact ⟨hx.eq_of_length (by omega), hy.eq_of_length (by omega)⟩
  · rintro ⟨rfl, rfl⟩
    rfl

/-- Everything that arrived is handed over exactly when the process lived to read it. -/
theorem handed_exec_eq_iff (c : Conn) (s : ClientState evp Conn)
    (is : List (World evp × Input Conn)) :
    handed c (exec client_step s is).2 = (arrivals c is).map cstr ↔
      Always client_step (Reads c) s is := by
  induction is using List.reverseRecOn with
  | nil => simp [handed, arrivals, Always]
  | append_singleton is i ih =>
    rw [exec_concat, handed_append, arrivals_append, List.map_append, always_concat,
      append_eq_iff_of_sublist (handed_exec_sublist c s is) (handed_step_sublist c _ i), ih,
      handed_step_eq_iff]

/-- A client processes the messages sent exactly when each `recv` returned one of
them, and it was alive to do so. -/
theorem handed_eq_messages_iff {messages : List (List UInt8)} (c : Conn)
    (s : ClientState evp Conn) (is : List (World evp × Input Conn))
    (hcut : Cuts messages.flatten (arrivals c is)) (hnul : ∀ m ∈ messages, NulFree m) :
    handed c (exec client_step s is).2 = messages ↔
      (arrivals c is).map List.length = messages.map List.length ∧
        Always client_step (Reads c) s is := by
  have hid : (arrivals c is).map cstr = arrivals c is :=
    (List.map_congr_left fun data hd => hcut.cstr_eq hnul hd).trans (List.map_id' _)
  rw [← hcut.eq_iff, ← handed_exec_eq_iff, hid]
  constructor
  · -- the messages are among the chunks, and together as long
    intro h
    have hsub := handed_exec_sublist c s is
    rw [hid, h] at hsub
    have heq := hcut.eq_of_sublist hsub
    exact ⟨heq, h.trans heq.symm⟩
  · rintro ⟨heq, h⟩
    exact h.trans heq

end Client

/-! ## From the name server -/

/-- `name_server_handle` on the results of `recv`: the strings it hands to
`parse_peers`.  It reads on only when that call comes back. -/
def name_server_handle (fd : Nat → Int) (fuel : Nat) : Peers → List (List UInt8) → List Str
  | _, [] => []
  | t, data :: rest =>
    let buffer := cstr data
    if str_starts_with buffer PEERS then
      match parse_peers fd fuel t (buffer.drop 6) with
      | none => [buffer.drop 6]
      | some (_, t) => buffer.drop 6 :: name_server_handle fd fuel t rest
    else
      name_server_handle fd fuel t rest

section NameServer
variable {fd : Nat → Int} {fuel : Nat}

theorem str_starts_with_iff {a b : Str} : str_starts_with a b = true ↔ ∃ rest, a = b ++ rest := by
  rw [str_starts_with, strncmp_eq, List.isPrefixOf_iff_prefix]
  constructor
  · rintro ⟨rest, rfl⟩
    exact ⟨rest, rfl⟩
  · rintro ⟨rest, rfl⟩
    exact ⟨rest, rfl⟩

/-- A peer message is its first six characters and the text after them. -/
theorem PEERS_append_drop {m : Str} (h : str_starts_with m PEERS = true) :
    PEERS ++ m.drop 6 = m := by
  obtain ⟨rest, rfl⟩ := str_starts_with_iff.mp h
  rfl

/-- The strings handed over, with `PEERS ` put back, are among the chunks. -/
theorem name_server_handle_sublist (t : Peers) (chunks : List (List UInt8)) :
    ((name_server_handle fd fuel t chunks).map (PEERS ++ ·)).Sublist (chunks.map cstr) := by
  induction chunks generalizing t with
  | nil => exact List.nil_sublist _
  | cons data rest ih =>
    rw [name_server_handle]
    split
    · rename_i hstart
      split
      · simp [PEERS_append_drop hstart]
      · rename_i t' _
        rw [List.map_cons, List.map_cons, PEERS_append_drop hstart]
        exact (ih t').cons_cons _
    · exact (ih t).cons _

/-- Peer messages are all handed over exactly when `parse_peers` comes back from each
but the last. -/
theorem name_server_handle_eq_iff (hfuel : BUFFER_SIZE + 2 ≤ fuel) (t t₀ : Peers)
    {messages : List Str} (hpeers : ∀ m ∈ messages, str_starts_with m PEERS = true)
    (hnul : ∀ m ∈ messages, NulFree m) (hlen : ∀ m ∈ messages, m.length ≤ BUFFER_SIZE) :
    name_server_handle fd fuel t messages = messages.map (·.drop 6) ↔
      ∀ m ∈ messages.dropLast, Returns fd t₀ (m.drop 6) := by
  induction messages generalizing t with
  | nil => simp [name_server_handle]
  | cons m messages ih =>
    have hm := hpeers m List.mem_cons_self
    have hcstr : cstr m = m := cstr_of_nulFree (hnul m List.mem_cons_self)
    have hback : (parse_peers fd fuel t (m.drop 6)).isSome ↔ Returns fd t₀ (m.drop 6) := by
      apply parse_peers_isSome_iff
      have := hlen m List.mem_cons_self
      rw [List.length_drop]
      omega
    have ih' := fun t => ih t (fun m hm => hpeers m (List.mem_cons_of_mem _ hm))
      (fun m hm => hnul m (List.mem_cons_of_mem _ hm))
      (fun m hm => hlen m (List.mem_cons_of_mem _ hm))
    rw [name_server_handle, hcstr, if_pos hm]
    -- the call does not come back, and no more chunks are read, or it does
    rcases hp : parse_peers fd fuel t (m.drop 6) with _ | ⟨_, t'⟩
    · rw [hp] at hback
      cases messages with
      | nil => simp
      | cons m' messages =>
        simp only [List.map_cons, List.cons.injEq, List.dropLast_cons_cons, List.mem_cons,
          forall_eq_or_imp, ← hback]
        simp
    · rw [hp] at hback
      cases messages with
      | nil => simp [name_server_handle]
      | cons m' messages =>
        rw [List.map_cons, List.cons.injEq, List.dropLast_cons_cons, List.forall_mem_cons,
          ← hback, ih' t']
        simp

/-- The name server's messages are processed exactly when each `recv` returned one of
them, and `parse_peers` came back from each but the last. -/
theorem name_server_handle_messages_iff (hfuel : BUFFER_SIZE + 2 ≤ fuel) (t : Peers)
    {messages chunks : List (List UInt8)} (hcut : Cuts messages.flatten chunks)
    (hnul : ∀ m ∈ messages, NulFree m) (hpeers : ∀ m ∈ messages, str_starts_with m PEERS = true) :
    name_server_handle fd fuel t chunks = messages.map (·.drop 6) ↔
      chunks.map List.length = messages.map List.length ∧
        ∀ m ∈ messages.dropLast, Returns fd t (m.drop 6) := by
  rw [← hcut.eq_iff]
  have hiff : chunks = messages →
      (name_server_handle fd fuel t messages = messages.map (·.drop 6) ↔
        ∀ m ∈ messages.dropLast, Returns fd t (m.drop 6)) := by
    rintro rfl
    exact name_server_handle_eq_iff hfuel t t hpeers hnul hcut.bounded
  constructor
  · intro h
    have hsub : ((name_server_handle fd fuel t chunks).map (PEERS ++ ·)).Sublist
        (chunks.map cstr) := name_server_handle_sublist t chunks
    have hback : (messages.map (·.drop 6)).map (PEERS ++ ·) = messages := by
      rw [List.map_map]
      exact (List.map_congr_left fun m hm => PEERS_append_drop (hpeers m hm)).trans (List.map_id' _)
    have hid : chunks.map cstr = chunks :=
      (List.map_congr_left fun data hd => hcut.cstr_eq hnul hd).trans (List.map_id' _)
    rw [h, hback, hid] at hsub
    have heq := hcut.eq_of_sublist hsub
    refine ⟨heq, (hiff heq).mp ?_⟩
    rw [← h, heq]
  · rintro ⟨rfl, hret⟩
    exact (hiff rfl).mpr hret

end NameServer

/-- **Framing.**  Whatever chunks a stream of messages is cut into, the strings
processed are the messages sent exactly when every `recv` returned one whole message
(and the receiver got to call it: a client that has died, or a call of `parse_peers`
that never comes back, reads nothing more). -/
theorem framing_iff {evp : EVP} {Conn : Type} [DecidableEq Conn]
    {messages chunks : List (List UInt8)} (hcut : Cuts messages.flatten chunks)
    (hnul : ∀ m ∈ messages, NulFree m) :
    (∀ (c : Conn) (s : ClientState evp Conn) (is : List (World evp × Input Conn)),
      arrivals c is = chunks →
      (handed c (exec client_step s is).2 = messages ↔
        chunks.map List.length = messages.map List.length ∧
          Always client_step (Reads c) s is)) ∧
    (∀ (fd : Nat → Int) (fuel : Nat) (t : Peers), BUFFER_SIZE + 2 ≤ fuel →
      (∀ m ∈ messages, str_starts_with m PEERS = true) →
      (name_server_handle fd fuel t chunks = messages.map (·.drop 6) ↔
        chunks.map List.length = messages.map List.length ∧
          ∀ m ∈ messages.dropLast, Returns fd t (m.drop 6))) := by
  refine ⟨?_, ?_⟩
  · rintro c s is rfl
    exact handed_eq_messages_iff c s is hcut hnul
  · intro fd fuel t hfuel hpeers
    exact name_server_handle_messages_iff hfuel t hcut hnul hpeers

/-- A message of `MESSAGE_LENGTH` characters. -/
def long_message : Str := [97, 32, 97, 32, 97] ++ List.replicate 1345 97

theorem long_message_length : long_message.length = MESSAGE_LENGTH := by
  rw [long_message, List.length_append, List.length_replicate]
  rfl

theorem long_message_nulFree : NulFree long_message := by
  refine NulFree.append (by decide) fun c hc => ?_
  rw [List.eq_of_mem_replicate hc]
  decide

theorem cuts_whole : Cuts [long_message].flatten [long_message] where
  in_order := rfl
  nonempty data hdata := by
    rw [List.mem_singleton.mp hdata, ← List.length_pos_iff, long_message_length]
    decide
  bounded data hdata := by
    rw [List.mem_singleton.mp hdata, long_message_length]
    decide

/-- `recv` may return the first 1000 characters on their own. -/
theorem cuts_in_two :
    Cuts [long_message].flatten [long_message.take 1000, long_message.drop 1000] where
  in_order := by simp
  nonempty data hdata := by
    rw [← List.length_pos_iff]
    rcases List.mem_pair.mp hdata with hd | hd
    · rw [hd, List.length_take, long_message_length]
      decide
    · rw [hd, List.length_drop, long_message_length]
      decide
  bounded data hdata := by
    rcases List.mem_pair.mp hdata with hd | hd
    · rw [hd, List.length_take, long_message_length]
      decide
    · rw [hd, List.length_drop, long_message_length]
      decide

/-- The message of `MESSAGE_LENGTH` characters that arrives whole. -/
theorem framing_iff_whole :
    (∀ (c : Nat) (s : ClientState block_evp Nat) (is : List (World block_evp × Input Nat)),
      arrivals c is = [long_message] →
      (handed c (exec client_step s is).2 = [long_message] ↔
        [long_message].map List.length = [long_message].map List.length ∧
          Always client_step (Reads c) s is)) ∧
    (∀ (fd : Nat → Int) (fuel : Nat) (t : Peers), BUFFER_SIZE + 2 ≤ fuel →
      (∀ m ∈ [long_message], str_starts_with m PEERS = true) →
      (name_server_handle fd fuel t [long_message] = [long_message].map (·.drop 6) ↔
        [long_message].map List.length = [long_message].map List.length ∧
          ∀ m ∈ [long_message].dropLast, Returns fd t (m.drop 6))) :=
  framing_iff cuts_whole fun _ hm => List.mem_singleton.mp hm ▸ long_message_nulFree

/-- One message of `MESSAGE_LENGTH` characters, returned by two calls of `recv`, is
processed as two strings. -/
theorem message_cut_in_two :
    ∃ chunks, long_message.length = MESSAGE_LENGTH ∧ NulFree long_message ∧
      Cuts [long_message].flatten chunks ∧
      handed 0 (exec client_step sample_client
        (chunks.map fun data => (sample_world, .recv 0 data))).2 ≠ [long_message] := by
  refine ⟨_, long_message_length, long_message_nulFree, cuts_in_two, fun hhanded => ?_⟩
  have hlens := ((handed_eq_messages_iff 0 sample_client
    ([long_message.take 1000, long_message.drop 1000].map fun data => (sample_world, .recv 0 data))
    cuts_in_two fun _ hm => List.mem_singleton.mp hm ▸ long_message_nulFree).mp hhanded).1
  exact absurd (congrArg List.length hlens) (by decide)

end AnonyChat
