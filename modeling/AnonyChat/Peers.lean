import AnonyChat.Enc
import AnonyChat.Msg

/-! # Reading the peer list (`parse_peers`)

The text after `PEERS ` is cut at spaces with `strtok_r`, and each entry at colons
with `strtok`, both in place.  An entry without an address and a port is not
skipped: the loop goes back to the same entry, which by then holds nothing but what
stood before its first colon, so it never leaves it (`parse_peers_loop_incomplete`).
The loop therefore runs on fuel, one unit a turn.  In terms of the tokens of the text it
is a fold over them as long as each has an address and a port (`parse_peers_tokens`), and
endless otherwise (`parse_peers_stuck`).
-/
namespace AnonyChat
open CString

/-- `NI_MAXHOST`. -/
def NI_MAXHOST : Nat := 1025

/-- `NI_MAXSERV`. -/
def NI_MAXSERV : Nat := 32

/-- What a peer message starts with. -/
def PEERS : Str := [80, 69, 69, 82, 83, 32]

/-- The separator of an address and its port. -/
def colon : Str := [58]

/-- The peers of a client, the counter `peer_id`, and the sockets closed so far. -/
structure Peers where
  peer_list : List peer_o
  peer_id : Nat
  closed : List Int
  deriving DecidableEq, Repr

/-- `create_peer`: `strncpy` fills no more than the field.  `fd` is what the socket
field of the new block holds, which is not set. -/
def create_peer (peer_id : Nat) (fd : Int) (ip_addr port : Str) : peer_o where
  peer_id := peer_id
  address := ip_addr.take NI_MAXHOST
  port := port.take NI_MAXSERV
  socket_fd := fd
  open_con := false

/-- `clean_peers_list`: the list is emptied and the open sockets are closed. -/
def clean_peers_list (t : Peers) : Peers :=
  { t with peer_list := []
           closed := t.closed ++ (t.peer_list.filter (·.open_con)).map (·.socket_fd) }

/-- `create_peer` and `list_add`. -/
def add_peer (fd : Nat → Int) (t : Peers) (ip_addr port : Str) : Peers :=
  { t with peer_list := t.peer_list ++ [create_peer t.peer_id (fd t.peer_id) ip_addr port]
           peer_id := t.peer_id + 1 }

/-- The address and the port of an entry, as the two `strtok` calls return them. -/
def split_entry (ip_port_tok : Str) : Option Str × Option Str :=
  ((strtok_r ip_port_tok colon).1, (strtok_r (strtok_r ip_port_tok colon).2 colon).1)

/-- The loop of `parse_peers` at an entry, with the text at `save_ptr`.  After an
incomplete entry it goes on with what the calls left of that entry. -/
def parse_peers_loop (fd : Nat → Int) : Nat → Option Str → Str → Peers → Option Peers
  | 0, _, _, _ => none
  | _ + 1, none, _, t => some t
  | fuel + 1, some ip_port_tok, save_ptr, t =>
    match split_entry ip_port_tok with
    | (some ip_addr, some port) =>
      parse_peers_loop fd fuel (strtok_r save_ptr space).1 (strtok_r save_ptr space).2
        (add_peer fd t ip_addr port)
    | _ => parse_peers_loop fd fuel (some (strtok_head ip_port_tok colon)) save_ptr t

/-- `parse_peers`: the value returned and the peers, `none` when the loop outlasts
the fuel. -/
def parse_peers (fd : Nat → Int) (fuel : Nat) (t : Peers) (peer_msg : Str) :
    Option (Int × Peers) :=
  if peer_msg.length < 1 then
    some (1, t)
  else
    (parse_peers_loop fd fuel (strtok_r peer_msg space).1 (strtok_r peer_msg space).2
      (clean_peers_list t)).map fun t => (0, t)

/-! ## Entries -/

/-- Both fields of the entry are there. -/
def Complete (ip_port_tok : Str) : Prop :=
  (split_entry ip_port_tok).1.isSome ∧ (split_entry ip_port_tok).2.isSome

instance (tok : Str) : Decidable (Complete tok) :=
  inferInstanceAs (Decidable (_ ∧ _))

theorem not_complete_strtok_head (tok : Str) : ¬ Complete (strtok_head tok colon) := by
  intro hcomplete
  obtain ⟨-, hport⟩ := hcomplete
  rw [split_entry, strtok_r_strtok_head, strtok_r_nil] at hport
  cases hport

theorem split_entry_of_complete {tok : Str} (h : Complete tok) :
    ∃ ip_addr port, split_entry tok = (some ip_addr, some port) := by
  obtain ⟨h₁, h₂⟩ := h
  obtain ⟨ip_addr, hip⟩ := Option.isSome_iff_exists.mp h₁
  obtain ⟨port, hport⟩ := Option.isSome_iff_exists.mp h₂
  exact ⟨ip_addr, port, Prod.ext hip hport⟩

theorem split_entry_eq (tok : Str) :
    split_entry tok = ((tokens tok colon).head?, (tokens tok colon).tail.head?) := by
  obtain ⟨hip, hrest⟩ := tokens_strtok_r tok colon
  obtain ⟨hport, -⟩ := tokens_strtok_r (strtok_r tok colon).2 colon
  rw [split_entry, hip, hport, hrest]

theorem complete_iff (tok : Str) : Complete tok ↔ 2 ≤ (tokens tok colon).length := by
  rw [Complete, split_entry_eq]
  rcases tokens tok colon with _ | ⟨ip_addr, _ | ⟨port, rest⟩⟩
  · simp
  · simp
  · simp

/-! ## The loop -/

section Loop
variable (fd : Nat → Int)

theorem parse_peers_loop_complete {fuel : Nat} {tok : Str} {save_ptr : Str} {t : Peers}
    {ip_addr port : Str} (h : split_entry tok = (some ip_addr, some port)) :
    parse_peers_loop fd (fuel + 1) (some tok) save_ptr t =
      parse_peers_loop fd fuel (strtok_r save_ptr space).1 (strtok_r save_ptr space).2
        (add_peer fd t ip_addr port) := by
  rw [parse_peers_loop, h]

/-- **The loop never leaves an incomplete entry.** -/
theorem parse_peers_loop_incomplete {tok : Str} (h : ¬ Complete tok) (fuel : Nat) (save_ptr : Str)
    (t : Peers) : parse_peers_loop fd fuel (some tok) save_ptr t = none := by
  induction fuel generalizing tok with
  | zero => rfl
  | succ fuel ih =>
    rw [parse_peers_loop]
    split
    · rename_i ip_addr port hsplit
      exact absurd (by simp [Complete, hsplit]) h
    · exact ih (not_complete_strtok_head tok)

/-- The entry is split at colons, and its address and port become a peer. -/
def add_entry (fd : Nat → Int) (t : Peers) (ip_port_tok : Str) : Peers :=
  match split_entry ip_port_tok with
  | (some ip_addr, some port) => add_peer fd t ip_addr port
  | _ => t

/-- **One turn for each entry**, and one to see that there is no other. -/
theorem parse_peers_loop_tokens {s : Str} (h : ∀ tok ∈ tokens s space, Complete tok)
    (extra : Nat) (t : Peers) :
    parse_peers_loop fd (extra + (tokens s space).length + 1) (strtok_r s space).1
      (strtok_r s space).2 t = some ((tokens s space).foldl (add_entry fd) t) := by
  obtain ⟨hfirst, hrest⟩ := tokens_strtok_r s space
  induction htoks : tokens s space generalizing s t with
  | nil =>
    rw [hfirst, htoks]
    rfl
  | cons tok toks ih =>
    rw [htoks] at hfirst hrest h
    obtain ⟨ip_addr, port, hsplit⟩ := split_entry_of_complete (h tok List.mem_cons_self)
    obtain ⟨hnext, htail⟩ := tokens_strtok_r (strtok_r s space).2 space
    rw [hfirst, List.head?_cons, parse_peers_loop_complete fd hsplit, List.foldl_cons, add_entry,
      hsplit]
    refine ih ?_ _ hnext htail hrest
    rw [hrest]
    exact fun tok' htok' => h tok' (List.mem_cons_of_mem _ htok')

/-- The loop never gets past the first incomplete entry. -/
theorem parse_peers_loop_stuck {s : Str} (h : ¬ ∀ tok ∈ tokens s space, Complete tok)
    (fuel : Nat) (t : Peers) :
    parse_peers_loop fd fuel (strtok_r s space).1 (strtok_r s space).2 t = none := by
  obtain ⟨hfirst, hrest⟩ := tokens_strtok_r s space
  induction htoks : tokens s space generalizing s fuel t with
  | nil =>
    rw [htoks] at h
    exact absurd (fun tok htok => nomatch htok) h
  | cons tok toks ih =>
    rw [htoks] at hfirst hrest h
    rw [hfirst, List.head?_cons]
    by_cases hc : Complete tok
    · obtain ⟨ip_addr, port, hsplit⟩ := split_entry_of_complete hc
      obtain ⟨hnext, htail⟩ := tokens_strtok_r (strtok_r s space).2 space
      cases fuel with
      | zero => rfl
      | succ fuel =>
        rw [parse_peers_loop_complete fd hsplit]
        refine ih ?_ _ _ hnext htail hrest
        rw [hrest]
        exact fun hall => h fun tok' htok' => (List.mem_cons.mp htok').elim (· ▸ hc) (hall tok')
    · exact parse_peers_loop_incomplete fd hc _ _ _

/-- **`parse_peers` is a fold** over the entries, onto a list emptied of what it held. -/
theorem parse_peers_tokens {peer_msg : Str} (hne : peer_msg ≠ [])
    (h : ∀ tok ∈ tokens peer_msg space, Complete tok) (extra : Nat) (t : Peers) :
    parse_peers fd (extra + (tokens peer_msg space).length + 1) t peer_msg =
      some (0, (tokens peer_msg space).foldl (add_entry fd) (clean_peers_list t)) := by
  have hlen : ¬ peer_msg.length < 1 := by
    have := List.length_pos_iff.mpr hne
    omega
  rw [parse_peers, if_neg hlen, parse_peers_loop_tokens fd h]
  rfl

/-- An incomplete entry keeps `parse_peers` for ever. -/
theorem parse_peers_stuck {peer_msg : Str} (h : ¬ ∀ tok ∈ tokens peer_msg space, Complete tok)
    (fuel : Nat) (t : Peers) : parse_peers fd fuel t peer_msg = none := by
  have hlen : ¬ peer_msg.length < 1 := by
    intro hlen
    obtain rfl := List.length_eq_zero_iff.mp (Nat.lt_one_iff.mp hlen)
    exact h fun tok htok => nomatch htok
  rw [parse_peers, if_neg hlen, parse_peers_loop_stuck fd h]
  rfl

/-- Fuel for every token is enough for each text whose entries are complete. -/
theorem parse_peers_isSome {fuel : Nat} {peer_msg : Str}
    (hfuel : (tokens peer_msg space).length < fuel) (t : Peers) :
    (parse_peers fd fuel t peer_msg).isSome ↔ ∀ tok ∈ tokens peer_msg space, Complete tok := by
  constructor
  · intro hsome
    by_contra h
    rw [parse_peers_stuck fd h] at hsome
    cases hsome
  · intro h
    by_cases hne : peer_msg = []
    · subst hne
      rfl
    · obtain ⟨extra, rfl⟩ := Nat.exists_eq_add_of_lt hfuel
      rw [Nat.add_comm _ extra, parse_peers_tokens fd hne h]
      rfl

end Loop

/-- `parse_peers` comes back from this text. -/
def Returns (fd : Nat → Int) (t : Peers) (peer_msg : Str) : Prop :=
  ∃ fuel, (parse_peers fd fuel t peer_msg).isSome

theorem returns_iff (fd : Nat → Int) (t : Peers) (peer_msg : Str) :
    Returns fd t peer_msg ↔ ∀ tok ∈ tokens peer_msg space, Complete tok := by
  constructor
  · intro hreturns
    obtain ⟨fuel, hsome⟩ := hreturns
    by_contra h
    rw [parse_peers_stuck fd h] at hsome
    cases hsome
  · exact fun h => ⟨_, (parse_peers_isSome fd (Nat.lt_succ_self _) t).mpr h⟩

/-- Fuel for every character is enough for each text it comes back from. -/
theorem parse_peers_isSome_iff {fd : Nat → Int} {fuel : Nat} {t t' : Peers} {peer_msg : Str}
    (hfuel : peer_msg.length + 2 ≤ fuel) :
    (parse_peers fd fuel t peer_msg).isSome ↔ Returns fd t' peer_msg := by
  have hle := tokens_length_le peer_msg space
  rw [returns_iff]
  exact parse_peers_isSome fd (by omega) t

end AnonyChat
