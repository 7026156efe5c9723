import AnonyChat.RoundTrip

/-! # Sender anonymity

A client puts its own messages on the network the way it forwards those of others: the same
bytes, to the same peers, once.  So whatever it sends in a run, a client at which nobody types
anything would have sent too, had it received each of those messages from somewhere
(`sends_disguised`).  Only the table of messages could tell the two apart: its keys are pointers,
and a block that `input_send_msg` frees may read differently from a receive buffer.  The
condition of the theorem is that the keys a lookup compares still read what they stood for, and
that no message is typed which the table holds already.
-/
namespace AnonyChat
open CString GHashTable Machine

variable {evp : EVP} {Conn : Type}

/-! ## The client that only forwards -/

/-- The same client with no public keys, and a connection more for every message.  Its private
key may be any. -/
def ClientState.forwarder (s : ClientState evp Conn) (private_key : evp.PrivKey) :
    ClientState evp (Conn ⊕ Nat) where
  peer_list := s.peer_list
  public_key_hash_table _ := none
  message_hash_table := client_create_hash_table
  rsa_encrypt_ctx := s.rsa_encrypt_ctx
  private_key := private_key
  buffer := Sum.elim s.buffer fun _ => []
  fault := s.fault

/-- What the forwarder is handed instead: what was received, over the same connection; for a
line that becomes a message, this message, over a connection of its own; for any other line,
nothing. -/
def disguise_step (k : Nat) (s : ClientState evp Conn) (i : World evp × Input Conn) :
    List (World evp × Input (Conn ⊕ Nat)) :=
  match s.fault, i.2 with
  | some _, _ => []
  | none, .recv c data => [(i.1, .recv (.inl c) data)]
  | none, .line input =>
    match padded_input s i.1 input with
    | (.ok (some padded), _) => [(i.1, .recv (.inr k) padded)]
    | _ => []

/-- The keys that a lookup of the text compares read what they were entered with. -/
def Intact (s : ClientState evp Conn) (w : World evp) (msg : Str) : Prop :=
  ∀ n ∈ s.message_hash_table, n.hash = g_str_hash msg → s.mem w n.key = n.value.msg

section Steps
variable [DecidableEq Conn]

/-- The table can tell what it has seen: the keys are intact for the message that is received,
and for one that is typed, which it has not seen. -/
def Recognises (s : ClientState evp Conn) (i : World evp × Input Conn) : Prop :=
  s.fault = none → match i.2 with
    | .recv c data =>
      Intact { s with buffer := Function.update s.buffer c data } i.1 (cstr data)
    | .line input => ∀ padded, (padded_input s i.1 input).1 = .ok (some padded) →
      Intact s i.1 padded ∧ ¬ Clashes s i.1 padded

/-- The table holds the text. -/
def Entered (s : ClientState evp Conn) (msg : Str) : Prop :=
  ∃ n ∈ s.message_hash_table, n.hash = g_str_hash msg ∧ n.value.msg = msg

/-- With intact keys a received message is recognised by its text. -/
theorem recognised_iff_entered {s : ClientState evp Conn} {w : World evp} {c : Conn}
    {data : List UInt8}
    (h : Intact { s with buffer := Function.update s.buffer c data } w (cstr data)) :
    Recognised s w c (cstr data) ↔ Entered s (cstr data) := by
  rw [← has_seen_received_iff, client_has_seen_msg_iff, mem_update_buffer_self]
  constructor
  · rintro ⟨key, ⟨n, hn, hhash, rfl⟩, hmem⟩
    exact ⟨n, hn, hhash, (h n hn hhash).symm.trans hmem⟩
  · rintro ⟨n, hn, hhash, hmsg⟩
    exact ⟨n.key, ⟨n, hn, hhash, rfl⟩, (h n hn hhash).trans hmsg⟩

omit [DecidableEq Conn] in
/-- With intact keys a text that is not freed is a new one. -/
theorem not_entered_of_not_clashes {s : ClientState evp Conn} {w : World evp} {padded : Str}
    (h : Intact s w padded) (hclash : ¬ Clashes s w padded) : ¬ Entered s padded := by
  rintro ⟨n, hn, hhash, hmsg⟩
  exact hclash ⟨n.key, ⟨n, hn, hhash, rfl⟩, Or.inr ((h n hn hhash).trans hmsg)⟩

/-- What a message that is not recognised leaves in the table. -/
theorem accepted_table {s : ClientState evp Conn} {w : World evp} {c : Conn} {data : List UInt8}
    {ctx : evp.Ctx} (hrec : ¬ Recognised s w c (cstr data)) :
    (accepted s w c data ctx).message_hash_table = s.message_hash_table ++
      [⟨g_str_hash (cstr data), .recv c, ⟨cstr data, w.time + MESSAGE_PURGE_TIME⟩⟩] := by
  have hkept : (client_hash_add_msg
      (({ s with buffer := Function.update s.buffer c data } : ClientState evp Conn).mem w) w.time
      s.message_hash_table (.recv c)).2 = false := by
    rw [← Bool.not_eq_true, client_hash_add_msg_freed_iff, ← client_has_seen_msg_iff,
      has_seen_received_iff]
    exact hrec
  rw [accepted, add_msg_of_kept hkept, mem_update_buffer_self]

/-- And one that the table does not free. -/
theorem add_padded_table {s : ClientState evp Conn} {w : World evp} {padded : Str}
    (hclash : ¬ Clashes s w padded) :
    (add_padded s w padded).1 = s.message_hash_table ++
      [⟨g_str_hash padded, .block w.malloc, ⟨padded, w.time + MESSAGE_PURGE_TIME⟩⟩] := by
  have hkept : (add_padded s w padded).2 = false := by
    rw [← Bool.not_eq_true, add_padded_freed_iff]
    exact hclash
  rw [add_padded, add_msg_of_kept hkept, Function.update_self]

/-- A received message that is recognised. -/
theorem recv_recognised {s : ClientState evp Conn} {w : World evp} {c : Conn} {data : List UInt8}
    (hf : s.fault = none) (hrec : Recognised s w c (cstr data)) :
    (client_step s (w, .recv c data)).1 =
        { s with buffer := Function.update s.buffer c data } ∧
      sends (client_step s (w, .recv c data)).2 = [] := by
  have hstep : client_step s (w, .recv c data) = client_handle s w c data := by
    simp [client_step, hf]
  rw [hstep]
  rcases client_handle_cases s w c data with ⟨-, h⟩ | ⟨hnot, -⟩
  · rw [h]
    exact ⟨rfl, rfl⟩
  · exact absurd hrec hnot

/-- And one that is not. -/
theorem recv_accepted {s : ClientState evp Conn} {w : World evp} {c : Conn} {data : List UInt8}
    (hf : s.fault = none) (hrec : ¬ Recognised s w c (cstr data)) :
    ∃ ctx, (client_step s (w, .recv c data)).1 = accepted s w c data ctx ∧
      sends (client_step s (w, .recv c data)).2 = client_send_to_all_peers s.peer_list data := by
  have hstep : client_step s (w, .recv c data) = client_handle s w c data := by
    simp [client_step, hf]
  rw [hstep]
  rcases client_handle_cases s w c data with ⟨hnot, -⟩ | ⟨-, ctx, texts, h⟩
  · exact absurd hnot hrec
  · rw [h]
    refine ⟨ctx, rfl, ?_⟩
    rw [sends_append, sends_received, List.append_nil]
    simp [sends]

end Steps

/-! ## Side by side -/

/-- The forwarder and the client: the same peers, the same texts in their tables.  The keys of
the forwarder are its receive buffers; the ones of its own connections are not read into a
second time. -/
structure Alike (k : Nat) (s : ClientState evp Conn) (t : ClientState evp (Conn ⊕ Nat)) :
    Prop where
  peer_list : t.peer_list = s.peer_list
  fault : t.fault = none
  buffer : ∀ c, t.buffer (.inl c) = s.buffer c
  table : t.message_hash_table.map (fun n => (n.hash, n.value)) =
    s.message_hash_table.map fun n => (n.hash, n.value)
  keys : ∀ b ∈ t.message_hash_table,
    (∃ a ∈ s.message_hash_table, a.hash = b.hash ∧ a.value = b.value ∧
      ∃ c, a.key = .recv c ∧ b.key = .recv (.inl c)) ∨
    ∃ j < k, b.key = .recv (.inr j) ∧ cstr (t.buffer (.inr j)) = b.value.msg

section Sides
variable {k : Nat} {s : ClientState evp Conn} {t : ClientState evp (Conn ⊕ Nat)}

theorem Alike.entered_iff (h : Alike k s t) (msg : Str) : Entered t msg ↔ Entered s msg := by
  have hmap : ∀ {C : Type} (u : ClientState evp C), Entered u msg ↔
      ∃ value, (g_str_hash msg, value) ∈ u.message_hash_table.map (fun n => (n.hash, n.value)) ∧
        value.msg = msg := by
    intro C u
    constructor
    · rintro ⟨n, hn, hhash, hmsg⟩
      exact ⟨n.value, List.mem_map.mpr ⟨n, hn, by rw [hhash]⟩, hmsg⟩
    · rintro ⟨value, hmem, hmsg⟩
      obtain ⟨n, hn, he⟩ := List.mem_map.mp hmem
      obtain ⟨hhash, rfl⟩ := Prod.mk.inj he
      exact ⟨n, hn, hhash, hmsg⟩
  rw [hmap, hmap, h.table]

/-- Nothing is entered. -/
theorem Alike.later (h : Alike k s t) : Alike (k + 1) s t := by
  refine { h with keys := fun b hb => ?_ }
  rcases h.keys b hb with hold | ⟨j, hj, hkey⟩
  · exact Or.inl hold
  · exact Or.inr ⟨j, Nat.lt_succ_of_lt hj, hkey⟩

variable [DecidableEq Conn]

/-- The same message is received on both sides. -/
theorem Alike.recv (h : Alike k s t) (c : Conn) (data : List UInt8) :
    Alike k { s with buffer := Function.update s.buffer c data }
      { t with buffer := Function.update t.buffer (.inl c) data } where
  peer_list := h.peer_list
  fault := h.fault
  buffer d := by
    by_cases hd : d = c
    · subst hd
      simp
    · have hne : (Sum.inl d : Conn ⊕ Nat) ≠ .inl c := fun he => hd (Sum.inl.inj he)
      simp [hd, hne, h.buffer]
  table := h.table
  keys b hb := by
    rcases h.keys b hb with hold | ⟨j, hj, hkey, hbuffer⟩
    · exact Or.inl hold
    · refine Or.inr ⟨j, hj, hkey, ?_⟩
      simpa using hbuffer

omit [DecidableEq Conn] in
/-- Where the keys of the client are intact, so are those of the forwarder. -/
theorem Alike.intact (h : Alike k s t) {w : World evp} {msg : Str} (hs : Intact s w msg) :
    Intact t w msg := by
  intro b hb hhash
  rcases h.keys b hb with ⟨a, ha, hsame, hvalue, c, hkey, hkey'⟩ | ⟨j, -, hkey, hbuffer⟩
  · have hread := hs a ha (hsame.trans hhash)
    rw [hkey, hvalue] at hread
    rw [hkey']
    show cstr (t.buffer (.inl c)) = b.value.msg
    rw [h.buffer]
    exact hread
  · rw [hkey]
    exact hbuffer

/-- A message is put into a connection of the forwarder's own. -/
theorem Alike.own (h : Alike k s t) (data : List UInt8) :
    Alike (k + 1) s { t with buffer := Function.update t.buffer (.inr k) data } where
  peer_list := h.peer_list
  fault := h.fault
  buffer c := by simpa using h.buffer c
  table := h.table
  keys b hb := by
    rcases h.keys b hb with hold | ⟨j, hj, hkey, hbuffer⟩
    · exact Or.inl hold
    · have hne : (Sum.inr j : Conn ⊕ Nat) ≠ .inr k := fun he => Nat.ne_of_lt hj (Sum.inr.inj he)
      refine Or.inr ⟨j, Nat.lt_succ_of_lt hj, hkey, ?_⟩
      simpa [hne] using hbuffer

omit [DecidableEq Conn] in
/-- Both tables get the same text. -/
theorem Alike.add (h : Alike k s t) {s' : ClientState evp Conn} {t' : ClientState evp (Conn ⊕ Nat)}
    {a : HashNode (Ptr Conn) UInt32 message_hash_o}
    {b : HashNode (Ptr (Conn ⊕ Nat)) UInt32 message_hash_o}
    (hs : s'.peer_list = s.peer_list ∧ s'.buffer = s.buffer ∧
      s'.message_hash_table = s.message_hash_table ++ [a])
    (ht : t'.peer_list = t.peer_list ∧ t'.buffer = t.buffer ∧
      t'.message_hash_table = t.message_hash_table ++ [b])
    (hfault : t'.fault = none) (hhash : a.hash = b.hash) (hvalue : a.value = b.value)
    (hkey : (∃ c, a.key = .recv c ∧ b.key = .recv (.inl c)) ∨
      ∃ j < k, b.key = .recv (.inr j) ∧ cstr (t.buffer (.inr j)) = b.value.msg) :
    Alike k s' t' := by
  obtain ⟨hpeers, hbuffer, htable⟩ := hs
  obtain ⟨hpeers', hbuffer', htable'⟩ := ht
  refine ⟨?_, hfault, fun c => ?_, ?_, fun b' hb' => ?_⟩
  · rw [hpeers, hpeers', h.peer_list]
  · rw [hbuffer, hbuffer', h.buffer]
  · rw [htable, htable', List.map_append, List.map_append, h.table]
    simp [hhash, hvalue]
  · rw [htable', List.mem_append, List.mem_singleton] at hb'
    rw [htable, hbuffer']
    rcases hb' with hb' | rfl
    · rcases h.keys b' hb' with ⟨a', ha', hold⟩ | hown
      · exact Or.inl ⟨a', List.mem_append_left _ ha', hold⟩
      · exact Or.inr hown
    · rcases hkey with hkey | hown
      · exact Or.inl ⟨a, List.mem_append_right _ (List.mem_singleton_self _), hhash, hvalue, hkey⟩
      · exact Or.inr hown

/-- A received message. -/
theorem Alike.recv_step (h : Alike k s t) (hf : s.fault = none) {w : World evp} {c : Conn}
    {data : List UInt8}
    (hP : Intact { s with buffer := Function.update s.buffer c data } w (cstr data)) :
    ((client_step s (w, .recv c data)).1.fault = none →
        Alike (k + 1) (client_step s (w, .recv c data)).1
          (client_step t (w, .recv (.inl c) data)).1) ∧
      sends (client_step s (w, .recv c data)).2 =
        sends (client_step t (w, .recv (.inl c) data)).2 := by
  have hsides := (h.recv c data).later
  have hrec := recognised_iff_entered hP
  have hrec' := recognised_iff_entered (hsides.intact hP)
  rw [h.entered_iff, ← hrec] at hrec'
  by_cases hknown : Recognised s w c (cstr data)
  · obtain ⟨hstate, hsends⟩ := recv_recognised hf hknown
    obtain ⟨hstate', hsends'⟩ := recv_recognised h.fault (hrec'.mpr hknown)
    rw [hstate, hsends, hstate', hsends']
    exact ⟨fun _ => hsides, rfl⟩
  · have hknown' := mt hrec'.mp hknown
    obtain ⟨ctx, hstate, hsends⟩ := recv_accepted hf hknown
    obtain ⟨ctx', hstate', hsends'⟩ := recv_accepted h.fault hknown'
    rw [hstate, hsends, hstate', hsends', h.peer_list]
    refine ⟨fun hlive => ?_, rfl⟩
    refine hsides.add ⟨rfl, rfl, accepted_table hknown⟩ ⟨rfl, rfl, accepted_table hknown'⟩ ?_
      rfl rfl (Or.inl ⟨c, rfl, rfl⟩)
    -- what ends one of the two ends the other
    have hlive' : fault_after s.fault (cstr data) = none := hlive
    rw [hf] at hlive'
    show fault_after t.fault (cstr data) = none
    rw [h.fault]
    exact hlive'

/-- A typed line. -/
theorem Alike.line_step (h : Alike k s t) (hseal : SealedFields evp) (hf : s.fault = none)
    {w : World evp} {input : Str}
    (hP : ∀ padded, (padded_input s w input).1 = .ok (some padded) →
      Intact s w padded ∧ ¬ Clashes s w padded) :
    ((client_step s (w, .line input)).1.fault = none →
        Alike (k + 1) (client_step s (w, .line input)).1
          (exec client_step t (disguise_step k s (w, .line input))).1) ∧
      sends (client_step s (w, .line input)).2 =
        sends (exec client_step t (disguise_step k s (w, .line input))).2 := by
  have hstep : client_step s (w, .line input) =
      ((input_send_msg s w input).1, (input_send_msg s w input).2.1) := by
    simp [client_step, hf]
  rw [hstep, disguise_step, hf]
  rcases hpad : padded_input s w input with ⟨_ | _ | padded, ctx⟩
  · simp only [input_send_msg, hpad, exec]
    exact ⟨fun hlive => absurd hlive (by simp), rfl⟩
  · simp only [input_send_msg, hpad, exec]
    exact ⟨fun _ => ⟨h.later.peer_list, h.fault, h.buffer, h.table, h.later.keys⟩, rfl⟩
  · obtain ⟨hintact, hclash⟩ := hP padded (by rw [hpad])
    have hfree := mt add_padded_freed_iff.mp hclash
    have htext := cstr_of_nulFree (padded_input_nulFree hpad)
    have hsides := h.own padded
    have hintact' : Intact { t with buffer := Function.update t.buffer (.inr k) padded } w
        (cstr padded) := by
      rw [htext]
      exact hsides.intact hintact
    -- the forwarder has not seen the message either
    have hknown : ¬ Recognised t w (.inr k) (cstr padded) := by
      rw [recognised_iff_entered hintact', h.entered_iff, htext]
      exact not_entered_of_not_clashes hintact hclash
    obtain ⟨ctx', hstate', hsends'⟩ := recv_accepted h.fault hknown
    obtain ⟨m, hm⟩ := padded_input_parses hseal hpad
    simp only [input_send_msg, hpad, hfree, exec, List.append_nil, hstate', hsends', h.peer_list]
    refine ⟨fun _ => ?_, by simp [sends]⟩
    refine hsides.add ⟨rfl, rfl, add_padded_table hclash⟩ ⟨rfl, rfl, accepted_table hknown⟩ ?_
      (by rw [htext]) (by rw [htext]) (Or.inr ⟨k, Nat.lt_succ_self k, rfl, ?_⟩)
    · rw [accepted, htext, fault_after, hm]
      exact h.fault
    · simp

end Sides

/-! ## Runs -/

/-- **Sender anonymity.**  Take a run that starts with an empty table, in which the table can tell
what it has seen and has never seen what is typed.  What the client sends in it is what a client
that only forwards would have sent in its place: one with whatever private key, at which nobody
types, and which receives over other connections the messages typed at the first. -/
theorem sends_disguised [DecidableEq Conn] (hseal : SealedFields evp) {s : ClientState evp Conn}
    (hempty : s.message_hash_table = client_create_hash_table) (private_key : evp.PrivKey)
    {is : List (World evp × Input Conn)}
    (hP : Always client_step (fun s _ i => Recognises s i) s is) :
    sends (exec client_step s is).2 =
      sends (exec client_step (s.forwarder private_key)
        (translate client_step disguise_step 0 s is)).2 := by
  refine exec_translate client_step client_step disguise_step
    (fun k s t => s.fault = none → Alike k s t) Recognises sends sends sends_append sends_append
    rfl ?_ ?_ hP
  · rintro k s t ⟨w, i⟩ halike hrec
    cases hf : s.fault with
    | some f =>
      rw [disguise_step, client_step, hf]
      exact ⟨fun hlive => absurd (hf.symm.trans hlive) (by simp), rfl⟩
    | none =>
      have h := halike hf
      cases i with
      | recv c data =>
        have hstep := h.recv_step hf (hrec hf)
        simpa [disguise_step, hf, exec] using hstep
      | line input => exact h.line_step hseal hf (hrec hf)
  · intro hf
    refine ⟨rfl, hf, fun c => rfl, ?_, fun b hb => absurd hb List.not_mem_nil⟩
    rw [hempty]
    rfl

/-- A client that has received a message can tell the ones it types from it. -/
theorem recognises_after_recv :
    Always client_step (fun (s : ClientState block_evp Nat) _ i => Recognises s i) sample_client
      [(sample_world, .recv 0 [97, 32, 97, 32, 97]),
        (sample_world, .line ([98] ++ 58 :: [104, 105]))] := by
  rw [always_cons, always_singleton]
  refine ⟨fun _ n hn => (nomatch hn), fun _ padded hpad => ?_⟩
  have hrec : ¬ Recognised (sample_client : ClientState block_evp Nat) sample_world 0
      (cstr [97, 32, 97, 32, 97]) := fun ⟨key, ⟨n, hn, _⟩, _⟩ => nomatch hn
  obtain ⟨ctx, hstate, -⟩ := recv_accepted (s := sample_client) rfl hrec
  rw [hstate] at hpad ⊢
  have hnode : ∀ n ∈ (accepted (sample_client : ClientState block_evp Nat) sample_world 0
      [97, 32, 97, 32, 97] ctx).message_hash_table, n.key = .recv 0 ∧
        n.value.msg = [97, 32, 97, 32, 97] := by
    rw [accepted_table hrec]
    rintro n hn
    cases List.mem_singleton.mp hn
    exact ⟨rfl, rfl⟩
  -- the key is the buffer of the connection, which still holds what was received
  have hread : (accepted (sample_client : ClientState block_evp Nat) sample_world 0
      [97, 32, 97, 32, 97] ctx).mem sample_world (.recv 0) = [97, 32, 97, 32, 97] := rfl
  constructor
  · intro n hn _
    obtain ⟨hkey, hmsg⟩ := hnode n hn
    rw [hkey, hmsg, hread]
  · rintro ⟨key, ⟨n, hn, -, rfl⟩, hsame⟩
    rw [(hnode n hn).1, hread] at hsame
    have hlen := padded_input_length (Prod.ext hpad rfl)
    rcases hsame with hsame | rfl
    · cases hsame
    · exact absurd hlen (by decide)

/-- What it sends then, it would have sent with any other key too. -/
theorem sends_disguised_hi :
    sends (exec client_step (sample_client : ClientState block_evp Nat)
        [(sample_world, .recv 0 [97, 32, 97, 32, 97]),
          (sample_world, .line ([98] ++ 58 :: [104, 105]))]).2 =
      sends (exec client_step ((sample_client : ClientState block_evp Nat).forwarder (0 : UInt8))
        (translate client_step disguise_step 0 (sample_client : ClientState block_evp Nat)
          [(sample_world, .recv 0 [97, 32, 97, 32, 97]),
            (sample_world, .line ([98] ++ 58 :: [104, 105]))])).2 :=
  sends_disguised block_evp_sealedFields rfl _ recognises_after_recv

end AnonyChat
