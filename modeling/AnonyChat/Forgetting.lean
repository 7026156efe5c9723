import AnonyChat.Origin

/-! # Forgetting messages (`msg.c`, `client_server.c`)

Each message in the table carries the time from which `client_purge_msg` may take it out; `main`
does not start the thread that would call it.  The first half is about the table alone: any calls,
in any order, by a caller that leaves a key as it is while the table holds it.  For such a caller
the table is the store it is meant to be: a message is known exactly when no purge since it was
last added found its time come, and each key the table was handed is freed once or is still held.

The client is not such a caller: it hands over keys that are not the table's to free.  The second
half says what a purge would free in a client (`client_purge_frees`).
-/
namespace AnonyChat
open CString GHashTable Machine

section Purge
variable {Conn : Type}

/-- `purge_message`, when `time` says `current_time`. -/
def purge_message (current_time : Nat) (val : message_hash_o) : Bool :=
  val.purge_time ≤ current_time

theorem purge_message_eq_false_iff {current_time : Nat} {val : message_hash_o} :
    purge_message current_time val = false ↔ current_time < val.purge_time := by
  rw [purge_message, decide_eq_false_iff_not, Nat.not_le]

/-- `client_purge_msg`: the new table and the keys the table freed; their number is the value
returned.  `clock val` is what `time` says when `purge_message` is called on the value. -/
def client_purge_msg (clock : message_hash_o → Nat) (hash_table : MessageTable Conn) :
    MessageTable Conn × List (Ptr Conn) :=
  g_hash_table_foreach_remove (fun val => purge_message (clock val) val) hash_table

/-- A call that changes the table, with what the addresses read during it. -/
inductive TableCall (Conn : Type) where
  | client_hash_add_msg (mem : Ptr Conn → Str) (now : Nat) (msg : Ptr Conn)
  | client_purge_msg (clock : message_hash_o → Nat)

/-- The table after the call, and the keys that were freed. -/
def table_step (t : MessageTable Conn) : TableCall Conn → MessageTable Conn × List (Ptr Conn)
  | .client_hash_add_msg mem now msg =>
    ((AnonyChat.client_hash_add_msg mem now t msg).1,
      if (AnonyChat.client_hash_add_msg mem now t msg).2 then [msg] else [])
  | .client_purge_msg clock => AnonyChat.client_purge_msg clock t

/-- The keys the calls hand to the table. -/
def handed_over (calls : List (TableCall Conn)) : List (Ptr Conn) :=
  calls.filterMap fun
    | .client_hash_add_msg _ _ msg => some msg
    | .client_purge_msg _ => none

/-- Every key of the table still reads the message it was entered with. -/
def KeysRead (mem : Ptr Conn → Str) (t : MessageTable Conn) : Prop :=
  ∀ n ∈ t, mem n.key = n.value.msg

/-- The call meets the table with its keys as they were; a purge does not read them. -/
def TableCall.KeysRead (t : MessageTable Conn) : TableCall Conn → Prop
  | .client_hash_add_msg mem _ _ => AnonyChat.KeysRead mem t
  | .client_purge_msg _ => True

/-! ## What the store is for -/

/-- The call does not touch a message with this purge time. -/
def TableCall.Keeps (text : Str) (purge_time : Nat) : TableCall Conn → Prop
  | .client_hash_add_msg mem _ msg => mem msg ≠ text
  | .client_purge_msg clock => clock ⟨text, purge_time⟩ < purge_time

/-- The message was added, and since it was last added no purge has found its time come. -/
def Remembered (calls : List (TableCall Conn)) (text : Str) (purge_time : Nat) : Prop :=
  ∃ pre mem now msg post, calls = pre ++ .client_hash_add_msg mem now msg :: post ∧
    mem msg = text ∧ purge_time = now + MESSAGE_PURGE_TIME ∧
      ∀ call ∈ post, call.Keeps text purge_time

theorem not_remembered_nil (text : Str) (purge_time : Nat) :
    ¬ Remembered ([] : List (TableCall Conn)) text purge_time := by
  rintro ⟨pre, mem, now, msg, post, h, -⟩
  exact List.append_ne_nil_of_right_ne_nil pre (List.cons_ne_nil _ post) h.symm

theorem remembered_concat_iff {calls : List (TableCall Conn)} {call : TableCall Conn} {text : Str}
    {purge_time : Nat} :
    Remembered (calls ++ [call]) text purge_time ↔
      (∃ mem now msg, call = .client_hash_add_msg mem now msg ∧ mem msg = text ∧
        purge_time = now + MESSAGE_PURGE_TIME) ∨
      (Remembered calls text purge_time ∧ call.Keeps text purge_time) := by
  constructor
  · rintro ⟨pre, mem, now, msg, post, hcalls, htext, htime, hpost⟩
    rcases List.eq_nil_or_concat post with rfl | ⟨post, last, rfl⟩
    · obtain ⟨-, hcall⟩ := List.append_inj' hcalls rfl
      exact Or.inl ⟨mem, now, msg, List.singleton_inj.mp hcall, htext, htime⟩
    · rw [List.concat_eq_append, ← List.cons_append, ← List.append_assoc] at hcalls
      obtain ⟨rfl, hcall⟩ := List.append_inj' hcalls rfl
      rw [List.singleton_inj] at hcall
      subst hcall
      exact Or.inr ⟨⟨pre, mem, now, msg, post, rfl, htext, htime,
        fun c hc => hpost c (by simp [hc])⟩, hpost call (by simp)⟩
  · rintro (⟨mem, now, msg, rfl, htext, htime⟩ |
      ⟨⟨pre, mem, now, msg, post, rfl, htext, htime, hpost⟩, hkeeps⟩)
    · exact ⟨calls, mem, now, msg, [], rfl, htext, htime, by simp⟩
    · refine ⟨pre, mem, now, msg, post ++ [call], by simp, htext, htime, fun c hc => ?_⟩
      rcases List.mem_append.mp hc with hc | hc
      · exact hpost c hc
      · rw [List.mem_singleton.mp hc]
        exact hkeeps

/-! ## The table tracks the store -/

/-- The table after these calls has the messages that are remembered, each in one node, with the
time of its last insertion. -/
structure Tracks (t : MessageTable Conn) (calls : List (TableCall Conn)) : Prop where
  hashed : ∀ n ∈ t, n.hash = g_str_hash n.value.msg
  distinct : (t.map fun n => n.value.msg).Nodup
  remembered : ∀ text purge_time,
    (∃ n ∈ t, n.value = ⟨text, purge_time⟩) ↔ Remembered calls text purge_time

theorem tracks_nil : Tracks (client_create_hash_table : MessageTable Conn) [] where
  hashed n hn := absurd hn List.not_mem_nil
  distinct := List.nodup_nil
  remembered text purge_time := by
    constructor
    · rintro ⟨n, hn, -⟩
      exact absurd hn List.not_mem_nil
    · exact fun h => absurd h (not_remembered_nil text purge_time)

variable {t : MessageTable Conn} {calls : List (TableCall Conn)} {mem : Ptr Conn → Str}

theorem KeysRead.map_eq (h : KeysRead mem t) :
    (t.map fun n => mem n.key) = t.map fun n => n.value.msg :=
  List.map_congr_left h

/-- While the keys read their messages the table is a map. -/
theorem Tracks.faithful (h : Tracks t calls) (hmem : KeysRead mem t) :
    Faithful g_str_hash mem t where
  hashed n hn := by rw [hmem n hn, h.hashed n hn]
  distinct := hmem.map_eq ▸ h.distinct

theorem KeysRead.maps_iff (hmem : KeysRead mem t) {text : Str} {purge_time : Nat} :
    Maps mem t text ⟨text, purge_time⟩ ↔ ∃ n ∈ t, n.value = ⟨text, purge_time⟩ := by
  constructor
  · rintro ⟨n, hn, -, hvalue⟩
    exact ⟨n, hn, hvalue⟩
  · rintro ⟨n, hn, hvalue⟩
    exact ⟨n, hn, by rw [hmem n hn, hvalue], hvalue⟩

/-- An insertion keeps the keys as they are: the new node has the message its key reads. -/
theorem KeysRead.add (hmem : KeysRead mem t) (hfaithful : Faithful g_str_hash mem t) (now : Nat)
    (msg : Ptr Conn) : KeysRead mem (client_hash_add_msg mem now t msg).1 := by
  intro m hm
  rcases hfaithful.mem_insert_iff.mp hm with ⟨hm, -⟩ | ⟨n, -, hkey, rfl⟩ | ⟨-, rfl⟩
  · exact hmem m hm
  · exact hkey
  · rfl

theorem Tracks.add (h : Tracks t calls) (hmem : KeysRead mem t) (now : Nat) (msg : Ptr Conn) :
    Tracks (client_hash_add_msg mem now t msg).1
      (calls ++ [.client_hash_add_msg mem now msg]) := by
  have hfaithful := h.faithful hmem
  have hafter : KeysRead mem (client_hash_add_msg mem now t msg).1 := hmem.add hfaithful now msg
  have hmap := hfaithful.insert msg ⟨mem msg, now + MESSAGE_PURGE_TIME⟩
  refine ⟨fun n hn => ?_, hafter.map_eq ▸ hmap.distinct, fun text purge_time => ?_⟩
  · rw [← hafter n hn]
    exact hmap.hashed n hn
  · rw [← hafter.maps_iff, remembered_concat_iff, ← h.remembered, ← hmem.maps_iff]
    refine hfaithful.maps_insert_iff.trans (or_congr ?_ ?_)
    · constructor
      · rintro ⟨rfl, hvalue⟩
        exact ⟨mem, now, msg, rfl, rfl, congrArg message_hash_o.purge_time hvalue⟩
      · rintro ⟨mem', now', msg', hcall, rfl, rfl⟩
        cases hcall
        exact ⟨rfl, rfl⟩
    · rw [and_comm, TableCall.Keeps, ne_comm]

theorem Tracks.purge (h : Tracks t calls) (clock : message_hash_o → Nat) :
    Tracks (client_purge_msg clock t).1 (calls ++ [.client_purge_msg clock]) where
  hashed n hn := h.hashed n (mem_foreach_remove_iff.mp hn).1
  distinct := h.distinct.sublist (List.filter_sublist.map _)
  remembered text purge_time := by
    rw [remembered_concat_iff, ← h.remembered]
    constructor
    · rintro ⟨n, hn, hvalue⟩
      obtain ⟨hn, hstays⟩ := mem_foreach_remove_iff.mp hn
      rw [purge_message_eq_false_iff, hvalue] at hstays
      exact Or.inr ⟨⟨n, hn, hvalue⟩, hstays⟩
    · rintro (⟨mem, now, msg, hcall, -⟩ | ⟨⟨n, hn, hvalue⟩, hkeeps⟩)
      · cases hcall
      · refine ⟨n, mem_foreach_remove_iff.mpr ⟨hn, ?_⟩, hvalue⟩
        rw [purge_message_eq_false_iff, hvalue]
        exact hkeeps

theorem Tracks.step (h : Tracks t calls) {call : TableCall Conn} (hkeys : call.KeysRead t) :
    Tracks (table_step t call).1 (calls ++ [call]) := by
  cases call with
  | client_hash_add_msg mem now msg => exact h.add hkeys now msg
  | client_purge_msg clock => exact h.purge clock

/-- The table after any calls that meet it with its keys as they were. -/
theorem tracks_exec
    (hkeys : Always table_step (fun t _ call => call.KeysRead t) client_create_hash_table calls) :
    Tracks (exec table_step client_create_hash_table calls).1 calls := by
  induction calls using List.reverseRecOn with
  | nil => exact tracks_nil
  | append_singleton calls call ih =>
    obtain ⟨hbefore, hlast⟩ := (always_concat table_step).mp hkeys
    rw [exec_concat]
    exact (ih hbefore).step hlast

/-! ## Who frees a key -/

theorem table_step_keys (t : MessageTable Conn) (call : TableCall Conn) :
    ((table_step t call).2 ++ (table_step t call).1.map HashNode.key).Perm
      (t.map HashNode.key ++ handed_over [call]) := by
  cases call with
  | client_hash_add_msg mem now msg => exact keys_insert g_str_hash mem t msg _
  | client_purge_msg clock =>
    rw [handed_over, List.filterMap_cons_none rfl, List.filterMap_nil, List.append_nil]
    exact keys_foreach_remove _ t

/-- Each key that was handed over is freed once or held. -/
theorem exec_keys (calls : List (TableCall Conn)) :
    ((exec table_step client_create_hash_table calls).2 ++
      (exec table_step client_create_hash_table calls).1.map HashNode.key).Perm
        (handed_over calls) := by
  induction calls using List.reverseRecOn with
  | nil => exact List.Perm.refl []
  | append_singleton calls call ih =>
    rw [exec_concat, handed_over, List.filterMap_append, List.append_assoc]
    refine ((table_step_keys _ call).append_left _).trans ?_
    rw [← List.append_assoc]
    exact ih.append_right _

/-! ## The store -/

/-- **The table of messages is a store that forgets.**  After any calls that meet the table with
its keys as they were, a message is known exactly when it was added and no purge since it was last
added has found its time come, `MESSAGE_PURGE_TIME` seconds after that; and of the keys handed
over, each was freed once or is held. -/
theorem message_table_store (calls : List (TableCall Conn))
    (hkeys : Always table_step (fun t _ call => call.KeysRead t) client_create_hash_table calls)
    (mem : Ptr Conn → Str)
    (hmem : KeysRead mem (exec table_step client_create_hash_table calls).1) :
    (∀ msg, client_has_seen_msg mem (exec table_step client_create_hash_table calls).1 msg = true ↔
      ∃ purge_time, Remembered calls (mem msg) purge_time) ∧
    ((exec table_step client_create_hash_table calls).2 ++
      (exec table_step client_create_hash_table calls).1.map HashNode.key).Perm
        (handed_over calls) := by
  have htracks := tracks_exec hkeys
  refine ⟨fun msg => ?_, exec_keys calls⟩
  rw [client_has_seen_msg, (htracks.faithful hmem).lookup_isSome_iff]
  constructor
  · rintro ⟨value, n, hn, hkey, hvalue⟩
    refine ⟨value.purge_time, (htracks.remembered _ _).mp ⟨n, hn, ?_⟩⟩
    rw [← hkey, hmem n hn, hvalue]
  · rintro ⟨purge_time, hremembered⟩
    exact ⟨_, hmem.maps_iff.mpr ((htracks.remembered _ _).mpr hremembered)⟩

instance (t : MessageTable Conn) (call : TableCall Conn) : Decidable (call.KeysRead t) :=
  match call with
  | .client_hash_add_msg mem _ _ => inferInstanceAs (Decidable (∀ n ∈ t, mem n.key = n.value.msg))
  | .client_purge_msg _ => inferInstanceAs (Decidable True)

end Purge

/-- Two blocks with the message `A`, and everything else empty. -/
def two_blocks : Ptr Nat → Str
  | .block 0 => [65]
  | .block 1 => [65]
  | _ => []

/-- The message is added twice, and the purge that would have taken it out after the first time
does not. -/
def two_additions : List (TableCall Nat) :=
  [.client_hash_add_msg two_blocks 0 (.block 0), .client_hash_add_msg two_blocks 20 (.block 1),
    .client_purge_msg fun _ => 30]

theorem message_table_store_two :
    exec table_step client_create_hash_table two_additions =
      ([⟨g_str_hash [65], .block 0, ⟨[65], 50⟩⟩], [.block 1]) ∧
    (client_has_seen_msg two_blocks (exec table_step client_create_hash_table two_additions).1
      (.block 1) = true ↔ ∃ purge_time, Remembered two_additions [65] purge_time) ∧
    ((exec table_step client_create_hash_table two_additions).2 ++
      (exec table_step client_create_hash_table two_additions).1.map HashNode.key).Perm
        (handed_over two_additions) := by
  have hrun : exec table_step client_create_hash_table two_additions =
      ([⟨g_str_hash [65], .block 0, ⟨[65], 50⟩⟩], [.block 1]) := by rfl
  have hkeys : Always table_step (fun t _ call => call.KeysRead t) client_create_hash_table
      two_additions := by decide
  have hmem : KeysRead two_blocks (exec table_step client_create_hash_table two_additions).1 := by
    rw [hrun]
    rintro n hn
    rw [List.mem_singleton.mp hn]
    rfl
  have hstore := message_table_store two_additions hkeys two_blocks hmem
  exact ⟨hrun, hstore.1 (.block 1), hstore.2⟩

/-! ## The client's own table -/

section Client
variable {evp : EVP} {Conn : Type}

/-- The address a message is entered under: the buffer `client_handle` reads its connection into
and frees, or the block of a typed message, which `input_send_msg` has freed. -/
def key_of (w : World evp) : Option Conn → Ptr Conn
  | some c => .recv c
  | none => .block w.malloc

/-- The nodes a step enters: one for each broadcast. -/
def entered_nodes (w : World evp) (out : List (Event Conn)) :
    List (HashNode (Ptr Conn) UInt32 message_hash_o) :=
  out.filterMap fun
    | .broadcast src msg _ =>
      some ⟨g_str_hash msg, key_of w src, ⟨msg, w.time + MESSAGE_PURGE_TIME⟩⟩
    | _ => none

theorem mem_entered_nodes_iff {w : World evp} {out : List (Event Conn)}
    {n : HashNode (Ptr Conn) UInt32 message_hash_o} :
    n ∈ entered_nodes w out ↔ ∃ src msg sent, .broadcast src msg sent ∈ out ∧
      n = ⟨g_str_hash msg, key_of w src, ⟨msg, w.time + MESSAGE_PURGE_TIME⟩⟩ := by
  rw [entered_nodes, List.mem_filterMap]
  constructor
  · rintro ⟨e, he, hn⟩
    cases e with
    | broadcast src msg sent => exact ⟨src, msg, sent, he, (Option.some.inj hn).symm⟩
    | recv c msg => cases hn
    | seen c msg => cases hn
    | decode msg => cases hn
    | received text => cases hn
  · rintro ⟨src, msg, sent, he, rfl⟩
    exact ⟨_, he, rfl⟩

theorem entered_nodes_received (w : World evp) (texts : List Str) :
    entered_nodes w (texts.map (Event.received : Str → Event Conn)) = [] := by
  rw [entered_nodes, List.filterMap_eq_nil_iff]
  rintro e he
  obtain ⟨text, -, rfl⟩ := List.mem_map.mp he
  rfl

variable [DecidableEq Conn]

/-- A step that frees no key adds its nodes to the table. -/
theorem client_step_table (s : ClientState evp Conn) (i : World evp × Input Conn)
    (h : (client_step s i).1.fault ≠ some .double_free) :
    (client_step s i).1.message_hash_table =
      s.message_hash_table ++ entered_nodes i.1 (client_step s i).2 := by
  have houtcome := client_step_outcome s i
  generalize client_step s i = r at h houtcome
  rcases i with ⟨w, i⟩
  cases houtcome with
  | dead hf => exact (List.append_nil _).symm
  | seen hf hrec => exact (List.append_nil _).symm
  | accept hf hrec =>
    rw [entered_nodes, List.filterMap_append, ← entered_nodes, ← entered_nodes,
      entered_nodes_received, List.append_nil]
    exact accepted_table hrec
  | quiet hf => exact (List.append_nil _).symm
  | sent hf hpad hclash => exact add_padded_table hclash
  | clash hf hpad hclash => exact absurd rfl h

/-- A dead client stays as it is. -/
theorem client_step_dead {s : ClientState evp Conn} {f : Fault} (h : s.fault = some f)
    (i : World evp × Input Conn) : client_step s i = (s, []) := by
  rw [client_step, h]

/-- The table of a client that freed no key: a node for each broadcast of the run. -/
theorem mem_client_table_iff {s : ClientState evp Conn}
    (hstart : s.message_hash_table = client_create_hash_table)
    {is : List (World evp × Input Conn)}
    (hlive : (exec client_step s is).1.fault ≠ some .double_free)
    {n : HashNode (Ptr Conn) UInt32 message_hash_o} :
    n ∈ (exec client_step s is).1.message_hash_table ↔
      ∃ pre i post, is = pre ++ i :: post ∧
        n ∈ entered_nodes i.1 (client_step (exec client_step s pre).1 i).2 := by
  induction is using List.reverseRecOn with
  | nil =>
    rw [exec_nil, hstart]
    refine iff_of_false List.not_mem_nil ?_
    rintro ⟨pre, i, post, hsplit, -⟩
    exact List.append_ne_nil_of_right_ne_nil pre (List.cons_ne_nil i post) hsplit.symm
  | append_singleton is i ih =>
    rw [exec_concat] at hlive ⊢
    have hbefore : (exec client_step s is).1.fault ≠ some .double_free := by
      intro hdead
      rw [client_step_dead hdead] at hlive
      exact hlive hdead
    rw [client_step_table _ i hlive, List.mem_append, ih hbefore]
    constructor
    · rintro (⟨pre, j, post, rfl, hn⟩ | hn)
      · exact ⟨pre, j, post ++ [i], by simp, hn⟩
      · exact ⟨is, i, [], rfl, hn⟩
    · rintro ⟨pre, j, post, hsplit, hn⟩
      rcases List.eq_nil_or_concat post with rfl | ⟨post, last, rfl⟩
      · obtain ⟨rfl, hj⟩ := List.append_inj' hsplit rfl
        rw [List.singleton_inj.mp hj]
        exact Or.inr hn
      · rw [List.concat_eq_append, ← List.cons_append, ← List.append_assoc] at hsplit
        exact Or.inl ⟨pre, j, post, (List.append_inj' hsplit rfl).1, hn⟩

omit [DecidableEq Conn] in
theorem mem_purged_iff {clock : message_hash_o → Nat} {t : MessageTable Conn} {key : Ptr Conn} :
    key ∈ (client_purge_msg clock t).2 ↔
      ∃ n ∈ t, n.value.purge_time ≤ clock n.value ∧ n.key = key := by
  rw [client_purge_msg, mem_removed_iff]
  refine exists_congr fun n => and_congr_right fun _ => ?_
  rw [purge_message, decide_eq_true_eq]

/-- **What a purge would free.**  After any run of a client that starts with an empty table and
freed no key, a purge frees exactly this: for each message the client broadcast whose time has
come, the receive buffer of the connection it came from, which `client_handle` goes on using and
frees itself; or, for a message typed at the client, the block that `input_send_msg` has freed. -/
theorem client_purge_frees {s : ClientState evp Conn}
    (hstart : s.message_hash_table = client_create_hash_table)
    {is : List (World evp × Input Conn)}
    (hlive : (exec client_step s is).1.fault ≠ some .double_free)
    (clock : message_hash_o → Nat) (key : Ptr Conn) :
    key ∈ (client_purge_msg clock (exec client_step s is).1.message_hash_table).2 ↔
      ∃ pre w input post src msg sent, is = pre ++ (w, input) :: post ∧
        .broadcast src msg sent ∈ (client_step (exec client_step s pre).1 (w, input)).2 ∧
        w.time + MESSAGE_PURGE_TIME ≤ clock ⟨msg, w.time + MESSAGE_PURGE_TIME⟩ ∧
        key = key_of w src := by
  rw [mem_purged_iff]
  constructor
  · rintro ⟨n, hn, htime, rfl⟩
    obtain ⟨pre, ⟨w, input⟩, post, hsplit, hnode⟩ := (mem_client_table_iff hstart hlive).mp hn
    obtain ⟨src, msg, sent, hevent, rfl⟩ := mem_entered_nodes_iff.mp hnode
    exact ⟨pre, w, input, post, src, msg, sent, hsplit, hevent, htime, rfl⟩
  · rintro ⟨pre, w, input, post, src, msg, sent, hsplit, hevent, htime, rfl⟩
    have hnode := (mem_entered_nodes_iff (w := w)).mpr ⟨src, msg, sent, hevent, rfl⟩
    exact ⟨_, (mem_client_table_iff hstart hlive).mpr ⟨pre, (w, input), post, hsplit, hnode⟩,
      htime, rfl⟩

end Client

/-- A message that came over the connection 0 half a minute ago. -/
theorem client_purge_frees_buffer :
    Ptr.recv 0 ∈ (client_purge_msg (fun _ => 30) (exec client_step
      (sample_client : ClientState block_evp Nat)
      [(sample_world, .recv 0 [97, 32, 97, 32, 97])]).1.message_hash_table).2 := by
  have hrec : ¬ Recognised (sample_client : ClientState block_evp Nat) sample_world 0
      (cstr [97, 32, 97, 32, 97]) := fun ⟨key, ⟨n, hn, _⟩, _⟩ => nomatch hn
  have hstep : client_step (sample_client : ClientState block_evp Nat)
      (sample_world, .recv 0 [97, 32, 97, 32, 97]) =
        client_handle sample_client sample_world 0 [97, 32, 97, 32, 97] := rfl
  rcases client_handle_cases (sample_client : ClientState block_evp Nat) sample_world 0
    [97, 32, 97, 32, 97] with ⟨hknown, -⟩ | ⟨-, ctx, texts, hout⟩
  · exact absurd hknown hrec
  · have hlive : (exec client_step (sample_client : ClientState block_evp Nat)
        [(sample_world, .recv 0 [97, 32, 97, 32, 97])]).1.fault ≠ some .double_free := by
      rw [exec, exec, hstep, hout]
      show fault_after none (cstr [97, 32, 97, 32, 97]) ≠ _
      decide
    have hbroadcast : Event.broadcast (some 0) (cstr [97, 32, 97, 32, 97])
        (client_send_to_all_peers (sample_client : ClientState block_evp Nat).peer_list
          [97, 32, 97, 32, 97]) ∈
        (client_step (sample_client : ClientState block_evp Nat)
          (sample_world, .recv 0 [97, 32, 97, 32, 97])).2 := by
      rw [hstep, hout]
      exact List.mem_append_left _ (by simp)
    exact (client_purge_frees rfl hlive (fun _ => 30) (.recv 0)).mpr
      ⟨[], sample_world, _, [], some 0, _, _, rfl, hbroadcast, Nat.le_refl 30, rfl⟩

end AnonyChat
