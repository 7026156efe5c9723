import AnonyChat.Sizes

/-! # The lines a user types

`input_handle` takes the value of `getline` for the length of a line, with a character to
cut off at its end, and `input_send_msg` writes through whatever `strchr` returns.  Neither
holds when `getline` reports the end of the input, and a line may lack its newline or its
colon.  Every other line is sent whole or rejected (`lines_clean`).
-/
namespace AnonyChat
open CString Machine

/-- What `getline` finds. -/
inductive Getline where
  /-- A line, up to its newline or to the end of the input. -/
  | line (bytes : List UInt8) (nonempty : bytes ≠ [])
  | eof
  deriving DecidableEq, Repr

/-- The process, and the line buffer of its input thread. -/
structure InputState (evp : EVP) (Conn : Type) where
  client : ClientState evp Conn
  input_buffer : List UInt8

/-- One turn of the loop: the index of the terminator in a buffer of `size` bytes, and what
`input_send_msg` did. -/
structure Turn (Conn : Type) where
  index : Int
  size : Nat
  events : List (Event Conn)
  ret : Option Int
  deriving DecidableEq, Repr

/-- `int len = getline(&input_buffer, &buffer_len, stdin)`: the buffer grows when it has to,
and keeps its bytes at the end of the input. -/
def getline (input_buffer : List UInt8) : Getline → List UInt8 × Int
  | .line bytes _ =>
    (bytes ++ 0 :: input_buffer.drop (bytes.length + 1), (bytes.length : Int).bmod (2 ^ 32))
  | .eof => (input_buffer, -1)

/-- The colon that `input_send_msg` overwrites. -/
def sever (input_buffer : List UInt8) : List UInt8 :=
  match strchr (cstr input_buffer) 58 with
  | none => input_buffer
  | some (name, _) => input_buffer.set name.length 0

variable {evp : EVP} {Conn : Type}

/-- The loop of `input_handle`, one turn; a dead process does nothing. -/
def input_handle [DecidableEq Conn] (s : InputState evp Conn) (i : World evp × Getline) :
    InputState evp Conn × List (Turn Conn) :=
  match s.client.fault with
  | some _ => (s, [])
  | none =>
    let (input_buffer, len) := getline s.input_buffer i.2
    let len := if len > 0 then len - 1 else len
    -- a write in front of the buffer does not show in its bytes
    let input_buffer := if 0 ≤ len then input_buffer.set len.toNat 0 else input_buffer
    let sent := input_send_msg s.client i.1 (cstr input_buffer)
    (⟨sent.1, sever input_buffer⟩, [⟨len, input_buffer.length, sent.2.1, sent.2.2⟩])

/-! ## What a line should lead to -/

/-- The line without its newline. -/
def content (bytes : List UInt8) : List UInt8 :=
  if bytes.getLast? = some 10 then bytes.dropLast else bytes

/-- Nothing was sent, and the table is the one before. -/
structure Rejected (s s' : ClientState evp Conn) (turn : Turn Conn) : Prop where
  ret : turn.ret = some 1
  events : turn.events = []
  table : s'.message_hash_table = s.message_hash_table

/-- The message was padded, put into the table as one more entry, and broadcast once. -/
structure Sent (s s' : ClientState evp Conn) (w : World evp) (encoded_msg : Str)
    (turn : Turn Conn) : Prop where
  ret : turn.ret = some 0
  once : ∃ padded value, padded_msg encoded_msg w.rand = .ok padded ∧
    turn.events = [.broadcast none padded (client_send_to_all_peers s.peer_list padded)] ∧
    s'.message_hash_table =
      s.message_hash_table ++ [⟨g_str_hash padded, .block w.malloc, value⟩]

/-- A turn that keeps to its buffer, and sends or rejects the line. -/
structure CleanTurn (s : ClientState evp Conn) (i : World evp × Getline)
    (s' : ClientState evp Conn) (turn : Turn Conn) : Prop where
  inside : 0 ≤ turn.index ∧ turn.index < turn.size
  delimiter : s'.fault ≠ some .null_pointer
  eof : i.2 = .eof → turn.events = []
  rejected : ∀ bytes hne, i.2 = .line bytes hne →
    (∀ name msg, strchr (content bytes) 58 = some (name, msg) →
      s.public_key_hash_table name = none) → Rejected s s' turn
  sent : ∀ bytes hne name msg pub_key encoded_msg, i.2 = .line bytes hne →
    strchr (content bytes) 58 = some (name, msg) →
    s.public_key_hash_table name = some pub_key →
    (msg_encrypt_encode evp s.rsa_encrypt_ctx.rsa_encrypt_ctx msg pub_key i.1.seed
      i.1.past).1 = some encoded_msg → Sent s s' i.1 encoded_msg turn

/-- The step takes a clean turn. -/
def StepClean [DecidableEq Conn] (s : InputState evp Conn) (i : World evp × Getline) : Prop :=
  ∃ turn, (input_handle s i).2 = [turn] ∧
    CleanTurn s.client i (input_handle s i).1.client turn

/-- The lines the program is made for: no end of the input, a length that is an `int`, and a
colon before the last character and the first NUL.  When the recipient is known, the line
has its newline and no NUL, unless its message cannot be encrypted anyway; and what is
encrypted fits a message that the table does not free. -/
def Typable (s : ClientState evp Conn) (i : World evp × Getline) : Prop :=
  match i.2 with
  | .eof => False
  | .line bytes _ => bytes.length < 2 ^ 31 ∧ 58 ∈ input_line bytes ∧
    ∀ name pub_key, s.public_key_hash_table name = some pub_key →
      (∀ msg, strchr (content bytes) 58 = some (name, msg) →
        (msg_encrypt_encode evp s.rsa_encrypt_ctx.rsa_encrypt_ctx msg pub_key i.1.seed
          i.1.past).1.isSome → bytes.getLast? = some 10 ∧ NulFree bytes) ∧
      ∀ msg encoded_msg, strchr (input_line bytes) 58 = some (name, msg) →
        (msg_encrypt_encode evp s.rsa_encrypt_ctx.rsa_encrypt_ctx msg pub_key i.1.seed
          i.1.past).1 = some encoded_msg →
        encoded_msg.length < MESSAGE_LENGTH ∧
          ∀ padded, padded_msg encoded_msg i.1.rand = .ok padded → ¬ Clashes s i.1 padded

/-! ## The buffer -/

section Buffer

theorem set_last (bytes rest : List UInt8) (hne : bytes ≠ []) :
    (bytes ++ rest).set (bytes.length - 1) 0 = bytes.dropLast ++ 0 :: rest := by
  obtain ⟨init, c, rfl⟩ := List.eq_nil_or_concat bytes |>.resolve_left hne
  rw [List.concat_eq_append, List.dropLast_concat, List.length_append, List.length_singleton,
    Nat.add_sub_cancel, List.append_assoc, List.set_append_right _ _ (Nat.le_refl _), Nat.sub_self]
  rfl

theorem input_line_upto (bytes : List UInt8) : input_line bytes <+: content bytes := by
  have hcstr : cstr bytes.dropLast <+: bytes.dropLast := List.takeWhile_prefix _
  rw [input_line, content]
  split
  · exact hcstr
  · exact hcstr.trans (List.dropLast_prefix bytes)

theorem input_line_eq_content {bytes : List UInt8} (hlast : bytes.getLast? = some 10)
    (hnul : NulFree bytes) : input_line bytes = content bytes := by
  rw [input_line, content, if_pos hlast]
  exact cstr_of_nulFree fun c hc => hnul c ((List.dropLast_sublist bytes).subset hc)

end Buffer

/-! ## One turn -/

section Turns
variable [DecidableEq Conn] {s : ClientState evp Conn} {w : World evp} {input name msg : Str}

/-- A padded message that the table does not free is one more entry. -/
theorem add_padded_eq {padded : Str} (h : ¬ Clashes s w padded) :
    ∃ value, (add_padded s w padded).1 =
      s.message_hash_table ++ [⟨g_str_hash padded, .block w.malloc, value⟩] := by
  have hfree := mt add_padded_freed_iff.mp h
  unfold add_padded client_hash_add_msg GHashTable.g_hash_table_insert at hfree ⊢
  split at hfree
  · exact absurd rfl hfree
  · rename_i hany
    rw [if_neg hany, Function.update_self]
    exact ⟨_, rfl⟩

theorem input_send_msg_unknown (hline : strchr input 58 = some (name, msg))
    (hkey : s.public_key_hash_table name = none) :
    ∃ ctx, input_send_msg s w input = (typed s s.message_hash_table ctx s.fault, [], some 1) := by
  refine ⟨s.rsa_encrypt_ctx.rsa_encrypt_ctx, ?_⟩
  simp [input_send_msg, padded_input, hline, hkey, typed]

theorem input_send_msg_unencrypted {pub_key : evp.PubKey}
    (hline : strchr input 58 = some (name, msg))
    (hkey : s.public_key_hash_table name = some pub_key)
    (henc : (msg_encrypt_encode evp s.rsa_encrypt_ctx.rsa_encrypt_ctx msg pub_key w.seed
      w.past).1 = none) :
    ∃ ctx, input_send_msg s w input = (typed s s.message_hash_table ctx s.fault, [], some 1) := by
  rcases he : msg_encrypt_encode evp s.rsa_encrypt_ctx.rsa_encrypt_ctx msg pub_key w.seed w.past
    with ⟨o, ctx⟩
  rw [he] at henc
  cases henc
  refine ⟨ctx, ?_⟩
  simp [input_send_msg, padded_input, hline, hkey, he, typed]

theorem input_send_msg_encoded {pub_key : evp.PubKey} {encoded_msg : Str}
    (hline : strchr input 58 = some (name, msg))
    (hkey : s.public_key_hash_table name = some pub_key)
    (henc : (msg_encrypt_encode evp s.rsa_encrypt_ctx.rsa_encrypt_ctx msg pub_key w.seed
      w.past).1 = some encoded_msg)
    (hlen : encoded_msg.length < MESSAGE_LENGTH)
    (hclash : ∀ padded, padded_msg encoded_msg w.rand = .ok padded → ¬ Clashes s w padded) :
    ∃ padded ctx, padded_msg encoded_msg w.rand = .ok padded ∧ ¬ Clashes s w padded ∧
      input_send_msg s w input = (typed s (add_padded s w padded).1 ctx s.fault,
        [.broadcast none padded (client_send_to_all_peers s.peer_list padded)], some 0) := by
  obtain ⟨padded, hpadded⟩ : ∃ padded, padded_msg encoded_msg w.rand = .ok padded :=
    ⟨_, padded_msg_eq_ok hlen w.rand⟩
  have hfree := mt add_padded_freed_iff.mp (hclash padded hpadded)
  rcases he : msg_encrypt_encode evp s.rsa_encrypt_ctx.rsa_encrypt_ctx msg pub_key w.seed w.past
    with ⟨o, ctx⟩
  rw [he] at henc
  cases henc
  refine ⟨padded, ctx, hpadded, hclash padded hpadded, ?_⟩
  simp [input_send_msg, padded_input, hline, hkey, he, hpadded, Except.map, hfree, typed]

/-- **A line** is handed on without its last character. -/
theorem input_handle_line {st : InputState evp Conn} (hlive : st.client.fault = none)
    (w : World evp) {bytes : List UInt8} (hne : bytes ≠ []) (hlen : bytes.length < 2 ^ 31) :
    ∃ (index : Int) (size : Nat), 0 ≤ index ∧ index < size ∧
      (input_handle st (w, .line bytes hne)).1.client =
        (input_send_msg st.client w (input_line bytes)).1 ∧
      (input_handle st (w, .line bytes hne)).2 =
        [⟨index, size, (input_send_msg st.client w (input_line bytes)).2.1,
          (input_send_msg st.client w (input_line bytes)).2.2⟩] := by
  have hpos := List.length_pos_iff.mpr hne
  have hint : (bytes.length : Int).bmod (2 ^ 32) = bytes.length :=
    Int.bmod_eq_of_le (by omega) (by omega)
  have hcut : (if (bytes.length : Int) > 0 then (bytes.length : Int) - 1 else bytes.length) =
      ((bytes.length - 1 : Nat) : Int) := by
    rw [if_pos (by omega)]
    omega
  have hbuffer : cstr ((bytes ++ 0 :: st.input_buffer.drop (bytes.length + 1)).set
      (bytes.length - 1) 0) = input_line bytes := by
    rw [set_last _ _ hne, cstr_append_cons_nul, input_line]
  refine ⟨(bytes.length - 1 : Nat), (bytes ++ 0 :: st.input_buffer.drop (bytes.length + 1)).length,
    Int.natCast_nonneg _, ?_, ?_, ?_⟩
  · rw [List.length_append, List.length_cons]
    omega
  · simp only [input_handle, hlive, getline, hint, hcut, Int.natCast_nonneg, if_true,
      Int.toNat_natCast, hbuffer]
  · simp only [input_handle, hlive, getline, hint, hcut, Int.natCast_nonneg, if_true,
      Int.toNat_natCast, hbuffer, List.length_set]

/-- The recipient and the message that the program finds in a line, and the whole message. -/
theorem content_of_input_line {bytes : List UInt8} (hcolon : 58 ∈ input_line bytes) :
    ∃ name msg more, strchr (input_line bytes) 58 = some (name, msg) ∧
      strchr (content bytes) 58 = some (name, msg ++ more) := by
  obtain ⟨⟨name, msg⟩, hline⟩ := Option.isSome_iff_exists.mp (strchr_isSome_iff.mpr hcolon)
  obtain ⟨more, hcontent⟩ := strchr_of_prefix (input_line_upto bytes) hline
  exact ⟨name, msg, more, hline, hcontent⟩

/-- What `input_send_msg` does with a line the program is made for. -/
theorem input_send_msg_typable {bytes : List UInt8} {hne : bytes ≠ []} (hlive : s.fault = none)
    (h : Typable s (w, .line bytes hne)) (index : Int) (size : Nat)
    (hinside : 0 ≤ index ∧ index < size) :
    CleanTurn s (w, .line bytes hne) (input_send_msg s w (input_line bytes)).1
        ⟨index, size, (input_send_msg s w (input_line bytes)).2.1,
          (input_send_msg s w (input_line bytes)).2.2⟩ ∧
      (input_send_msg s w (input_line bytes)).1.fault = none := by
  obtain ⟨-, hcolon, hknown⟩ := h
  obtain ⟨name, msg, more, hline, hcontent⟩ := content_of_input_line hcolon
  have hquiet : ∀ ctx, input_send_msg s w (input_line bytes) =
      (typed s s.message_hash_table ctx s.fault, [], some 1) →
      Rejected s (input_send_msg s w (input_line bytes)).1
        ⟨index, size, (input_send_msg s w (input_line bytes)).2.1,
          (input_send_msg s w (input_line bytes)).2.2⟩ ∧
        (input_send_msg s w (input_line bytes)).1.fault = none := by
    intro ctx he
    rw [he]
    exact ⟨⟨rfl, rfl, rfl⟩, hlive⟩
  cases hkey : s.public_key_hash_table name with
  | none =>
    obtain ⟨ctx, he⟩ := input_send_msg_unknown (w := w) hline hkey
    obtain ⟨hrej, hfault⟩ := hquiet ctx he
    refine ⟨⟨hinside, by rw [hfault]; nofun, by rintro ⟨⟩, fun _ _ _ _ => hrej, ?_⟩, hfault⟩
    intro bytes' _ name' msg' pub_key encoded_msg hi hcontent' hkey'
    cases hi
    cases hcontent.symm.trans hcontent'
    rw [hkey] at hkey'
    cases hkey'
  | some pub_key =>
    obtain ⟨hwhole, hfits⟩ := hknown name pub_key hkey
    cases henc : (msg_encrypt_encode evp s.rsa_encrypt_ctx.rsa_encrypt_ctx msg pub_key w.seed
        w.past).1 with
    | none =>
      obtain ⟨ctx, he⟩ := input_send_msg_unencrypted hline hkey henc
      obtain ⟨hrej, hfault⟩ := hquiet ctx he
      refine ⟨⟨hinside, by rw [hfault]; nofun, by rintro ⟨⟩, fun _ _ _ _ => hrej, ?_⟩, hfault⟩
      -- the whole message cannot be encrypted either, or else it is the one handed on
      intro bytes' _ name' msg' pub_key' encoded_msg hi hcontent' hkey' henc'
      cases hi
      obtain ⟨hlast, hnul⟩ := hwhole _ hcontent (by
        cases hcontent.symm.trans hcontent'
        cases hkey.symm.trans hkey'
        rw [henc']
        rfl)
      rw [input_line_eq_content hlast hnul] at hline
      cases hline.symm.trans hcontent'
      cases hkey.symm.trans hkey'
      rw [henc] at henc'
      cases henc'
    | some encoded_msg =>
      obtain ⟨hlen, hclash⟩ := hfits msg encoded_msg hline henc
      obtain ⟨padded, ctx, hpadded, hfree, he⟩ :=
        input_send_msg_encoded hline hkey henc hlen hclash
      obtain ⟨value, htable⟩ := add_padded_eq hfree
      rw [he]
      refine ⟨⟨hinside, ?_, by rintro ⟨⟩, ?_, ?_⟩, hlive⟩
      · show s.fault ≠ _
        rw [hlive]
        nofun
      · intro bytes' _ hi hunknown
        cases hi
        rw [hunknown _ _ hcontent] at hkey
        cases hkey
      · intro bytes' _ name' msg' pub_key' encoded_msg' hi hcontent' hkey' henc'
        cases hi
        obtain ⟨hlast, hnul⟩ := hwhole _ hcontent (by
          cases hcontent.symm.trans hcontent'
          cases hkey.symm.trans hkey'
          rw [henc']
          rfl)
        rw [input_line_eq_content hlast hnul] at hline
        cases hline.symm.trans hcontent'
        cases hkey.symm.trans hkey'
        cases henc.symm.trans henc'
        exact ⟨rfl, padded, value, hpadded, rfl, htable⟩

theorem stepClean_of_typable {st : InputState evp Conn} {i : World evp × Getline}
    (hlive : st.client.fault = none) (h : Typable st.client i) :
    StepClean st i ∧ (input_handle st i).1.client.fault = none := by
  obtain ⟨w, _ | _⟩ := i
  · rename_i bytes hne
    obtain ⟨index, size, hle, hlt, hclient, hturn⟩ := input_handle_line hlive w hne h.1
    obtain ⟨hclean, hfault⟩ := input_send_msg_typable hlive h index size ⟨hle, hlt⟩
    refine ⟨⟨_, hturn, ?_⟩, ?_⟩
    · rw [hclient]
      exact hclean
    · rw [hclient]
      exact hfault
  · exact absurd h id

/-- In a run whose lines are all ones the program is made for, every turn keeps to its
buffer, and sends the line or rejects it. -/
theorem lines_clean {st : InputState evp Conn} (hlive : st.client.fault = none)
    {is : List (World evp × Getline)}
    (h : Always input_handle (fun st _ i => Typable st.client i) st is) :
    Always input_handle (fun st _ i => StepClean st i) st is := by
  intro pre i post hsplit
  have hpre : Always input_handle (fun st _ i => Typable st.client i) st pre := by
    rw [hsplit] at h
    exact Always.of_append _ h
  -- no turn before this one ended the process
  have hlive' : (exec input_handle st pre).1.client.fault = none :=
    exec_invariant_always input_handle (fun st _ => st.client.fault = none) hlive
      (fun t _ _ ht htyp => (stepClean_of_typable ht htyp).2) hpre
  exact (stepClean_of_typable hlive' (h pre i post hsplit)).1

omit [DecidableEq Conn] in
/-- A line for somebody whose key is not known is one the program is made for. -/
theorem typable_of_unknown {bytes : List UInt8} {hne : bytes ≠ []} (hlen : bytes.length < 2 ^ 31)
    (hline : strchr (input_line bytes) 58 = some (name, msg))
    (hkey : s.public_key_hash_table name = none) : Typable s (w, .line bytes hne) := by
  have hcolon : 58 ∈ input_line bytes := strchr_isSome_iff.mp (by rw [hline]; rfl)
  obtain ⟨more, hcontent⟩ := strchr_of_prefix (input_line_upto bytes) hline
  refine ⟨hlen, hcolon, fun name' pub_key hkey' => ⟨fun msg' hwhole => ?_, fun msg' _ hsent => ?_⟩⟩
  · cases hcontent.symm.trans hwhole
    rw [hkey] at hkey'
    cases hkey'
  · cases hline.symm.trans hsent
    rw [hkey] at hkey'
    cases hkey'

/-- Typing does not change whose keys are known. -/
theorem input_handle_public_keys (st : InputState evp Conn) (i : World evp × Getline) :
    (input_handle st i).1.client.public_key_hash_table = st.client.public_key_hash_table := by
  unfold input_handle
  split
  · rfl
  · rcases input_send_msg_cases st.client i.1 _ with ⟨_, _, _, he⟩ | ⟨_, _, -, -, he⟩ |
      ⟨_, _, -, -, he⟩
    all_goals
      dsimp only
      rw [he]
      rfl

end Turns

/-- The input thread of a client, before its first line. -/
def keysmith_input : InputState keysmith_evp Nat := ⟨keysmith_client, List.replicate 500 0⟩

/-- One that knows the key of `b` only. -/
def input_to_b : InputState keysmith_evp Nat where
  client :=
    { keysmith_client with
      public_key_hash_table := fun name => if name = [98] then some (7 : UInt8) else none }
  input_buffer := List.replicate 500 0

/-- `b:hi`. -/
def hi_to_b : Getline := .line [98, 58, 104, 105, 10] (by decide)

/-- `x:a`. -/
def a_to_stranger : Getline := .line [120, 58, 97, 10] (by decide)

theorem typable_hi {s : ClientState keysmith_evp Nat}
    (htable : s.message_hash_table = client_create_hash_table) :
    Typable s (keysmith_world, hi_to_b) := by
  have hline : strchr (input_line [98, 58, 104, 105, 10]) 58 = some ([98], [104, 105]) := by decide
  refine ⟨by decide, by decide, fun name pub_key hkey => ⟨fun _ _ _ => ⟨rfl, by decide⟩, ?_⟩⟩
  intro msg encoded_msg hfound henc
  cases hline.symm.trans hfound
  have hlen := encoded_msg_length keysmith_evp_cipherLength (keysmith_evp_sealedLengths pub_key)
    henc
  refine ⟨?_, fun padded _ hclash => ?_⟩
  · rw [hlen]
    decide
  · obtain ⟨key, hholds, -⟩ := hclash
    rw [htable] at hholds
    exact GHashTable.not_holds_nil _ _ hholds

/-- A line that is sent, between two that are rejected. -/
theorem lines_clean_hi :
    Always input_handle (fun st _ i => StepClean st i) input_to_b
      [(keysmith_world, a_to_stranger), (keysmith_world, hi_to_b),
        (keysmith_world, a_to_stranger)] := by
  have hstranger : ∀ {s : ClientState keysmith_evp Nat},
      s.public_key_hash_table = input_to_b.client.public_key_hash_table →
      Typable s (keysmith_world, a_to_stranger) := by
    intro s hkeys
    refine typable_of_unknown (by decide)
      (show strchr (input_line [120, 58, 97, 10]) 58 = some ([120], [97]) by decide) ?_
    rw [hkeys]
    rfl
  refine lines_clean rfl ((always_cons input_handle).mpr ⟨hstranger rfl, ?_⟩)
  refine (always_cons input_handle).mpr ⟨typable_hi rfl, (always_singleton input_handle).mpr ?_⟩
  refine hstranger ?_
  rw [input_handle_public_keys, input_handle_public_keys]

/-- The end of the input is a write in front of the buffer, and `hi` one through NULL. -/
theorem lines_not_clean :
    (∃ turn, (input_handle keysmith_input (keysmith_world, .eof)).2 = [turn] ∧ turn.index = -1) ∧
      ¬ StepClean keysmith_input (keysmith_world, .eof) ∧
      (input_handle keysmith_input
        (keysmith_world, .line [104, 105, 10] (by decide))).1.client.fault = some .null_pointer ∧
      ¬ StepClean keysmith_input (keysmith_world, .line [104, 105, 10] (by decide)) := by
  have hnull : (input_handle keysmith_input
      (keysmith_world, .line [104, 105, 10] (by decide))).1.client.fault = some .null_pointer := rfl
  refine ⟨⟨_, rfl, rfl⟩, ?_, hnull, ?_⟩
  · rintro ⟨turn, hturn, hclean⟩
    have hindex : turn.index = -1 := by
      cases hturn
      rfl
    have := hclean.inside.1
    omega
  · rintro ⟨turn, -, hclean⟩
    exact hclean.delimiter hnull

end AnonyChat
