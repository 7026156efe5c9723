import AnonyChat.Lib.Block
import AnonyChat.Sizes

/-! # The bytes of a padded message

`input_send_msg` pads a message in a block of `MESSAGE_LENGTH` bytes.  The encoding, a
space and the random text are `MESSAGE_LENGTH` characters together, whatever the length
of the encoding: the text leaves room for the space but not for the terminator that
`strncat` writes behind it.  So the padding needs one byte more than it has
(`padded_msg_bytes_ok`, `padded_msg_bytes_stray`).
-/
namespace AnonyChat
open CString Block

section Padding
variable (rand : Nat → Nat)

/-- `str_rand` on the bytes at `dest`. -/
def str_rand_bytes {size : Nat} (dest : Block size) (len : Nat) : Except Stray (Block size) := do
  let dest ← (List.range len).foldlM
    (fun dest i => dest.write i [UInt8.ofNat (48 + rand i % 72)]) dest
  dest.write len [0]

/-- `pad_len`. -/
def pad_len (encoded_msg : Str) : Int := MESSAGE_LENGTH - encoded_msg.length - 1

/-- The padding of `input_send_msg`, with the bytes `malloc` finds in the two blocks. -/
def padded_msg_bytes {size : Nat} (padded_msg : Block size) (malloc : (n : Nat) → Block n)
    (encoded_msg : Str) : Except Stray (Block size) := do
  let padded_msg ← padded_msg.strncpy encoded_msg MESSAGE_LENGTH
  if encoded_msg.length < MESSAGE_LENGTH then
    let pad_len := (pad_len encoded_msg).toNat
    let pad_str ← str_rand_bytes rand (malloc (pad_len + 1)) pad_len
    let padded_msg ← padded_msg.strncat space 2
    padded_msg.strncat (cstr pad_str.bytes) (pad_len + 1)
  else
    return padded_msg

/-- Every byte is written inside its block, and the length of the padding is not negative. -/
def PaddingInside (malloc : (n : Nat) → Block n) (encoded_msg : Str) : Prop :=
  0 ≤ pad_len encoded_msg ∧
    ∃ b, padded_msg_bytes rand (malloc MESSAGE_LENGTH) malloc encoded_msg = .ok b

variable {size : Nat}

/-- The characters so far. -/
theorem str_rand_loop {len : Nat} (hlen : len ≤ size) (dest : Block size) :
    ∃ b : Block size, (List.range len).foldlM
        (fun dest i => dest.write i [UInt8.ofNat (48 + rand i % 72)]) dest = .ok b ∧
      b.bytes.take len = str_rand rand len := by
  induction len with
  | zero => exact ⟨dest, rfl, rfl⟩
  | succ len ih =>
    obtain ⟨b, hb, htake⟩ := ih (by omega)
    obtain ⟨b', hb', hbytes⟩ := write_ok (b := b)
      (show len + [UInt8.ofNat (48 + rand len % 72)].length ≤ size from hlen)
    have hsucc : str_rand rand (len + 1) =
        str_rand rand len ++ [UInt8.ofNat (48 + rand len % 72)] := by
      rw [str_rand, List.range_succ, List.map_append]
      rfl
    refine ⟨b', ?_, ?_⟩
    · rw [List.range_succ, List.foldlM_append, hb]
      show (b.write len [UInt8.ofNat (48 + rand len % 72)] >>= fun dest => pure dest) = .ok b'
      rw [hb']
      rfl
    · have hlen' : (str_rand rand len ++ [UInt8.ofNat (48 + rand len % 72)]).length = len + 1 := by
        rw [List.length_append, str_rand_length, List.length_singleton]
      rw [hsucc, hbytes, htake, ← List.append_assoc]
      exact List.take_left' hlen'

/-- The random text fits a block with a byte for its terminator. -/
theorem str_rand_bytes_ok {len : Nat} (hlen : len < size) (dest : Block size) :
    ∃ b, str_rand_bytes rand dest len = .ok b ∧ b.Holds (str_rand rand len) := by
  obtain ⟨b, hb, htake⟩ := str_rand_loop rand (Nat.le_of_lt hlen) dest
  obtain ⟨b', hb', hbytes⟩ := write_ok (b := b) (show len + [0].length ≤ size from hlen)
  refine ⟨b', ?_, str_rand_nulFree rand len, b.bytes.drop (len + 1), ?_⟩
  · rw [str_rand_bytes, hb]
    exact hb'
  · rw [hbytes, htake]
    rfl

/-- What the two last calls append, each with its count. -/
def paddings (encoded_msg : Str) : List (Str × Nat) :=
  [(space, 2), (str_rand rand (MESSAGE_LENGTH - encoded_msg.length - 1),
    MESSAGE_LENGTH - encoded_msg.length)]

theorem paddings_nulFree (encoded_msg : Str) :
    ∀ src ∈ paddings rand encoded_msg, NulFree src.1 := by
  intro src hsrc
  rcases List.mem_cons.mp hsrc with rfl | hsrc
  · decide
  · rw [List.mem_singleton.mp hsrc]
    exact str_rand_nulFree _ _

/-- The text they make is the message, and has `MESSAGE_LENGTH` characters. -/
theorem appended_paddings {encoded_msg : Str} (hlen : encoded_msg.length < MESSAGE_LENGTH) :
    padded_msg encoded_msg rand = .ok (encoded_msg ++ appended (paddings rand encoded_msg)) ∧
      (encoded_msg ++ appended (paddings rand encoded_msg)).length = MESSAGE_LENGTH := by
  have htake : (str_rand rand (MESSAGE_LENGTH - encoded_msg.length - 1)).take
      (MESSAGE_LENGTH - encoded_msg.length) =
        str_rand rand (MESSAGE_LENGTH - encoded_msg.length - 1) :=
    List.take_of_length_le (by rw [str_rand_length]; omega)
  have htext : appended (paddings rand encoded_msg) =
      32 :: str_rand rand (MESSAGE_LENGTH - encoded_msg.length - 1) := by
    simp only [appended, paddings, List.map_cons, List.map_nil, htake, List.flatten_cons,
      List.flatten_nil, List.append_nil]
    rfl
  have hpadded := padded_msg_eq_ok hlen rand
  rw [← htext] at hpadded
  exact ⟨hpadded, padded_msg_length hpadded⟩

/-- The padding is a copy and two appends. -/
theorem padded_msg_bytes_eq {encoded_msg : Str} (hnul : NulFree encoded_msg)
    (hlen : encoded_msg.length < MESSAGE_LENGTH) (hsize : MESSAGE_LENGTH ≤ size)
    (dest : Block size) (malloc : (n : Nat) → Block n) :
    ∃ b : Block size, b.Holds encoded_msg ∧
      padded_msg_bytes rand dest malloc encoded_msg = b.strncats (paddings rand encoded_msg) := by
  have hpad : (pad_len encoded_msg).toNat = MESSAGE_LENGTH - encoded_msg.length - 1 := by
    rw [pad_len]
    omega
  have hnext : MESSAGE_LENGTH - encoded_msg.length - 1 + 1 =
      MESSAGE_LENGTH - encoded_msg.length := by omega
  obtain ⟨b, hcopy, hb⟩ := strncpy_holds (b := dest) hsize hnul hlen
  obtain ⟨pad_str, hrand, hpad_str⟩ := str_rand_bytes_ok rand
    (Nat.lt_succ_self (pad_len encoded_msg).toNat) (malloc _)
  have hstr : cstr pad_str.bytes = str_rand rand (MESSAGE_LENGTH - encoded_msg.length - 1) := by
    rw [hpad_str.cstr_eq, hpad]
  refine ⟨b, hb, ?_⟩
  rw [paddings, strncats_cons]
  simp only [padded_msg_bytes, hcopy, hrand, bind, Except.bind, if_pos hlen, strncats_singleton]
  rw [hstr, hpad, hnext]

/-- **One byte more** than `MESSAGE_LENGTH` would be enough, and would hold the message that
`padded_msg` says. -/
theorem padded_msg_bytes_ok {encoded_msg : Str} (hnul : NulFree encoded_msg)
    (hlen : encoded_msg.length < MESSAGE_LENGTH) (hsize : MESSAGE_LENGTH < size)
    (dest : Block size) (malloc : (n : Nat) → Block n) :
    ∃ b padded, padded_msg_bytes rand dest malloc encoded_msg = .ok b ∧
      padded_msg encoded_msg rand = .ok padded ∧ b.Holds padded := by
  obtain ⟨b, hb, heq⟩ := padded_msg_bytes_eq rand hnul hlen (Nat.le_of_lt hsize) dest
    malloc
  obtain ⟨hpadded, htext⟩ := appended_paddings rand hlen
  obtain ⟨b', hb', hholds⟩ := hb.strncats_ok (paddings_nulFree rand encoded_msg) (htext ▸ hsize)
  exact ⟨b', _, heq.trans hb', hpadded, hholds⟩

/-- **In the block of `MESSAGE_LENGTH` bytes** the last terminator has no place. -/
theorem padded_msg_bytes_stray {encoded_msg : Str} (hnul : NulFree encoded_msg)
    (hlen : encoded_msg.length < MESSAGE_LENGTH) (dest : Block MESSAGE_LENGTH)
    (malloc : (n : Nat) → Block n) :
    padded_msg_bytes rand dest malloc encoded_msg = .error .write := by
  obtain ⟨b, hb, heq⟩ := padded_msg_bytes_eq rand hnul hlen (Nat.le_refl _) dest malloc
  obtain ⟨-, htext⟩ := appended_paddings rand hlen
  rw [heq, hb.strncats_stray (paddings_nulFree rand encoded_msg) (Nat.le_of_eq htext.symm)]

/-- Whatever the encoding, the padding writes behind its block. -/
theorem padding_never_inside {encoded_msg : Str} (hnul : NulFree encoded_msg)
    (hlen : encoded_msg.length < MESSAGE_LENGTH) (malloc : (n : Nat) → Block n) :
    ¬ PaddingInside rand malloc encoded_msg := by
  intro h
  obtain ⟨-, b, hb⟩ := h
  rw [padded_msg_bytes_stray rand hnul hlen] at hb
  cases hb

end Padding

/-- The encoding `QQ==`. -/
theorem padding_never_inside_short :
    ¬ PaddingInside (fun _ => 0) (fun n => Block.fill n 0) [81, 81, 61, 61] :=
  padding_never_inside _ (by decide) (by decide) _

/-- The body `hi` for a key of 4096 bits: 734 characters and 615 of padding, and the
terminator behind them. -/
theorem padding_overrun_hi :
    ∃ encoded_msg, (msg_encrypt_encode keysmith_evp [] [104, 105] (7 : UInt8) (0 : UInt8) 0).1 =
        some encoded_msg ∧ encoded_msg.length = 734 ∧
      padded_msg_bytes (fun _ => 0) (Block.fill MESSAGE_LENGTH 0) (fun n => Block.fill n 0)
        encoded_msg = .error .write ∧
      ¬ PaddingInside (fun _ => 0) (fun n => Block.fill n 0) encoded_msg := by
  obtain ⟨encoded_msg, henc⟩ := keysmith_encodes [104, 105]
  have hlen := encoded_msg_length keysmith_evp_cipherLength (keysmith_evp_sealedLengths 7) henc
  obtain ⟨_, _, _, _, _, _, _, -, -, -, hnul, -⟩ := msg_encrypt_encode_cases henc
  have hshort : encoded_msg.length < MESSAGE_LENGTH := by
    rw [hlen]
    decide
  have hstray := padded_msg_bytes_stray (fun _ => 0) hnul hshort
    (Block.fill MESSAGE_LENGTH 0) (fun n => Block.fill n 0)
  refine ⟨encoded_msg, henc, hlen, hstray, ?_⟩
  intro h
  obtain ⟨-, b, hb⟩ := h
  rw [hstray] at hb
  cases hb

end AnonyChat
