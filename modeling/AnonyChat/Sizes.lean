import AnonyChat.RoundTrip

/-! # Sizes of an encrypted message

Three sizes are fixed before the bytes they bound are known: `encoded_len` of
`parse_encrypted_msg_str`, the ciphertext block of `client_encrypt_msg`, and
`MESSAGE_LENGTH`.  The first two leave out the byte behind the ciphertext that is
encoded with it, so each is one byte short for one residue of the length; the
third bounds the body of a message, and the input line has no such bound.

Sizes are `int`s, and an overflow leaves a size without a value.
-/
namespace AnonyChat
open CString

/-! ## `int` arithmetic -/

/-- `INT_MAX`. -/
def INT_MAX : Int := 2147483647

/-- The value of an `int` expression, `none` when it overflows. -/
def int (x : Int) : Option Int :=
  if -INT_MAX - 1 ≤ x ∧ x ≤ INT_MAX then some x else none

theorem int_eq_some_iff {x y : Int} :
    int x = some y ↔ y = x ∧ -INT_MAX - 1 ≤ x ∧ x ≤ INT_MAX := by
  unfold int
  split
  · rename_i h
    simp [h, eq_comm]
  · rename_i h
    constructor
    · intro hnone
      cases hnone
    · intro hsome
      obtain ⟨-, hrange⟩ := hsome
      exact absurd hrange h

/-! ## The encoded string -/

/-- `Base64encode_len`, with its overflows. -/
def Base64encode_len_int (len : Int) : Option Int := do
  let n ← int (len + 2)
  let n ← int (n / 3 * 4)
  int (n + 1)

/-- `encoded_len` of `parse_encrypted_msg_str`, with its overflows. -/
def encoded_len_int (m : message_encrypted_o) : Option Int := do
  let encoded_len ← Base64encode_len_int m.encrypted_msg_len
  let len ← Base64encode_len_int m.encrypted_key_len
  let encoded_len ← int (encoded_len + len)
  let len ← Base64encode_len_int m.init_vector_len
  let encoded_len ← int (encoded_len + len)
  int (encoded_len + 3)

/-- The strings `Base64encode` writes to `tmp`, one after the other. -/
def encoded_fields (m : message_encrypted_o) (past : UInt8) : List Str :=
  [Base64encode ((m.encrypted_msg ++ [past]).take (m.encrypted_msg_len + 1).toNat),
    Base64encode (m.encrypted_key.take m.encrypted_key_len.toNat),
    Base64encode (m.init_vector.take m.init_vector_len.toNat)]

/-- `parse_encrypted_msg_str` stays in the two blocks of `encoded_len` bytes it
allocates: the string it builds and each string in `tmp` fit with a terminator. -/
def EncodedFits (m : message_encrypted_o) (past : UInt8) : Prop :=
  ∃ encoded_len, encoded_len_int m = some encoded_len ∧
    ((parse_encrypted_msg_str m past).2.length + 1 : Int) ≤ encoded_len ∧
    ∀ tmp ∈ encoded_fields m past, (tmp.length + 1 : Int) ≤ encoded_len

theorem Base64encode_len_int_eq_some_iff {len : Nat} {n : Int} :
    Base64encode_len_int len = some n ↔ n = Base64encode_len len ∧ n ≤ INT_MAX := by
  simp only [Base64encode_len_int, Base64encode_len, Option.bind_eq_bind, Option.bind_eq_some_iff,
    int_eq_some_iff, INT_MAX]
  constructor
  · intro h
    obtain ⟨_, ⟨rfl, h₁⟩, _, ⟨rfl, h₂⟩, rfl, h₃⟩ := h
    exact ⟨rfl, h₃.2⟩
  · intro h
    obtain ⟨rfl, h⟩ := h
    exact ⟨_, ⟨rfl, by omega⟩, _, ⟨rfl, by omega⟩, rfl, by omega⟩

/-- The lengths of a message with these three fields. -/
def sealed_msg (m k v : List UInt8) : message_encrypted_o where
  encrypted_msg := m
  encrypted_key := k
  init_vector := v
  encrypted_msg_len := m.length
  encrypted_key_len := k.length
  init_vector_len := v.length

/-- The size that is computed is the one `parse_encrypted_msg_str` returns. -/
theorem encoded_len_int_eq_some_iff {m k v : List UInt8} {size : Int} (past : UInt8) :
    encoded_len_int (sealed_msg m k v) = some size ↔
      size = (parse_encrypted_msg_str (sealed_msg m k v) past).1 ∧ size ≤ INT_MAX := by
  simp only [encoded_len_int, sealed_msg, parse_encrypted_msg_str, Option.bind_eq_bind,
    Option.bind_eq_some_iff, Base64encode_len_int_eq_some_iff, int_eq_some_iff, Base64encode_len,
    INT_MAX]
  constructor
  · intro h
    obtain ⟨_, ⟨rfl, -⟩, _, ⟨rfl, -⟩, _, ⟨rfl, -⟩, _, ⟨rfl, -⟩, _, ⟨rfl, -⟩, rfl, -, h⟩ := h
    exact ⟨rfl, h⟩
  · intro h
    obtain ⟨rfl, h⟩ := h
    exact ⟨_, ⟨rfl, by omega⟩, _, ⟨rfl, by omega⟩, _, ⟨rfl, by omega⟩, _, ⟨rfl, by omega⟩,
      _, ⟨rfl, by omega⟩, rfl, by omega⟩

theorem encoded_len_eq (m k v : List UInt8) (past : UInt8) :
    (parse_encrypted_msg_str (sealed_msg m k v) past).1 =
      ((m.length + 2) / 3 * 4 + (k.length + 2) / 3 * 4 + (v.length + 2) / 3 * 4 + 6 : Nat) := by
  simp only [parse_encrypted_msg_str, sealed_msg, Base64encode_len]
  omega

theorem wire_length (m k v : List UInt8) :
    (wire m k v []).length =
      (m.length + 2) / 3 * 4 + (k.length + 2) / 3 * 4 + (v.length + 2) / 3 * 4 + 2 := by
  simp only [wire, List.length_append, List.length_cons, List.length_nil, Base64encode_length]
  omega

/-- The string holds the encoding of one byte more than its size counts. -/
theorem encoded_str_length (m k v : List UInt8) (past : UInt8) :
    (parse_encrypted_msg_str (sealed_msg m k v) past).2.length =
      (m.length + 3) / 3 * 4 + (k.length + 2) / 3 * 4 + (v.length + 2) / 3 * 4 + 2 := by
  rw [parse_encrypted_msg_str_eq_wire rfl rfl rfl, wire_length, List.length_append]
  rfl

theorem encoded_fields_sealed (m k v : List UInt8) (past : UInt8) :
    encoded_fields (sealed_msg m k v) past =
      [Base64encode (m ++ [past]), Base64encode k, Base64encode v] := by
  have hlen : ((m.length : Int) + 1).toNat = (m ++ [past]).length := by
    rw [List.length_append]
    simp
  simp only [encoded_fields, sealed_msg, hlen, List.take_length, Int.toNat_natCast]

/-- `tmp` is always large enough; the string itself only when the extra byte does
not start a group of three. -/
theorem encodedFits_iff (m k v : List UInt8) (past : UInt8) :
    EncodedFits (sealed_msg m k v) past ↔ m.length % 3 ≠ 0 ∧
      ((m.length + 2) / 3 * 4 + (k.length + 2) / 3 * 4 + (v.length + 2) / 3 * 4 + 6 : Nat)
        ≤ INT_MAX := by
  have hdest := encoded_str_length m k v past
  have hsize := encoded_len_eq m k v past
  constructor
  · intro h
    obtain ⟨size, hsome, hfits, -⟩ := h
    obtain ⟨rfl, hmax⟩ := (encoded_len_int_eq_some_iff past).mp hsome
    rw [hsize] at hfits hmax
    rw [hdest] at hfits
    exact ⟨by omega, hmax⟩
  · intro h
    obtain ⟨hmod, hmax⟩ := h
    refine ⟨_, (encoded_len_int_eq_some_iff past).mpr ⟨hsize.symm, hmax⟩, ?_, ?_⟩
    · rw [hdest]
      omega
    · rw [encoded_fields_sealed]
      intro tmp htmp
      simp only [List.mem_cons, List.not_mem_nil, or_false] at htmp
      rcases htmp with rfl | rfl | rfl
      · rw [Base64encode_length, List.length_append, List.length_singleton]
        omega
      · rw [Base64encode_length]
        omega
      · rw [Base64encode_length]
        omega

/-- The fields of a body of 32 characters: the terminator is written behind the block. -/
theorem encodedFits_fails_48 :
    encoded_len_int (sealed_msg (List.replicate 48 0) (List.replicate 512 0)
      (List.replicate 16 0)) = some 778 ∧
    (parse_encrypted_msg_str (sealed_msg (List.replicate 48 0) (List.replicate 512 0)
      (List.replicate 16 0)) 0).2.length + 1 = 779 ∧
    ¬ EncodedFits (sealed_msg (List.replicate 48 0) (List.replicate 512 0)
      (List.replicate 16 0)) 0 := by
  have hsize := encoded_len_eq (List.replicate 48 0) (List.replicate 512 0)
    (List.replicate 16 0) 0
  have hdest := encoded_str_length (List.replicate 48 0) (List.replicate 512 0)
    (List.replicate 16 0) 0
  simp only [List.length_replicate] at hsize hdest
  have hsome : encoded_len_int (sealed_msg (List.replicate 48 0) (List.replicate 512 0)
      (List.replicate 16 0)) = some 778 :=
    (encoded_len_int_eq_some_iff 0).mpr ⟨by rw [hsize]; rfl, by decide⟩
  refine ⟨hsome, by rw [hdest], ?_⟩
  intro h
  obtain ⟨size, hsize', hfits, -⟩ := h
  rw [hsome] at hsize'
  cases hsize'
  rw [hdest] at hfits
  omega

/-! ## The ciphertext block -/

/-- The size of the block `client_encrypt_msg` allocates for the ciphertext. -/
def encrypted_msg_size (msg : Str) : Option Int := do
  let msg_len ← int (msg.length + 1)
  int (msg_len + EVP_MAX_IV_LENGTH)

/-- The `encrypted_msg_len + 1` bytes that are encoded lie in that block. -/
def ReadFits (msg : Str) (m : message_encrypted_o) : Prop :=
  ∃ size, encrypted_msg_size msg = some size ∧ m.encrypted_msg_len + 1 ≤ size

/-- What OpenSSL documents of AES-256-CBC with padding: the two calls write whole
blocks of 16, one more than the plaintext fills. -/
def CipherLength (evp : EVP) : Prop :=
  ∀ ctx ctx₁ ctx₂ ctx₃ seed public_key plain ek iv block last,
    evp.EVP_SealInit ctx seed public_key = (some (ek, iv), ctx₁) →
    evp.EVP_SealUpdate ctx₁ plain = (some block, ctx₂) →
    evp.EVP_SealFinal ctx₂ = (some last, ctx₃) →
    (block ++ last).length = 16 * (plain.length / 16 + 1)

theorem block_evp_cipherLength : CipherLength block_evp := by
  intro ctx ctx₁ ctx₂ ctx₃ seed public_key plain ek iv block last hinit hupdate hfinal
  obtain ⟨-, hctx₁⟩ := Prod.mk.inj hinit
  subst hctx₁
  obtain ⟨hblock, hctx₂⟩ := Prod.mk.inj hupdate
  subst hctx₂
  replace hblock := Option.some.inj hblock
  obtain ⟨hlast, -⟩ := Prod.mk.inj ((block_seal_final_fill plain).symm.trans hfinal)
  replace hlast := Option.some.inj hlast
  rw [← hblock, ← hlast]
  simp only [List.nil_append, List.length_append, List.length_take, List.length_drop, fill_length]
  omega

section Block
variable {evp : EVP}

/-- The encoder reads behind the block exactly when the body and its terminator
are whole blocks: then the padding is a block of its own. -/
theorem readFits_iff (hcipher : CipherLength evp) {ctx ctx' : evp.Ctx} {msg : Str}
    {public_key : evp.PubKey} {seed : evp.Seed} {m : message_encrypted_o}
    (h : client_encrypt_msg evp ctx msg public_key seed = (.ok m, ctx')) :
    ReadFits msg m ↔ msg.length % 16 ≠ 15 ∧ (msg.length + 17 : Int) ≤ INT_MAX := by
  obtain ⟨ctx₁, ctx₂, ctx₃, ek, iv, block, last, hinit, hupdate, hfinal, rfl⟩ :=
    client_encrypt_msg_cases h
  have hblocks := hcipher _ _ _ _ _ _ _ _ _ _ _ hinit hupdate hfinal
  have hplain : (msg ++ [0]).length = msg.length + 1 := List.length_append
  rw [hplain] at hblocks
  simp only [ReadFits, encrypted_msg_size, Option.bind_eq_bind, Option.bind_eq_some_iff,
    int_eq_some_iff, EVP_MAX_IV_LENGTH, hblocks]
  constructor
  · intro h
    obtain ⟨_, ⟨_, ⟨rfl, -⟩, rfl, -, hmax⟩, hfits⟩ := h
    exact ⟨by omega, by omega⟩
  · intro h
    obtain ⟨hmod, hmax⟩ := h
    refine ⟨_, ⟨_, ⟨rfl, ?_⟩, rfl, ?_⟩, ?_⟩
    · simp only [INT_MAX] at hmax ⊢
      omega
    · simp only [INT_MAX] at hmax ⊢
      omega
    · omega

/-- A body of two characters is read inside its block. -/
theorem readFits_iff_hi :
    ReadFits [104, 105] (sealed_msg ([104, 105, 0] ++ List.replicate 13 13) [7]
      (List.replicate 16 0)) ↔
      [104, 105].length % 16 ≠ 15 ∧ (([104, 105].length : Nat) + 17 : Int) ≤ INT_MAX :=
  have h : client_encrypt_msg block_evp [] [104, 105] (7 : UInt8) (0 : UInt8) =
      (.ok (sealed_msg ([104, 105, 0] ++ List.replicate 13 13) [7] (List.replicate 16 0)), []) :=
    rfl
  readFits_iff block_evp_cipherLength h

/-- A body of 15 characters: 33 bytes are read of a block of 32. -/
theorem readFits_fails_15 :
    ∃ m ctx, client_encrypt_msg block_evp [] (List.replicate 15 97) (7 : UInt8) (0 : UInt8) =
        (.ok m, ctx) ∧
      encrypted_msg_size (List.replicate 15 97) = some 32 ∧ m.encrypted_msg_len + 1 = 33 ∧
      ¬ ReadFits (List.replicate 15 97) m := by
  refine ⟨_, _, rfl, rfl, rfl, ?_⟩
  intro h
  obtain ⟨size, hsize, hfits⟩ := h
  cases hsize
  exact absurd hfits (by decide)

end Block

/-! ## The message and the input line -/

/-- What `input_handle` passes on of a line `getline` returned: its last character
becomes the terminator, and the string ends at the first one. -/
def input_line (line : List UInt8) : Str := cstr line.dropLast

/-- What OpenSSL documents of `EVP_SealInit` for a key with a modulus of `size`
bytes: the sealed key has that size, and the IV of AES-256-CBC has 16 bytes. -/
def SealedLengths (evp : EVP) (public_key : evp.PubKey) (size : Nat) : Prop :=
  ∀ ctx seed ek iv ctx₁, evp.EVP_SealInit ctx seed public_key = (some (ek, iv), ctx₁) →
    ek.length = size ∧ iv.length = 16

section Message
variable {evp : EVP} {Conn : Type}

/-- The encoded message is shorter than `MESSAGE_LENGTH`, and the padded message
starts with all of it. -/
def MessageFits (s : ClientState evp Conn) (w : World evp) (input encoded_msg : Str) : Prop :=
  encoded_msg.length < MESSAGE_LENGTH ∧
    ∃ pad ctx, padded_input s w input = (.ok (some (encoded_msg ++ pad)), ctx)

/-- The padding of the cipher, the extra byte and the three encodings together. -/
theorem encoded_msg_length (hcipher : CipherLength evp) {ctx : evp.Ctx} {msg encoded_msg : Str}
    {public_key : evp.PubKey} {seed : evp.Seed} {past : UInt8} {size : Nat}
    (hkey : SealedLengths evp public_key size)
    (h : (msg_encrypt_encode evp ctx msg public_key seed past).1 = some encoded_msg) :
    encoded_msg.length =
      (16 * ((msg.length + 1) / 16 + 1) + 3) / 3 * 4 + (size + 2) / 3 * 4 + 26 := by
  obtain ⟨ctx₁, ctx₂, ctx₃, ek, iv, block, last, hinit, hupdate, hfinal, -, hwire⟩ :=
    msg_encrypt_encode_cases h
  obtain ⟨hek, hiv⟩ := hkey _ _ _ _ _ hinit
  have hblocks := hcipher _ _ _ _ _ _ _ _ _ _ _ hinit hupdate hfinal
  have hplain : (msg ++ [0]).length = msg.length + 1 := List.length_append
  rw [hplain] at hblocks
  have hsealed : (block ++ last ++ [past]).length = 16 * ((msg.length + 1) / 16 + 1) + 1 := by
    rw [List.length_append, hblocks]
    rfl
  rw [hwire hiv, wire_length, hsealed, hek, hiv]

theorem padded_input_of_encoded {s : ClientState evp Conn} {w : World evp}
    {input name msg encoded_msg : Str} {public_key : evp.PubKey}
    (hline : strchr input 58 = some (name, msg))
    (hlookup : s.public_key_hash_table name = some public_key)
    (henc : (msg_encrypt_encode evp s.rsa_encrypt_ctx.rsa_encrypt_ctx msg public_key w.seed
      w.past).1 = some encoded_msg) :
    (padded_input s w input).1 = (padded_msg encoded_msg w.rand).map some := by
  rcases he : msg_encrypt_encode evp s.rsa_encrypt_ctx.rsa_encrypt_ctx msg public_key w.seed w.past
    with ⟨o, ctx⟩
  rw [he] at henc
  cases henc
  simp only [padded_input, hline, hlookup, he]

theorem msg_encrypt_encode_of_seal {ctx ctx₁ ctx₂ ctx₃ : evp.Ctx} {msg : Str}
    {public_key : evp.PubKey} {seed : evp.Seed} {ek iv block last : List UInt8} (past : UInt8)
    (hinit : evp.EVP_SealInit ctx seed public_key = (some (ek, iv), ctx₁))
    (hupdate : evp.EVP_SealUpdate ctx₁ (msg ++ [0]) = (some block, ctx₂))
    (hfinal : evp.EVP_SealFinal ctx₂ = (some last, ctx₃)) :
    ∃ encoded_msg, (msg_encrypt_encode evp ctx msg public_key seed past).1 = some encoded_msg := by
  simp only [msg_encrypt_encode, client_encrypt_msg, hinit, hupdate, hfinal]
  rw [if_neg]
  · exact ⟨_, rfl⟩
  · simp only [parse_encrypted_msg_str, Base64encode_len, EVP_MAX_IV_LENGTH]
    omega

end Message

/-- `block_evp` with sealed keys as long as a modulus of 4096 bits. -/
def keysmith_evp : EVP :=
  { block_evp with
    EVP_SealInit := fun _ seed public_key =>
      (some (List.replicate 512 public_key, List.replicate 16 seed), []) }

theorem keysmith_evp_cipherLength : CipherLength keysmith_evp := by
  intro ctx ctx₁ ctx₂ ctx₃ (seed : UInt8) (public_key : UInt8) plain ek iv block last hinit
  obtain ⟨-, rfl⟩ := Prod.mk.inj hinit
  exact block_evp_cipherLength [] [] ctx₂ ctx₃ seed public_key plain _ _ block last rfl

theorem keysmith_evp_sealedLengths (public_key : UInt8) :
    SealedLengths keysmith_evp public_key 512 := by
  intro ctx (seed : UInt8) ek iv ctx₁ hinit
  obtain ⟨hsome, -⟩ := Prod.mk.inj hinit
  obtain ⟨rfl, rfl⟩ := Prod.mk.inj (Option.some.inj hsome)
  exact ⟨List.length_replicate, List.length_replicate⟩

/-- A client that knows one such key for every name. -/
def keysmith_client : ClientState keysmith_evp Nat where
  peer_list := []
  public_key_hash_table _ := some (7 : UInt8)
  message_hash_table := client_create_hash_table
  rsa_encrypt_ctx := ⟨[], []⟩
  private_key := (1 : UInt8)
  buffer _ := []
  fault := none

/-- Surroundings of that client. -/
def keysmith_world : World keysmith_evp where
  time := 0
  rand _ := 0
  seed := (0 : UInt8)
  past := 0
  malloc := 0
  freed _ := []

theorem keysmith_encodes (msg : Str) : ∃ encoded_msg,
    (msg_encrypt_encode keysmith_evp [] msg (7 : UInt8) (0 : UInt8) 0).1 = some encoded_msg :=
  have hinit : keysmith_evp.EVP_SealInit [] (0 : UInt8) (7 : UInt8) =
      (some (List.replicate 512 7, List.replicate 16 0), []) := rfl
  msg_encrypt_encode_of_seal 0 hinit rfl rfl

/-- A body of at most 462 characters, and no other, leaves its message complete. -/
theorem messageFits_iff {evp : EVP} {Conn : Type} (hcipher : CipherLength evp)
    {s : ClientState evp Conn} {w : World evp} {line : List UInt8} {name msg encoded_msg : Str}
    {public_key : evp.PubKey} (hline : strchr (input_line line) 58 = some (name, msg))
    (hlookup : s.public_key_hash_table name = some public_key)
    (hkey : SealedLengths evp public_key 512)
    (henc : (msg_encrypt_encode evp s.rsa_encrypt_ctx.rsa_encrypt_ctx msg public_key w.seed
      w.past).1 = some encoded_msg) :
    MessageFits s w (input_line line) encoded_msg ↔ msg.length ≤ 462 := by
  have hlen := encoded_msg_length hcipher hkey henc
  have hpad := padded_input_of_encoded hline hlookup henc
  constructor
  · intro h
    obtain ⟨hshort, -⟩ := h
    rw [hlen, MESSAGE_LENGTH] at hshort
    omega
  · intro hbody
    have hshort : encoded_msg.length < MESSAGE_LENGTH := by
      rw [hlen, MESSAGE_LENGTH]
      omega
    rw [padded_msg_eq_ok hshort] at hpad
    exact ⟨hshort, _, (padded_input s w (input_line line)).2, Prod.ext hpad rfl⟩

/-- The line `b:hi`. -/
theorem messageFits_iff_hi :
    ∃ encoded_msg, (msg_encrypt_encode keysmith_evp [] [104, 105] (7 : UInt8) (0 : UInt8) 0).1 =
        some encoded_msg ∧
      (MessageFits keysmith_client keysmith_world (input_line [98, 58, 104, 105, 10])
        encoded_msg ↔ [104, 105].length ≤ 462) := by
  obtain ⟨encoded_msg, henc⟩ := keysmith_encodes [104, 105]
  have hline : strchr (input_line [98, 58, 104, 105, 10]) 58 = some ([98], [104, 105]) :=
    rfl
  exact ⟨encoded_msg, henc, messageFits_iff keysmith_evp_cipherLength (s := keysmith_client)
    (w := keysmith_world) hline rfl (keysmith_evp_sealedLengths 7) henc⟩

/-- The line `b:` with a body of 463 characters: its padded message has no terminator. -/
theorem messageFits_fails_463 :
    ∃ encoded_msg, (msg_encrypt_encode keysmith_evp [] (List.replicate 463 97) (7 : UInt8)
        (0 : UInt8) 0).1 = some encoded_msg ∧ encoded_msg.length = 1354 ∧
      (padded_input keysmith_client keysmith_world
        (input_line ([98, 58] ++ List.replicate 463 97 ++ [10]))).1 = .error .unterminated ∧
      ¬ MessageFits keysmith_client keysmith_world
        (input_line ([98, 58] ++ List.replicate 463 97 ++ [10])) encoded_msg := by
  obtain ⟨encoded_msg, henc⟩ := keysmith_encodes (List.replicate 463 97)
  have hlen := encoded_msg_length keysmith_evp_cipherLength (keysmith_evp_sealedLengths 7) henc
  rw [List.length_replicate] at hlen
  have hlong : ¬ encoded_msg.length < MESSAGE_LENGTH := by
    rw [hlen, MESSAGE_LENGTH]
    omega
  have hnul : NulFree ([98, 58] ++ List.replicate 463 97) := by
    refine NulFree.append (by decide) fun c hc => ?_
    rw [List.eq_of_mem_replicate hc]
    decide
  have hline : strchr (input_line ([98, 58] ++ List.replicate 463 97 ++ [10])) 58 =
      some ([98], List.replicate 463 97) := by
    rw [input_line, List.dropLast_concat, cstr_of_nulFree hnul]
    exact strchr_append (s := [98]) (by decide) _
  have hpad := padded_input_of_encoded (s := keysmith_client) (w := keysmith_world) hline rfl henc
  rw [padded_msg, if_neg hlong] at hpad
  exact ⟨encoded_msg, henc, hlen, hpad, fun hfits => hlong hfits.1⟩

end AnonyChat
