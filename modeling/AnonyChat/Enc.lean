import AnonyChat.Base64

/-! # Encryption and the wire format (`enc.c`)

OpenSSL is not part of the repository: its calls are the fields of `EVP`, each a
function of the arguments it is given, the cipher context included.  A context
stays what the last call on it made it, so a decryption that returns early leaves
it dirty for the next one.

An encrypted message travels as three Base64 fields separated by spaces: the
ciphertext with the byte stored after it, the sealed key and the IV.  Text after
the third field is ignored by the decoder; `parse_str_encrypted_msg_of_str` is
the round trip of the format.
-/
namespace AnonyChat
open CString

/-- How a client process dies instead of returning from a call. -/
inductive Fault
  /-- A NULL pointer is read or written. -/
  | null_pointer
  /-- A string function runs past a buffer that holds no terminator. -/
  | unterminated
  /-- A block is used and freed again after it was freed. -/
  | double_free
  deriving DecidableEq, Repr

/-- The OpenSSL calls of `enc.c`.  A `none` or `false` result is the return value
0; `Seed` is what the call draws from OpenSSL's random generator. -/
structure EVP where
  PubKey : Type
  PrivKey : Type
  Ctx : Type
  Seed : Type
  /-- The sealed key and the IV of a new message. -/
  EVP_SealInit : Ctx → Seed → PubKey → Option (List UInt8 × List UInt8) × Ctx
  EVP_SealUpdate : Ctx → List UInt8 → Option (List UInt8) × Ctx
  EVP_SealFinal : Ctx → Option (List UInt8) × Ctx
  EVP_OpenInit : Ctx → List UInt8 → List UInt8 → PrivKey → Bool × Ctx
  /-- The bytes at the input pointer and the length handed over with it. -/
  EVP_OpenUpdate : Ctx → List UInt8 → Int → Option (List UInt8) × Ctx
  EVP_OpenFinal : Ctx → Option (List UInt8) × Ctx
  EVP_CIPHER_CTX_cleanup : Ctx → Ctx

/-- `rsa_ctx_o`: the context of each direction. -/
structure rsa_ctx_o (evp : EVP) where
  rsa_encrypt_ctx : evp.Ctx
  rsa_decrypt_ctx : evp.Ctx

/-- `message_encrypted_o`; each pointer field is the bytes stored at it. -/
structure message_encrypted_o where
  encrypted_msg : List UInt8
  encrypted_key : List UInt8
  init_vector : List UInt8
  encrypted_msg_len : Int
  encrypted_key_len : Int
  init_vector_len : Int
  deriving DecidableEq, Repr

/-- The IV length OpenSSL reserves. -/
def EVP_MAX_IV_LENGTH : Int := 16

section Calls
variable (evp : EVP)

/-- `client_encrypt_msg`: the encrypted message or the error code, and the
encryption context as the calls left it.  The terminator is encrypted too. -/
def client_encrypt_msg (ctx : evp.Ctx) (msg : Str) (public_key : evp.PubKey) (seed : evp.Seed) :
    Except Nat message_encrypted_o × evp.Ctx :=
  match evp.EVP_SealInit ctx seed public_key with
  | (none, ctx) => (.error 2, ctx)
  | (some (encrypted_key, init_vector), ctx) =>
    match evp.EVP_SealUpdate ctx (msg ++ [0]) with
    | (none, ctx) => (.error 3, ctx)
    | (some block, ctx) =>
      match evp.EVP_SealFinal ctx with
      | (none, ctx) => (.error 4, ctx)
      | (some last, ctx) =>
        (.ok { encrypted_msg := block ++ last
               encrypted_key := encrypted_key
               init_vector := init_vector
               encrypted_msg_len := (block ++ last).length
               encrypted_key_len := encrypted_key.length
               init_vector_len := EVP_MAX_IV_LENGTH },
          evp.EVP_CIPHER_CTX_cleanup ctx)

/-- `client_decrypt_msg`: the decrypted string or NULL, and the decryption
context as the calls left it.  The output buffer is zeroed first, so its string
ends at the first zero byte written or after the last byte. -/
def client_decrypt_msg (ctx : evp.Ctx) (msg : message_encrypted_o) (private_key : evp.PrivKey) :
    Option Str × evp.Ctx :=
  match evp.EVP_OpenInit ctx msg.encrypted_key msg.init_vector private_key with
  | (false, ctx) => (none, ctx)
  | (true, ctx) =>
    match evp.EVP_OpenUpdate ctx (msg.encrypted_msg.take msg.encrypted_msg_len.toNat)
        msg.encrypted_msg_len with
    | (none, ctx) => (none, ctx)
    | (some block, ctx) =>
      match evp.EVP_OpenFinal ctx with
      | (none, ctx) => (none, ctx)
      | (some last, ctx) => (some (cstr (block ++ last)), evp.EVP_CIPHER_CTX_cleanup ctx)

end Calls

/-- The separator of the three fields. -/
def space : Str := [32]

/-- `parse_encrypted_msg_str`: the size it allocates and returns, and the string
it builds there.  It encodes `encrypted_msg_len + 1` bytes of the ciphertext
buffer; `past` is the byte stored right after the ciphertext. -/
def parse_encrypted_msg_str (encrypted_msg : message_encrypted_o) (past : UInt8) : Int × Str :=
  let encoded_len := Base64encode_len encrypted_msg.encrypted_msg_len
    + Base64encode_len encrypted_msg.encrypted_key_len
    + Base64encode_len encrypted_msg.init_vector_len + 3
  let tmp := Base64encode ((encrypted_msg.encrypted_msg ++ [past]).take
    (encrypted_msg.encrypted_msg_len + 1).toNat)
  let dest := strncat tmp space 2
  let tmp := Base64encode (encrypted_msg.encrypted_key.take encrypted_msg.encrypted_key_len.toNat)
  let dest := strncat (strncat dest tmp (tmp.length + 2)) space 2
  let tmp := Base64encode (encrypted_msg.init_vector.take encrypted_msg.init_vector_len.toNat)
  let dest := strncat dest tmp (tmp.length + 2)
  (encoded_len, dest)

/-- A token handed to `Base64decode_len` and `Base64decode`: the bytes and the
returned length.  Neither function checks for the NULL of a missing token. -/
def decode_token : Option Str → Except Fault (List UInt8 × Int)
  | none => .error .null_pointer
  | some tok => .ok (Base64decode tok, Base64decode_ret tok)

/-- `parse_str_encrypted_msg`; it returns 1 whenever it returns. -/
def parse_str_encrypted_msg (msg : Str) : Except Fault message_encrypted_o := do
  let (tok, rest) := strtok_r msg space
  let (encrypted_msg, encrypted_msg_len) ← decode_token tok
  let (tok, rest) := strtok_r rest space
  let (encrypted_key, encrypted_key_len) ← decode_token tok
  let (tok, _) := strtok_r rest space
  let (init_vector, init_vector_len) ← decode_token tok
  return { encrypted_msg, encrypted_key, init_vector,
           encrypted_msg_len, encrypted_key_len, init_vector_len }

/-- The value `parse_str_encrypted_msg` returns. -/
def parse_str_encrypted_msg_ret (msg : Str) : Except Fault Int :=
  (parse_str_encrypted_msg msg).map fun _ => 1

section Calls
variable (evp : EVP)

/-- `msg_encrypt_encode`: the encoded string, or `none` for NULL. -/
def msg_encrypt_encode (ctx : evp.Ctx) (msg : Str) (public_key : evp.PubKey) (seed : evp.Seed)
    (past : UInt8) : Option Str × evp.Ctx :=
  match client_encrypt_msg evp ctx msg public_key seed with
  | (.error _, ctx) => (none, ctx)
  | (.ok encrypted_msg, ctx) =>
    let (ret, encoded_msg) := parse_encrypted_msg_str encrypted_msg past
    if ret = 0 then (none, ctx) else (some encoded_msg, ctx)

/-- `msg_decode_decrypt`: the decrypted string or NULL, and the decryption
context.  The extra byte of the first field is taken off its length. -/
def msg_decode_decrypt (ctx : evp.Ctx) (msg : Str) (private_key : evp.PrivKey) :
    Except Fault (Option Str × evp.Ctx) := do
  let encrypted_msg ← parse_str_encrypted_msg msg
  return client_decrypt_msg evp ctx
    { encrypted_msg with encrypted_msg_len := encrypted_msg.encrypted_msg_len - 1 } private_key

/-- What OpenSSL documents of a key pair: `EVP_Open*` with the private key gives
back the plaintext of `EVP_Seal*` with the public key, from whatever context it
starts; the sealed key is not empty, and the IV of AES-256-CBC has 16 bytes. -/
def KeyPair (public_key : evp.PubKey) (private_key : evp.PrivKey) : Prop :=
  ∀ ctx ctx₁ ctx₂ ctx₃ seed plain ek iv block last,
    evp.EVP_SealInit ctx seed public_key = (some (ek, iv), ctx₁) →
    evp.EVP_SealUpdate ctx₁ plain = (some block, ctx₂) →
    evp.EVP_SealFinal ctx₂ = (some last, ctx₃) →
    ek ≠ [] ∧ iv.length = 16 ∧
      ∀ dctx, ∃ dctx₁ dctx₂ dctx₃ p q,
        evp.EVP_OpenInit dctx ek iv private_key = (true, dctx₁) ∧
        evp.EVP_OpenUpdate dctx₁ (block ++ last) (block ++ last).length = (some p, dctx₂) ∧
        evp.EVP_OpenFinal dctx₂ = (some q, dctx₃) ∧ p ++ q = plain

end Calls

/-! ### A concrete instance

The calls with the identity as block cipher, and the blocks and the padding of
AES-256-CBC around it.  A message is cut into blocks of 16, the last one filled up
with its number of missing bytes; decryption holds the last block back until it
can check that filling.  A private key opens what the equal public key sealed. -/

/-- Whole blocks go out; the rest waits for `block_seal_final`. -/
def block_seal_update (pending plain : List UInt8) : Option (List UInt8) × List UInt8 :=
  let n := (pending ++ plain).length / 16 * 16
  (some ((pending ++ plain).take n), (pending ++ plain).drop n)

/-- The last block, filled up. -/
def block_seal_final (pending : List UInt8) : Option (List UInt8) × List UInt8 :=
  let missing := 16 - pending.length
  (some (pending ++ List.replicate missing (UInt8.ofNat missing)), [])

/-- Whole blocks go out, the last one held back. -/
def block_open_update (pending bytes : List UInt8) (inl : Int) :
    Option (List UInt8) × List UInt8 :=
  let n := ((pending ++ bytes).length - 1) / 16 * 16
  if inl < 0 then (none, pending)
  else (some ((pending ++ bytes).take n), (pending ++ bytes).drop n)

/-- The block held back, without its filling. -/
def block_open_final (pending : List UInt8) : Option (List UInt8) × List UInt8 :=
  let missing := (pending.getLast?.getD 0).toNat
  if pending.length = 16 ∧ 1 ≤ missing ∧ missing ≤ 16 then (some (pending.take (16 - missing)), [])
  else (none, pending)

/-- The instance of `EVP` made of these calls. -/
def block_evp : EVP where
  PubKey := UInt8
  PrivKey := UInt8
  Ctx := List UInt8
  Seed := UInt8
  EVP_SealInit _ seed public_key := (some ([public_key], List.replicate 16 seed), [])
  EVP_SealUpdate := block_seal_update
  EVP_SealFinal := block_seal_final
  EVP_OpenInit _ ek iv private_key := (ek = [private_key] ∧ 16 ≤ iv.length, [])
  EVP_OpenUpdate := block_open_update
  EVP_OpenFinal := block_open_final
  EVP_CIPHER_CTX_cleanup _ := []

/-- The bytes that fill up the last block of `plain`. -/
def fill (plain : List UInt8) : List UInt8 :=
  List.replicate (16 - plain.length % 16) (UInt8.ofNat (16 - plain.length % 16))

theorem fill_length (plain : List UInt8) : (fill plain).length = 16 - plain.length % 16 :=
  List.length_replicate

/-- The full blocks of a filled message end where those of the message do. -/
theorem filled_blocks (plain : List UInt8) :
    ((plain ++ fill plain).length - 1) / 16 * 16 = plain.length / 16 * 16 := by
  rw [List.length_append, fill_length]
  omega

/-- The block held back says how many of its bytes are filling. -/
theorem fill_missing (plain : List UInt8) :
    ((plain.drop (plain.length / 16 * 16) ++ fill plain).getLast?.getD 0).toNat =
      16 - plain.length % 16 := by
  have hne : (16 - plain.length % 16) ≠ 0 := by omega
  simp only [fill, List.getLast?_append, List.getLast?_replicate, hne, if_false, Option.some_or,
    Option.getD_some, UInt8.toNat_ofNat']
  omega

theorem block_open_final_fill (plain : List UInt8) :
    block_open_final (plain.drop (plain.length / 16 * 16) ++ fill plain) =
      (some (plain.drop (plain.length / 16 * 16)), []) := by
  have hrest : (plain.drop (plain.length / 16 * 16)).length = plain.length % 16 := by
    rw [List.length_drop]
    omega
  have hlen : (plain.drop (plain.length / 16 * 16) ++ fill plain).length = 16 := by
    rw [List.length_append, hrest, fill_length]
    omega
  have htake : (plain.drop (plain.length / 16 * 16) ++ fill plain).take
      (16 - (16 - plain.length % 16)) = plain.drop (plain.length / 16 * 16) := by
    rw [show 16 - (16 - plain.length % 16) = (plain.drop (plain.length / 16 * 16)).length by omega,
      List.take_left]
  rw [block_open_final]
  simp only [fill_missing, hlen, htake]
  exact if_pos ⟨trivial, by omega, by omega⟩

theorem block_open_update_fill (plain : List UInt8) :
    block_open_update [] (plain ++ fill plain) (plain ++ fill plain).length =
      (some (plain.take (plain.length / 16 * 16)),
        plain.drop (plain.length / 16 * 16) ++ fill plain) := by
  have hnonneg : ¬ ((plain ++ fill plain).length : Int) < 0 := by omega
  simp only [block_open_update, hnonneg, if_false, List.nil_append]
  rw [filled_blocks, List.drop_append_of_le_length (by omega),
    List.take_append_of_le_length (by omega)]

theorem block_seal_final_fill (plain : List UInt8) :
    block_seal_final (plain.drop (plain.length / 16 * 16)) =
      (some (plain.drop (plain.length / 16 * 16) ++ fill plain), []) := by
  have hmod : plain.length - plain.length / 16 * 16 = plain.length % 16 := by omega
  simp only [block_seal_final, List.length_drop, hmod, fill]

/-- `KeyPair` can be met: equal keys of `block_evp` are a pair. -/
theorem block_evp_keyPair (key : UInt8) : KeyPair block_evp key key := by
  intro ctx ctx₁ ctx₂ ctx₃ (seed : UInt8) plain ek iv block last hinit hupdate hfinal
  obtain ⟨hsome, hctx₁⟩ := Prod.mk.inj hinit
  obtain ⟨rfl, rfl⟩ := Prod.mk.inj (Option.some.inj hsome)
  subst hctx₁
  obtain ⟨hblock, hctx₂⟩ := Prod.mk.inj hupdate
  subst hctx₂
  replace hblock := Option.some.inj hblock
  obtain ⟨hlast, -⟩ := Prod.mk.inj ((block_seal_final_fill plain).symm.trans hfinal)
  replace hlast := Option.some.inj hlast
  have hsealed : block ++ last = plain ++ fill plain := by
    rw [← hblock, ← hlast, ← List.append_assoc]
    exact congrArg (· ++ fill plain) (List.take_append_drop _ _)
  refine ⟨List.cons_ne_nil _ _, List.length_replicate, fun dctx => ?_⟩
  refine ⟨[], plain.drop (plain.length / 16 * 16) ++ fill plain, [],
    plain.take (plain.length / 16 * 16), plain.drop (plain.length / 16 * 16), ?_, ?_, ?_, ?_⟩
  · exact congrArg (·, []) (decide_eq_true ⟨rfl, Nat.le_of_eq List.length_replicate.symm⟩)
  · rw [hsealed]
    exact block_open_update_fill plain
  · exact block_open_final_fill plain
  · exact List.take_append_drop _ _

/-! ## The wire format -/

/-- A string of three fields, each a Base64 encoding, followed by nothing or by
text that a space separates from them. -/
def wire (m k v : List UInt8) (suffix : Str) : Str :=
  Base64encode m ++ 32 :: (Base64encode k ++ 32 :: (Base64encode v ++ suffix))

/-- Text the third field can be followed by. -/
def Separated (suffix : Str) : Prop := suffix = [] ∨ ∃ rest, suffix = 32 :: rest

theorem parse_encrypted_msg_str_eq_wire {m : message_encrypted_o}
    (hm : m.encrypted_msg_len = m.encrypted_msg.length)
    (hk : m.encrypted_key_len = m.encrypted_key.length)
    (hv : m.init_vector_len = m.init_vector.length) (past : UInt8) :
    (parse_encrypted_msg_str m past).2 =
      wire (m.encrypted_msg ++ [past]) m.encrypted_key m.init_vector [] := by
  have hlen : (m.encrypted_msg_len + 1).toNat = (m.encrypted_msg ++ [past]).length := by
    rw [hm, List.length_append]
    simp
  have htake : ∀ (l : List UInt8) (n : Int), n = l.length → l.take n.toNat = l := by
    intro l n hn
    rw [hn]
    simp
  simp only [parse_encrypted_msg_str, hlen, List.take_length, htake _ _ hk, htake _ _ hv]
  rw [strncat_of_le (Nat.le_add_right _ 2), strncat_of_le (Nat.le_add_right _ 2)]
  simp [strncat, space, wire]

/-- A field of the format is one token. -/
theorem strtok_r_field {bytes : List UInt8} (hne : bytes ≠ []) {suffix : Str}
    (hs : Separated suffix) :
    ∃ rest, strtok_r (Base64encode bytes ++ suffix) space = (some (Base64encode bytes), rest) := by
  have htok : ∀ c ∈ Base64encode bytes, c ∉ space := by
    intro c hc
    simpa [space] using (Base64encode_plain hc).2
  rcases hs with rfl | ⟨rest, rfl⟩
  · exact ⟨[], by rw [List.append_nil]; exact strtok_r_last (Base64encode_ne_nil hne) htok⟩
  · exact ⟨rest, strtok_r_token (Base64encode_ne_nil hne) htok (by simp [space]) rest⟩

theorem strtok_r_field_space {bytes : List UInt8} (hne : bytes ≠ []) (rest : Str) :
    strtok_r (Base64encode bytes ++ 32 :: rest) space = (some (Base64encode bytes), rest) := by
  refine strtok_r_token (Base64encode_ne_nil hne) ?_ (by simp [space]) rest
  intro c hc
  simpa [space] using (Base64encode_plain hc).2

/-- **The wire format round trips**: the decoder returns the three byte strings,
whatever text a space separates from the third field. -/
theorem parse_str_encrypted_msg_wire {m k v : List UInt8} (hm : m ≠ []) (hk : k ≠ []) (hv : v ≠ [])
    {suffix : Str} (hs : Separated suffix) :
    parse_str_encrypted_msg (wire m k v suffix) = .ok
      { encrypted_msg := m, encrypted_key := k, init_vector := v
        encrypted_msg_len := m.length, encrypted_key_len := k.length
        init_vector_len := v.length } := by
  have hnil : Stops [] := by simp [Stops]
  have hdec : ∀ bytes : List UInt8, Base64decode (Base64encode bytes) = bytes := by
    intro bytes
    simpa using Base64decode_encode bytes hnil
  obtain ⟨rest, hrest⟩ := strtok_r_field hv hs
  rw [parse_str_encrypted_msg, wire]
  simp only [strtok_r_field_space hm, strtok_r_field_space hk, hrest, decode_token,
    Base64decode_ret_eq, hdec]
  rfl

/-- The string built from a ciphertext `m`, the byte stored after it, a sealed key
and an IV decodes to these fields, the extra byte at the end of the first. -/
theorem parse_str_encrypted_msg_of_str (m : List UInt8) {k v : List UInt8} (hk : k ≠ [])
    (hv : v ≠ []) (past : UInt8) {suffix : Str} (hs : Separated suffix) :
    parse_str_encrypted_msg_ret ((parse_encrypted_msg_str
      { encrypted_msg := m, encrypted_key := k, init_vector := v
        encrypted_msg_len := m.length, encrypted_key_len := k.length
        init_vector_len := v.length } past).2 ++ suffix) = .ok 1 ∧
    parse_str_encrypted_msg ((parse_encrypted_msg_str
      { encrypted_msg := m, encrypted_key := k, init_vector := v
        encrypted_msg_len := m.length, encrypted_key_len := k.length
        init_vector_len := v.length } past).2 ++ suffix) = .ok
      { encrypted_msg := m ++ [past], encrypted_key := k, init_vector := v
        encrypted_msg_len := m.length + 1, encrypted_key_len := k.length
        init_vector_len := v.length } := by
  have hwire : wire (m ++ [past]) k v [] ++ suffix = wire (m ++ [past]) k v suffix := by
    simp [wire]
  have hm : m ++ [past] ≠ [] := by simp
  have hlen : ((m ++ [past]).length : Int) = m.length + 1 := by simp
  rw [parse_encrypted_msg_str_eq_wire rfl rfl rfl, hwire, parse_str_encrypted_msg_ret,
    parse_str_encrypted_msg_wire hm hk hv hs, hlen]
  exact ⟨rfl, rfl⟩

/-- A ciphertext of one byte, a sealed key with a byte of 128 or more, and text
after the fields. -/
theorem parse_str_encrypted_msg_of_str_example :
    parse_str_encrypted_msg_ret ((parse_encrypted_msg_str
      { encrypted_msg := [7], encrypted_key := [200, 0], init_vector := [1, 2, 255]
        encrypted_msg_len := 1, encrypted_key_len := 2, init_vector_len := 3 } 129).2
      ++ [32, 65]) = .ok 1 ∧
    parse_str_encrypted_msg ((parse_encrypted_msg_str
      { encrypted_msg := [7], encrypted_key := [200, 0], init_vector := [1, 2, 255]
        encrypted_msg_len := 1, encrypted_key_len := 2, init_vector_len := 3 } 129).2
      ++ [32, 65]) = .ok
      { encrypted_msg := [7, 129], encrypted_key := [200, 0], init_vector := [1, 2, 255]
        encrypted_msg_len := 2, encrypted_key_len := 2, init_vector_len := 3 } :=
  parse_str_encrypted_msg_of_str [7] (by decide) (by decide) 129 (Or.inr ⟨[65], rfl⟩)

end AnonyChat
