import AnonyChat.Enc

/-! # Decoding what a peer sends (`parse_str_encrypted_msg`)

The decoder never returns 0.  It asks neither whether a token is there nor what
came out of one, so a string of any shape is either fatal (`null_pointer`) or goes
on to `client_decrypt_msg`.  `parse_str_encrypted_msg_eq` is the function in terms
of the tokens of its string, and `decodesSafely_iff` the strings for which decoding
does what its caller relies on.
-/
namespace AnonyChat
open CString

/-- The record of the bytes decoded from three tokens. -/
def decoded_fields (msg key iv : Str) : message_encrypted_o where
  encrypted_msg := Base64decode msg
  encrypted_key := Base64decode key
  init_vector := Base64decode iv
  encrypted_msg_len := (Base64decode msg).length
  encrypted_key_len := (Base64decode key).length
  init_vector_len := (Base64decode iv).length

/-- The first three tokens are decoded; without them a NULL pointer is read. -/
theorem parse_str_encrypted_msg_eq (s : Str) :
    parse_str_encrypted_msg s =
      match tokens s space with
      | msg :: key :: iv :: _ => .ok (decoded_fields msg key iv)
      | _ => .error .null_pointer := by
  obtain ⟨h₁, ht₁⟩ := tokens_strtok_r s space
  obtain ⟨h₂, ht₂⟩ := tokens_strtok_r (strtok_r s space).2 space
  obtain ⟨h₃, -⟩ := tokens_strtok_r (strtok_r (strtok_r s space).2 space).2 space
  rw [ht₁] at h₂ ht₂
  rw [ht₂] at h₃
  simp only [parse_str_encrypted_msg, h₁, h₂, h₃]
  rcases tokens s space with _ | ⟨msg, _ | ⟨key, _ | ⟨iv, rest⟩⟩⟩
  · rfl
  · rfl
  · rfl
  · simp only [List.head?_cons, List.tail_cons, decode_token, Base64decode_ret_eq]
    rfl

/-- What `msg_decode_decrypt` hands to `client_decrypt_msg`. -/
def decrypt_call (s : Str) : Except Fault message_encrypted_o :=
  (parse_str_encrypted_msg s).map fun m => { m with encrypted_msg_len := m.encrypted_msg_len - 1 }

theorem msg_decode_decrypt_eq (evp : EVP) (ctx : evp.Ctx) (s : Str) (private_key : evp.PrivKey) :
    msg_decode_decrypt evp ctx s private_key =
      (decrypt_call s).map fun m => client_decrypt_msg evp ctx m private_key := by
  cases h : parse_str_encrypted_msg s with
  | error f => simp [msg_decode_decrypt, decrypt_call, h, bind, Except.bind, Except.map]
  | ok m => simp [msg_decode_decrypt, decrypt_call, h, bind, Except.bind, Except.map, pure,
      Except.pure]

/-- Decoding succeeds with the first three tokens, or is refused and nothing is
decrypted; and whatever is decrypted has a length that is not negative and an IV
of the 16 bytes `EVP_OpenInit` reads. -/
def DecodesSafely (evp : EVP) (ctx : evp.Ctx) (s : Str) (private_key : evp.PrivKey) : Prop :=
  ((parse_str_encrypted_msg_ret s = .ok 1 ∧ ∃ msg key iv rest,
      tokens s space = msg :: key :: iv :: rest ∧
      parse_str_encrypted_msg s = .ok (decoded_fields msg key iv)) ∨
    (parse_str_encrypted_msg_ret s = .ok 0 ∧
      ∃ ctx', msg_decode_decrypt evp ctx s private_key = .ok (none, ctx'))) ∧
  ∀ m, decrypt_call s = .ok m → 0 ≤ m.encrypted_msg_len ∧ 16 ≤ m.init_vector.length

/-- The string has three tokens; the first starts with two characters of the
alphabet, the third with 22. -/
def Decodable (s : Str) : Prop :=
  ∃ msg key iv rest, tokens s space = msg :: key :: iv :: rest ∧
    2 ≤ (coded msg).length ∧ 22 ≤ (coded iv).length

theorem parse_str_encrypted_msg_ret_ne_zero (s : Str) :
    parse_str_encrypted_msg_ret s ≠ .ok 0 := by
  rw [parse_str_encrypted_msg_ret]
  cases parse_str_encrypted_msg s with
  | error f =>
    intro h
    cases h
  | ok m =>
    intro h
    cases h

theorem decrypt_call_of_tokens {s msg key iv : Str} {rest : List Str}
    (h : tokens s space = msg :: key :: iv :: rest) :
    decrypt_call s = .ok { decoded_fields msg key iv with
      encrypted_msg_len := (Base64decode msg).length - 1 } := by
  rw [decrypt_call, parse_str_encrypted_msg_eq, h]
  rfl

/-- **Decoding is safe exactly on the decodable strings.** -/
theorem decodesSafely_iff (evp : EVP) (ctx : evp.Ctx) (s : Str) (private_key : evp.PrivKey) :
    DecodesSafely evp ctx s private_key ↔ Decodable s := by
  constructor
  · intro h
    obtain ⟨⟨-, msg, key, iv, rest, htok, -⟩ | ⟨hzero, -⟩, hsafe⟩ := h
    · obtain ⟨hlen, hiv⟩ := hsafe _ (decrypt_call_of_tokens htok)
      simp only [decoded_fields, Base64decode_length] at hlen hiv
      exact ⟨msg, key, iv, rest, htok, by omega, by omega⟩
    · exact absurd hzero (parse_str_encrypted_msg_ret_ne_zero s)
  · intro h
    obtain ⟨msg, key, iv, rest, htok, hmsg, hiv⟩ := h
    have hparse : parse_str_encrypted_msg s = .ok (decoded_fields msg key iv) := by
      rw [parse_str_encrypted_msg_eq, htok]
    refine ⟨Or.inl ⟨?_, msg, key, iv, rest, htok, hparse⟩, ?_⟩
    · rw [parse_str_encrypted_msg_ret, hparse]
      rfl
    · intro m hm
      rw [decrypt_call_of_tokens htok] at hm
      cases hm
      simp only [decoded_fields, Base64decode_length]
      omega

/-- `a a` is fatal; of `a a a` a ciphertext of length -1 and an IV of no bytes are
decrypted. -/
theorem decodesSafely_fails :
    ¬ DecodesSafely block_evp [] [97, 32, 97] (1 : UInt8) ∧
      msg_decode_decrypt block_evp [] [97, 32, 97] (1 : UInt8) = .error .null_pointer ∧
      ∃ m, decrypt_call [97, 32, 97, 32, 97] = .ok m ∧
        m.encrypted_msg_len = -1 ∧ m.init_vector = [] := by
  have hparse : parse_str_encrypted_msg [97, 32, 97] = .error .null_pointer := rfl
  refine ⟨?_, ?_, _, rfl, rfl, rfl⟩
  · intro h
    obtain ⟨⟨hone, -⟩ | ⟨hzero, -⟩, -⟩ := h
    · rw [parse_str_encrypted_msg_ret, hparse] at hone
      cases hone
    · exact parse_str_encrypted_msg_ret_ne_zero _ hzero
  · simp only [msg_decode_decrypt, hparse]
    rfl

end AnonyChat
