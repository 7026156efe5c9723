import AnonyChat.ClientServer

/-! # From a typed line to the recipient's screen

`input_send_msg` encrypts the text after the first colon, encodes it, and pads the
result with a space and random characters to `MESSAGE_LENGTH`.  The recipient
decodes the whole padded string.  The padding is a fourth token, which the decoder
never reads; the extra byte the encoder puts behind the ciphertext is taken off
again before decryption.
-/
namespace AnonyChat
open CString

variable {evp : EVP} {Conn : Type}

/-! ## Padding -/

theorem str_rand_length (rand : Nat → Nat) (len : Nat) : (str_rand rand len).length = len := by
  simp [str_rand]

/-- The random characters run from `0` to `w`: none is a terminator. -/
theorem str_rand_nulFree (rand : Nat → Nat) (len : Nat) : NulFree (str_rand rand len) := by
  intro c hc
  obtain ⟨i, -, rfl⟩ := List.mem_map.mp hc
  intro h
  have := congrArg UInt8.toNat h
  rw [UInt8.toNat_ofNat'] at this
  simp at this
  omega

/-- The padded message is the encoding, a space and the random text. -/
theorem padded_msg_eq_ok {encoded_msg : Str} (h : encoded_msg.length < MESSAGE_LENGTH)
    (rand : Nat → Nat) :
    padded_msg encoded_msg rand =
      .ok (encoded_msg ++ 32 :: str_rand rand (MESSAGE_LENGTH - encoded_msg.length - 1)) := by
  simp only [padded_msg, if_pos h]
  have hspace : space.length ≤ 2 := by decide
  rw [strncat_of_le hspace,
    strncat_of_le (by rw [str_rand_length]; omega)]
  simp [space]

theorem padded_msg_length {encoded_msg padded : Str} {rand : Nat → Nat}
    (h : padded_msg encoded_msg rand = .ok padded) : padded.length = MESSAGE_LENGTH := by
  by_cases hlen : encoded_msg.length < MESSAGE_LENGTH
  · rw [padded_msg_eq_ok hlen] at h
    cases h
    rw [List.length_append, List.length_cons, str_rand_length]
    omega
  · rw [padded_msg, if_neg hlen] at h
    cases h

/-! ## The encoding of a message -/

theorem Base64encode_nulFree (bytes : List UInt8) : NulFree (Base64encode bytes) :=
  fun _ hc => (Base64encode_plain hc).1

theorem parse_encrypted_msg_str_nulFree (m : message_encrypted_o) (past : UInt8) :
    NulFree (parse_encrypted_msg_str m past).2 := by
  have hspace : NulFree space := by decide
  refine nulFree_strncat ?_ (Base64encode_nulFree _) _
  refine nulFree_strncat (nulFree_strncat ?_ (Base64encode_nulFree _) _) hspace _
  exact nulFree_strncat (Base64encode_nulFree _) hspace _

theorem wire_nulFree {m k v : List UInt8} : NulFree (wire m k v []) := by
  have hspace : ∀ {s : Str}, NulFree s → NulFree (32 :: s) := by
    intro s hs c hc
    rcases List.mem_cons.mp hc with rfl | hc
    · decide
    · exact hs c hc
  rw [wire, List.append_nil]
  exact (Base64encode_nulFree m).append
    (hspace ((Base64encode_nulFree k).append (hspace (Base64encode_nulFree v))))

/-- What a successful encryption is made of. -/
theorem client_encrypt_msg_cases {ctx ctx' : evp.Ctx} {msg : Str} {public_key : evp.PubKey}
    {seed : evp.Seed} {m : message_encrypted_o}
    (h : client_encrypt_msg evp ctx msg public_key seed = (.ok m, ctx')) :
    ∃ ctx₁ ctx₂ ctx₃ ek iv block last,
      evp.EVP_SealInit ctx seed public_key = (some (ek, iv), ctx₁) ∧
      evp.EVP_SealUpdate ctx₁ (msg ++ [0]) = (some block, ctx₂) ∧
      evp.EVP_SealFinal ctx₂ = (some last, ctx₃) ∧
      m = { encrypted_msg := block ++ last, encrypted_key := ek, init_vector := iv
            encrypted_msg_len := (block ++ last).length, encrypted_key_len := ek.length
            init_vector_len := EVP_MAX_IV_LENGTH } := by
  unfold client_encrypt_msg at h
  rcases hinit : evp.EVP_SealInit ctx seed public_key with ⟨_ | ⟨ek, iv⟩, ctx₁⟩
  · simp [hinit] at h
  rcases hupdate : evp.EVP_SealUpdate ctx₁ (msg ++ [0]) with ⟨_ | block, ctx₂⟩
  · simp [hinit, hupdate] at h
  rcases hfinal : evp.EVP_SealFinal ctx₂ with ⟨_ | last, ctx₃⟩
  · simp [hinit, hupdate, hfinal] at h
  simp only [hinit, hupdate, hfinal] at h
  cases h
  exact ⟨ctx₁, ctx₂, ctx₃, ek, iv, block, last, rfl, hupdate, hfinal, rfl⟩

/-- What a successful encoding is made of. -/
theorem msg_encrypt_encode_cases {public_key : evp.PubKey} {ctx : evp.Ctx} {msg encoded_msg : Str}
    {seed : evp.Seed} {past : UInt8}
    (h : (msg_encrypt_encode evp ctx msg public_key seed past).1 = some encoded_msg) :
    ∃ ctx₁ ctx₂ ctx₃ ek iv block last,
      evp.EVP_SealInit ctx seed public_key = (some (ek, iv), ctx₁) ∧
      evp.EVP_SealUpdate ctx₁ (msg ++ [0]) = (some block, ctx₂) ∧
      evp.EVP_SealFinal ctx₂ = (some last, ctx₃) ∧ NulFree encoded_msg ∧
      (iv.length = 16 → encoded_msg = wire (block ++ last ++ [past]) ek iv []) := by
  unfold msg_encrypt_encode at h
  rcases henc : client_encrypt_msg evp ctx msg public_key seed with ⟨_ | m, ctx'⟩
  · simp [henc] at h
  obtain ⟨ctx₁, ctx₂, ctx₃, ek, iv, block, last, hinit, hupdate, hfinal, rfl⟩ :=
    client_encrypt_msg_cases henc
  simp only [henc] at h
  split at h
  · cases h
  · cases h
    refine ⟨ctx₁, ctx₂, ctx₃, ek, iv, block, last, hinit, hupdate, hfinal,
      parse_encrypted_msg_str_nulFree _ _, fun hiv => ?_⟩
    exact parse_encrypted_msg_str_eq_wire rfl rfl (by rw [hiv]; rfl) past

/-- A successful encoding is the wire format of what OpenSSL returned. -/
theorem msg_encrypt_encode_eq_some {public_key : evp.PubKey} {private_key : evp.PrivKey}
    (hkey : KeyPair evp public_key private_key) {ctx : evp.Ctx} {msg encoded_msg : Str}
    {seed : evp.Seed} {past : UInt8}
    (h : (msg_encrypt_encode evp ctx msg public_key seed past).1 = some encoded_msg) :
    ∃ ct ek iv, encoded_msg = wire (ct ++ [past]) ek iv [] ∧ ek ≠ [] ∧ iv ≠ [] ∧
      ∀ dctx, ∃ dctx₁ dctx₂ dctx₃ p q,
        evp.EVP_OpenInit dctx ek iv private_key = (true, dctx₁) ∧
        evp.EVP_OpenUpdate dctx₁ ct ct.length = (some p, dctx₂) ∧
        evp.EVP_OpenFinal dctx₂ = (some q, dctx₃) ∧ p ++ q = msg ++ [0] := by
  obtain ⟨ctx₁, ctx₂, ctx₃, ek, iv, block, last, hinit, hupdate, hfinal, -, hwire⟩ :=
    msg_encrypt_encode_cases h
  obtain ⟨hek, hiv, hopen⟩ := hkey _ _ _ _ _ _ _ _ _ _ hinit hupdate hfinal
  refine ⟨block ++ last, ek, iv, hwire hiv, hek, ?_, hopen⟩
  rintro rfl
  cases hiv

/-- The recipient's decryption of the fields returns the text before the
terminator that was encrypted with it. -/
theorem client_decrypt_msg_eq_some {private_key : evp.PrivKey} {dctx dctx₁ dctx₂ dctx₃ : evp.Ctx}
    {ct ek iv p q : List UInt8} {msg : Str} {m : message_encrypted_o} (past : UInt8)
    (hm : m.encrypted_msg = ct ++ [past]) (hlen : m.encrypted_msg_len = ct.length)
    (hek : m.encrypted_key = ek) (hiv : m.init_vector = iv)
    (hinit : evp.EVP_OpenInit dctx ek iv private_key = (true, dctx₁))
    (hupdate : evp.EVP_OpenUpdate dctx₁ ct ct.length = (some p, dctx₂))
    (hfinal : evp.EVP_OpenFinal dctx₂ = (some q, dctx₃))
    (hpq : p ++ q = msg ++ [0]) (hmsg : NulFree msg) :
    (client_decrypt_msg evp dctx m private_key).1 = some msg := by
  have htake : m.encrypted_msg.take (ct.length : Int).toNat = ct := by
    rw [hm, Int.toNat_natCast, List.take_left]
  simp only [client_decrypt_msg, hlen, htake, hek, hiv, hinit, hupdate, hfinal, hpq]
  rw [cstr_append_nul hmsg]

/-- **A padded message decrypts to its body.** -/
theorem msg_decode_decrypt_padded {public_key : evp.PubKey} {private_key : evp.PrivKey}
    (hkey : KeyPair evp public_key private_key) {ctx : evp.Ctx} {msg encoded_msg : Str}
    {seed : evp.Seed} {past : UInt8}
    (h : (msg_encrypt_encode evp ctx msg public_key seed past).1 = some encoded_msg)
    (hmsg : NulFree msg) (pad : Str) (dctx : evp.Ctx) :
    ∃ dctx', msg_decode_decrypt evp dctx (encoded_msg ++ 32 :: pad) private_key =
      .ok (some msg, dctx') := by
  obtain ⟨ct, ek, iv, rfl, hek, hiv, hopen⟩ := msg_encrypt_encode_eq_some hkey h
  obtain ⟨dctx₁, dctx₂, dctx₃, p, q, hinit, hupdate, hfinal, hpq⟩ := hopen dctx
  have hwire : wire (ct ++ [past]) ek iv [] ++ 32 :: pad =
      wire (ct ++ [past]) ek iv (32 :: pad) := by
    simp [wire]
  have hparse := parse_str_encrypted_msg_wire (m := ct ++ [past]) (by simp) hek hiv
    (show Separated (32 :: pad) from Or.inr ⟨pad, rfl⟩)
  simp only [msg_decode_decrypt, hwire, hparse, bind, Except.bind, pure, Except.pure]
  refine ⟨_, congrArg Except.ok (Prod.ext ?_ rfl)⟩
  exact client_decrypt_msg_eq_some past rfl (by simp) rfl rfl hinit hupdate hfinal hpq hmsg

/-! ## The whole way -/

/-- A padded message is an encoding, a space and random text. -/
theorem padded_input_cases {s : ClientState evp Conn} {w : World evp} {input padded : Str}
    {ctx : evp.Ctx} (h : padded_input s w input = (.ok (some padded), ctx)) :
    ∃ name msg public_key encoded_msg, strchr input 58 = some (name, msg) ∧
      s.public_key_hash_table name = some public_key ∧
      (msg_encrypt_encode evp s.rsa_encrypt_ctx.rsa_encrypt_ctx msg public_key w.seed
        w.past).1 = some encoded_msg ∧
      padded = encoded_msg ++ 32 :: str_rand w.rand (MESSAGE_LENGTH - encoded_msg.length - 1) := by
  unfold padded_input at h
  rcases hname : strchr input 58 with _ | ⟨name, msg⟩
  · simp [hname] at h
  rcases hkey : s.public_key_hash_table name with _ | public_key
  · simp [hname, hkey] at h
  rcases henc : msg_encrypt_encode evp s.rsa_encrypt_ctx.rsa_encrypt_ctx msg public_key w.seed
    w.past with ⟨_ | encoded_msg, ctx'⟩
  · simp [hname, hkey, henc] at h
  refine ⟨name, msg, public_key, encoded_msg, rfl, hkey, by rw [henc], ?_⟩
  by_cases hlen : encoded_msg.length < MESSAGE_LENGTH
  · simp only [hname, hkey, henc, padded_msg_eq_ok hlen] at h
    cases h
    rfl
  · simp only [hname, hkey, henc, padded_msg, if_neg hlen] at h
    cases h

/-- It has at least the length that is sent. -/
theorem padded_input_length {s : ClientState evp Conn} {w : World evp} {input padded : Str}
    {ctx : evp.Ctx} (h : padded_input s w input = (.ok (some padded), ctx)) :
    MESSAGE_LENGTH ≤ padded.length := by
  obtain ⟨_, _, _, encoded_msg, -, -, -, rfl⟩ := padded_input_cases h
  rw [List.length_append, List.length_cons, str_rand_length]
  omega

theorem padded_input_nulFree {s : ClientState evp Conn} {w : World evp} {input padded : Str}
    {ctx : evp.Ctx} (h : padded_input s w input = (.ok (some padded), ctx)) : NulFree padded := by
  obtain ⟨name, msg, public_key, encoded_msg, -, -, henc, rfl⟩ := padded_input_cases h
  obtain ⟨_, _, _, _, _, _, _, -, -, -, hnul, -⟩ := msg_encrypt_encode_cases henc
  refine hnul.append fun c hc => ?_
  rcases List.mem_cons.mp hc with rfl | hc
  · decide
  · exact str_rand_nulFree _ _ c hc

/-- What OpenSSL documents of `EVP_SealInit`: the sealed key is not empty, and the IV of
AES-256-CBC has 16 bytes. -/
def SealedFields (evp : EVP) : Prop :=
  ∀ ctx seed public_key ek iv ctx₁,
    evp.EVP_SealInit ctx seed public_key = (some (ek, iv), ctx₁) → ek ≠ [] ∧ iv.length = 16

theorem block_evp_sealedFields : SealedFields block_evp := by
  rintro ctx (seed : UInt8) (pub : UInt8) ek iv ctx₁ h
  obtain ⟨hsome, -⟩ := Prod.mk.inj h
  obtain ⟨rfl, rfl⟩ := Prod.mk.inj (Option.some.inj hsome)
  exact ⟨List.cons_ne_nil _ _, List.length_replicate⟩

/-- Every client can decode a padded message: it has its three fields. -/
theorem padded_input_parses (hseal : SealedFields evp) {s : ClientState evp Conn} {w : World evp}
    {input padded : Str} {ctx : evp.Ctx}
    (h : padded_input s w input = (.ok (some padded), ctx)) :
    ∃ m, parse_str_encrypted_msg padded = .ok m := by
  obtain ⟨name, msg, public_key, encoded_msg, -, -, henc, rfl⟩ := padded_input_cases h
  obtain ⟨_, _, _, ek, iv, block, last, hinit, -, -, -, hwire⟩ := msg_encrypt_encode_cases henc
  obtain ⟨hek, hiv⟩ := hseal _ _ _ _ _ _ hinit
  have hiv_ne : iv ≠ [] := by
    rintro rfl
    cases hiv
  have happend (pad : Str) : wire (block ++ last ++ [w.past]) ek iv [] ++ 32 :: pad =
      wire (block ++ last ++ [w.past]) ek iv (32 :: pad) := by
    simp [wire]
  rw [hwire hiv, happend]
  exact ⟨_, parse_str_encrypted_msg_wire (by simp) hek hiv_ne (Or.inr ⟨_, rfl⟩)⟩

/-- What `input_send_msg` computes from a line whose recipient is known, when the
encoding fits. -/
theorem padded_input_eq_ok {s : ClientState evp Conn} {w : World evp} {name msg encoded_msg : Str}
    {public_key : evp.PubKey} (hname : 58 ∉ name)
    (hlookup : s.public_key_hash_table name = some public_key)
    (henc : (msg_encrypt_encode evp s.rsa_encrypt_ctx.rsa_encrypt_ctx msg public_key w.seed
      w.past).1 = some encoded_msg)
    (hlen : encoded_msg.length < MESSAGE_LENGTH) :
    ∃ ctx, padded_input s w (name ++ 58 :: msg) =
      (.ok (some (encoded_msg ++
        32 :: str_rand w.rand (MESSAGE_LENGTH - encoded_msg.length - 1))), ctx) := by
  rcases he : msg_encrypt_encode evp s.rsa_encrypt_ctx.rsa_encrypt_ctx msg public_key w.seed w.past
    with ⟨o, ctx⟩
  rw [he] at henc
  cases henc
  refine ⟨ctx, ?_⟩
  simp only [padded_input, strchr_append hname, hlookup, he, padded_msg_eq_ok hlen]
  rfl

/-- **End to end.**  A line `name:msg` with a known recipient, whose encoding is
shorter than `MESSAGE_LENGTH`, becomes a message of exactly `MESSAGE_LENGTH`
characters.  It is what `input_send_msg` broadcasts unless the table frees it, and
`msg_decode_decrypt` with the recipient's private key, from any context, returns
exactly `msg`. -/
theorem input_send_msg_round_trip [DecidableEq Conn] {s : ClientState evp Conn} {w : World evp}
    {name msg encoded_msg : Str} {public_key : evp.PubKey} {private_key : evp.PrivKey}
    (hkey : KeyPair evp public_key private_key) (hname : 58 ∉ name) (hmsg : NulFree msg)
    (hlookup : s.public_key_hash_table name = some public_key)
    (henc : (msg_encrypt_encode evp s.rsa_encrypt_ctx.rsa_encrypt_ctx msg public_key w.seed
      w.past).1 = some encoded_msg)
    (hlen : encoded_msg.length < MESSAGE_LENGTH) :
    ∃ padded ctx, padded_input s w (name ++ 58 :: msg) = (.ok (some padded), ctx) ∧
      padded.length = MESSAGE_LENGTH ∧ NulFree padded ∧
      (¬ Clashes s w padded → (input_send_msg s w (name ++ 58 :: msg)).2.1 =
        [.broadcast none padded (client_send_to_all_peers s.peer_list padded)]) ∧
      ∀ dctx, ∃ dctx', msg_decode_decrypt evp dctx padded private_key = .ok (some msg, dctx') := by
  obtain ⟨ctx, hpad⟩ := padded_input_eq_ok hname hlookup henc hlen
  refine ⟨_, ctx, hpad, padded_msg_length (padded_msg_eq_ok hlen w.rand), ?_, ?_,
    msg_decode_decrypt_padded hkey henc hmsg _⟩
  · obtain ⟨ct, ek, iv, rfl, -⟩ := msg_encrypt_encode_eq_some hkey henc
    refine wire_nulFree.append fun c hc => ?_
    rcases List.mem_cons.mp hc with rfl | hc
    · decide
    · exact str_rand_nulFree _ _ c hc
  · -- what is broadcast is the text the table did not free
    intro hclash
    have hfree := mt add_padded_freed_iff.mp hclash
    simp [input_send_msg, hpad, hfree]

/-- `b:hi`, sealed for the key 7 and opened with it. -/
theorem input_send_msg_round_trip_hi :
    ∃ padded ctx, padded_input (sample_client : ClientState block_evp Nat) sample_world
        ([98] ++ 58 :: [104, 105]) = (.ok (some padded), ctx) ∧
      padded.length = MESSAGE_LENGTH ∧ NulFree padded ∧
      (¬ Clashes (sample_client : ClientState block_evp Nat) sample_world padded →
        (input_send_msg (sample_client : ClientState block_evp Nat) sample_world
            ([98] ++ 58 :: [104, 105])).2.1 =
          [.broadcast none padded (client_send_to_all_peers
            (sample_client : ClientState block_evp Nat).peer_list padded)]) ∧
      ∀ dctx, ∃ dctx', msg_decode_decrypt block_evp dctx padded (7 : UInt8) =
        .ok (some [104, 105], dctx') :=
  have henc : (msg_encrypt_encode block_evp [] [104, 105] (7 : UInt8) (0 : UInt8) 0).1 =
      some ((msg_encrypt_encode block_evp [] [104, 105] (7 : UInt8) (0 : UInt8) 0).1.getD []) := by
    decide +kernel
  input_send_msg_round_trip (block_evp_keyPair 7) (by decide) (by decide) rfl henc
    (by decide +kernel)

end AnonyChat
