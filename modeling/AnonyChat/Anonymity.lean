import AnonyChat.ClientServer

/-! # Recipient anonymity

Whether a message was meant for this client is known only to the holder of the
private key.  A client forwards before it decrypts, and what decryption returns
goes to the screen: neither its success nor the context it leaves behind reaches
the table, the peer list or a later `send`.  `sends_withSecret` states this as a
law about two runs on the same inputs.
-/
namespace AnonyChat
open CString GHashTable Machine

variable {evp : EVP} {Conn : Type}

/-- The same client with another private key and another decryption context. -/
def ClientState.withSecret (s : ClientState evp Conn) (private_key : evp.PrivKey)
    (rsa_decrypt_ctx : evp.Ctx) : ClientState evp Conn :=
  { s with private_key := private_key
           rsa_encrypt_ctx := { s.rsa_encrypt_ctx with rsa_decrypt_ctx := rsa_decrypt_ctx } }

/-- The two states differ at most in the private key and the decryption context. -/
def SamePublic (s t : ClientState evp Conn) : Prop := ∃ key ctx, t = s.withSecret key ctx

section Steps
variable [DecidableEq Conn]

/-- Decryption shows in a received message's events only on the screen, and in the
state only in the decryption context. -/
theorem client_handle_samePublic (s : ClientState evp Conn) (key : evp.PrivKey) (ctx : evp.Ctx)
    (w : World evp) (c : Conn) (data : List UInt8) :
    SamePublic (client_handle s w c data).1 (client_handle (s.withSecret key ctx) w c data).1 ∧
      sends (client_handle s w c data).2 =
        sends (client_handle (s.withSecret key ctx) w c data).2 := by
  have hrec : Recognised (s.withSecret key ctx) w c (cstr data) ↔ Recognised s w c (cstr data) :=
    Iff.rfl
  rcases client_handle_cases s w c data with ⟨hs, h⟩ | ⟨hs, d, texts, h⟩ <;>
    rcases client_handle_cases (s.withSecret key ctx) w c data with ⟨ht, h'⟩ | ⟨ht, d', texts', h'⟩
  · rw [h, h']
    exact ⟨⟨key, ctx, rfl⟩, rfl⟩
  · exact absurd (hrec.mpr hs) ht
  · exact absurd (hrec.mp ht) hs
  · rw [h, h', sends_append, sends_append, sends_received, sends_received]
    exact ⟨⟨key, d', rfl⟩, rfl⟩

/-- A typed line reads neither the private key nor the decryption context. -/
theorem input_send_msg_withSecret (s : ClientState evp Conn) (key : evp.PrivKey) (ctx : evp.Ctx)
    (w : World evp) (input : Str) :
    input_send_msg (s.withSecret key ctx) w input =
      ((input_send_msg s w input).1.withSecret key ctx, (input_send_msg s w input).2) := by
  have hpad : padded_input (s.withSecret key ctx) w input = padded_input s w input := rfl
  have hadd : ∀ padded, add_padded (s.withSecret key ctx) w padded = add_padded s w padded :=
    fun _ => rfl
  unfold input_send_msg
  rw [hpad]
  rcases padded_input s w input with ⟨_ | _ | padded, ctx'⟩
  · rfl
  · rfl
  · simp only [hadd]
    split <;> rfl

/-- One step on the same input keeps the two clients equal in everything but the
secret, and sends the same. -/
theorem client_step_samePublic {s t : ClientState evp Conn} (h : SamePublic s t)
    (i : World evp × Input Conn) :
    SamePublic (client_step s i).1 (client_step t i).1 ∧
      sends (client_step s i).2 = sends (client_step t i).2 := by
  obtain ⟨key, ctx, rfl⟩ := h
  rcases i with ⟨w, i⟩
  have hfault : (s.withSecret key ctx).fault = s.fault := rfl
  unfold client_step
  rw [hfault]
  cases s.fault with
  | some f => exact ⟨⟨key, ctx, rfl⟩, rfl⟩
  | none =>
    cases i with
    | recv c data => exact client_handle_samePublic s key ctx w c data
    | line input =>
      simp only [input_send_msg_withSecret]
      exact ⟨⟨key, ctx, rfl⟩, trivial⟩

/-- **Recipient anonymity.**  Two clients that differ only in the private key and
the decryption context, run on the same received messages and typed lines in the
same surroundings, make the same sends in the same order and end with the same
message table and peer list.  What OpenSSL returns from a decryption is an
arbitrary function of its arguments. -/
theorem sends_withSecret (s : ClientState evp Conn) (key : evp.PrivKey) (ctx : evp.Ctx)
    (is : List (World evp × Input Conn)) :
    sends (exec client_step s is).2 = sends (exec client_step (s.withSecret key ctx) is).2 ∧
      (exec client_step s is).1.message_hash_table =
        (exec client_step (s.withSecret key ctx) is).1.message_hash_table ∧
      (exec client_step s is).1.peer_list =
        (exec client_step (s.withSecret key ctx) is).1.peer_list := by
  have h := exec_related client_step SamePublic sends sends_append rfl
    (fun s t i hst => client_step_samePublic hst i) (s := s) (t := s.withSecret key ctx)
    ⟨key, ctx, rfl⟩ is
  obtain ⟨⟨key', ctx', he⟩, hsends⟩ := h
  rw [he]
  exact ⟨hsends, rfl, rfl⟩

end Steps

end AnonyChat
