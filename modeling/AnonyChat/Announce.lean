import AnonyChat.Fields

/-! # Announcing a port

A client copies the port it was started with into its `peer_server_o`, and `update_port` sends
it to the name server in a block of fixed size.  The connection is a stream: what the server's
`recv` returns may be all of the block or only its beginning, and each piece is read as a message
of its own.  `port_announced_iff` says for which ports, and for which first pieces, the server
has the client's port afterwards.
-/
namespace AnonyChat
open CString Block

/-! ## The client -/

/-- `PORTUPD ` with its space. -/
def PORTUPD_space : Str := PORTUPD ++ space

/-- `msg_len` of `update_port`. -/
def update_len : Nat := PORTUPD_space.length + NI_MAXSERV + 1

/-- `update_port`: the bytes it hands to `send`. -/
def update_port (msg : Block update_len) (port : Block NI_MAXSERV) :
    Except Stray (List UInt8) := do
  let msg ← msg.strncpy PORTUPD_space update_len
  -- `strncat` reads the port up to its terminator
  let _ ← port.strlen
  let msg ← msg.strncat (cstr port.bytes) update_len
  return msg.bytes

/-- `main` with the port `argv`: `peer_server.port` is filled, and announced. -/
def announce (msg : Block update_len) (peer_server_port : Block NI_MAXSERV) (argv : Str) :
    Except Stray (List UInt8) := do
  let port ← peer_server_port.strncpy argv NI_MAXSERV
  update_port msg port

section Client
variable {msg : Block update_len} {own : Block NI_MAXSERV} {argv : Str}

/-- **What is sent** of a port that fits: the text, and zeros up to the size of the block. -/
theorem announce_ok (hargv : NulFree argv) (hlen : argv.length < NI_MAXSERV) :
    announce msg own argv =
      .ok (PORTUPD_space ++ argv ++ List.replicate (NI_MAXSERV + 1 - argv.length) 0) := by
  have hlong : update_len = PORTUPD_space.length + (NI_MAXSERV + 1) := rfl
  obtain ⟨port, hport, hholds⟩ := strncpy_holds (b := own) (Nat.le_refl _) hargv hlen
  obtain ⟨text, htext, hbytes⟩ := strncpy_full (b := msg) PORTUPD_space
  have hfull : text.bytes = PORTUPD_space ++ List.replicate (NI_MAXSERV + 1) 0 := hbytes
  have hprefix : text.Holds PORTUPD_space := ⟨by decide, _, hfull⟩
  have hle : PORTUPD_space.length + (argv.take update_len ++ [0]).length ≤ update_len := by
    rw [List.take_of_length_le (by omega), List.length_append, List.length_singleton]
    omega
  obtain ⟨text', htext', hbytes'⟩ := write_ok (b := text) hle
  have hsent : announce msg own argv = .ok text'.bytes := by
    rw [announce, hport]
    show update_port msg port = _
    rw [update_port, htext]
    show (port.strlen >>= fun _ => _) = _
    rw [hholds.strlen_eq, hholds.cstr_eq]
    show (text.strncat argv update_len >>= _) = _
    rw [Block.strncat, hprefix.strlen_eq]
    show (text.write _ _ >>= _) = _
    rw [htext']
    rfl
  rw [hsent, hbytes', hfull, List.take_left, List.take_of_length_le (by omega), List.drop_append,
    List.drop_eq_nil_of_le (by omega), List.nil_append, List.drop_replicate, List.length_append,
    List.length_singleton]
  have hrest : NI_MAXSERV + 1 - argv.length =
      NI_MAXSERV + 1 - (PORTUPD_space.length + (argv.length + 1) - PORTUPD_space.length) + 1 := by
    omega
  rw [hrest, List.replicate_succ]
  simp

/-- A port that does not fit is stored without a terminator, and `strncat` reads on behind it. -/
theorem announce_stray (hargv : NulFree argv) (hlen : NI_MAXSERV ≤ argv.length) :
    announce msg own argv = .error .read := by
  obtain ⟨port, hport, hbytes⟩ := strncpy_full (b := own) argv
  obtain ⟨text, htext, -⟩ := strncpy_full (b := msg) PORTUPD_space
  rw [Nat.sub_eq_zero_of_le hlen, List.replicate_zero, List.append_nil] at hbytes
  have hnone : ¬ 0 ∈ port.bytes := by
    rw [hbytes]
    exact fun hmem => hargv 0 (List.mem_of_mem_take hmem) rfl
  rw [announce, hport]
  show update_port msg port = _
  rw [update_port, htext]
  show (port.strlen >>= fun _ => _) = _
  rw [strlen, if_neg hnone]
  rfl

/-- **A port can be announced** exactly when it leaves room for its terminator. -/
theorem announce_ok_iff (hargv : NulFree argv) :
    (∃ bytes, announce msg own argv = .ok bytes) ↔ argv.length < NI_MAXSERV := by
  by_cases hlen : argv.length < NI_MAXSERV
  · exact iff_of_true ⟨_, announce_ok hargv hlen⟩ hlen
  · refine iff_of_false ?_ hlen
    rintro ⟨bytes, hbytes⟩
    rw [announce_stray hargv (Nat.le_of_not_lt hlen)] at hbytes
    cases hbytes

end Client

/-! ## The server -/

section Tokens
variable {message : List UInt8} {tok : Str}

theorem mem_space {c : UInt8} : c ∈ space ↔ c = 32 := List.mem_singleton

theorem not_space {text : Str} (h : 32 ∉ text) : ∀ c ∈ text, c ∉ space := by
  intro c hc hin
  rw [mem_space.mp hin] at hc
  exact h hc

theorem PORTUPD_not_space : 32 ∉ PORTUPD := by decide

theorem PORTUPD_append_not_space {text : Str} (h : 32 ∉ text) : 32 ∉ PORTUPD ++ text :=
  fun hc => h ((List.mem_append.mp hc).resolve_left PORTUPD_not_space)

/-- What a message says that sets the port. -/
theorem of_new_port (h : new_port message = some tok) :
    ∃ behind, cstr message = PORTUPD ++ behind ∧ 32 ∈ behind ∧ tok ≠ [] ∧ 32 ∉ tok ∧
      PORTUPD_space.length + tok.length ≤ (cstr message).length := by
  have hstart : str_starts_with (cstr message) PORTUPD = true := by
    by_contra hnot
    simp [new_port, hnot] at h
  have htok : (strtok_r (strtok_r (cstr message) space).2 space).1 = some tok := by
    simp only [new_port] at h
    split at h
    · exact h
    · cases h
  obtain ⟨behind, hbehind⟩ := List.isPrefixOf_iff_prefix.mp hstart
  rw [← hbehind] at htok ⊢
  have hspace : 32 ∈ behind := by
    by_contra hnone
    rw [strtok_r_last (by simp [PORTUPD]) (not_space (PORTUPD_append_not_space hnone))] at htok
    cases htok
  obtain ⟨word, rest, rfl, hword⟩ := List.eq_append_cons_of_mem hspace
  have hall : ∀ c ∈ PORTUPD ++ word, c ∉ space := not_space (PORTUPD_append_not_space hword)
  rw [← List.append_assoc, strtok_r_token (by simp [PORTUPD]) hall (mem_space.mpr rfl)] at htok
  refine ⟨_, rfl, hspace, ?_⟩
  rcases strtok_r_cases rest space with
    ⟨-, hnone⟩ | ⟨lead, tok', tail, hrest, -, hne, hfree, -, hsome⟩
  · rw [hnone] at htok
    cases htok
  · rw [hsome] at htok
    cases htok
    refine ⟨hne, fun hin => hfree 32 hin (mem_space.mpr rfl), ?_⟩
    rw [hrest]
    simp only [List.length_append, List.length_cons, PORTUPD_space, space, List.length_nil]
    omega

/-- The port that was last set is the default one, or what a message says. -/
theorem last_port_cases (messages : List (List UInt8)) :
    last_port messages = CLIENT_PEER_DEF_PORT ∨
      ∃ message ∈ messages, new_port message = some (last_port messages) := by
  induction messages using List.reverseRecOn with
  | nil => exact Or.inl rfl
  | append_singleton messages message ih =>
    rw [last_port_concat]
    cases hnew : new_port message with
    | some tok => exact Or.inr ⟨message, by simp, hnew⟩
    | none =>
      rcases ih with hdef | ⟨message', hmem, hsaid⟩
      · exact Or.inl hdef
      · exact Or.inr ⟨message', List.mem_append_left _ hmem, hsaid⟩

/-- It is never empty and has no space in it. -/
theorem last_port_word (messages : List (List UInt8)) :
    last_port messages ≠ [] ∧ 32 ∉ last_port messages := by
  rcases last_port_cases messages with hdef | ⟨message, -, hsaid⟩
  · rw [hdef]
    decide
  · obtain ⟨-, -, -, hne, hfree, -⟩ := of_new_port hsaid
    exact ⟨hne, hfree⟩

/-- Messages that say nothing leave the port alone. -/
theorem last_port_cons {rest : List (List UInt8)} (h : ∀ message ∈ rest, new_port message = none) :
    last_port (message :: rest) = (new_port message).getD CLIENT_PEER_DEF_PORT := by
  rw [last_port, List.foldl_cons]
  generalize (new_port message).getD CLIENT_PEER_DEF_PORT = tok
  induction rest with
  | nil => rfl
  | cons message' rest ih =>
    rw [List.foldl_cons, h message' List.mem_cons_self, Option.getD_none]
    exact ih fun message hmem => h message (List.mem_cons_of_mem _ hmem)

end Tokens

/-! ## The stream between them -/

/-- The bytes `update_port` sends of a port that fits. -/
def announcement (argv : Str) : List UInt8 :=
  PORTUPD_space ++ argv ++ List.replicate (NI_MAXSERV + 1 - argv.length) 0

section Stream
variable {argv : Str} {first : List UInt8} {rest : List (List UInt8)}

/-- No piece holds more text than was sent. -/
theorem cstr_length_le {pieces : List (List UInt8)} (hflat : pieces.flatten = announcement argv)
    {piece : List UInt8} (hpiece : piece ∈ pieces) :
    (cstr piece).length ≤ PORTUPD_space.length + argv.length := by
  have hsub : List.Sublist ((cstr piece).filter (· != 0))
      ((announcement argv).filter (· != 0)) := by
    rw [← hflat]
    exact ((List.takeWhile_sublist _).trans (List.sublist_flatten_of_mem hpiece)).filter _
  have htext : (cstr piece).filter (· != 0) = cstr piece := by
    rw [List.filter_eq_self]
    intro c hc
    simpa using cstr_nulFree piece c hc
  have hzeros : (announcement argv).filter (· != 0) = (PORTUPD_space ++ argv).filter (· != 0) := by
    rw [announcement, List.filter_append]
    simp
  rw [htext, hzeros] at hsub
  rw [← List.length_append]
  exact hsub.length_le.trans (List.length_filter_le _ _)

/-- Behind the first piece nothing reads as an announcement: the block has one space, and the
first piece is in front of it. -/
theorem new_port_rest (hspace : 32 ∉ argv) (hflat : (first :: rest).flatten = announcement argv)
    (hfirst : first ≠ []) : ∀ piece ∈ rest, new_port piece = none := by
  intro piece hpiece
  by_contra hnew
  obtain ⟨tok, htok⟩ := Option.ne_none_iff_exists'.mp hnew
  obtain ⟨behind, hcstr, hin, -⟩ := of_new_port htok
  obtain ⟨before, after, rfl⟩ := List.append_of_mem hpiece
  have hpiece_eq : piece = PORTUPD ++ (behind ++ piece.dropWhile (· != 0)) := by
    rw [← List.append_assoc, ← hcstr, cstr, List.takeWhile_append_dropWhile]
  -- the word `PORTUPD` of this piece ends behind the space of the block
  have hdrop : (announcement argv).drop (first ++ before.flatten ++ PORTUPD).length =
      behind ++ piece.dropWhile (· != 0) ++ after.flatten := by
    rw [← hflat, List.flatten_cons, List.flatten_append, List.flatten_cons]
    nth_rewrite 1 [hpiece_eq]
    simp only [← List.append_assoc]
    rw [List.append_assoc _ behind, List.append_assoc _ (behind ++ _), List.drop_left]
  have hlong : PORTUPD_space.length ≤ (first ++ before.flatten ++ PORTUPD).length := by
    have hpos := List.length_pos_iff.mpr hfirst
    simp only [List.length_append, PORTUPD_space, space, List.length_singleton]
    omega
  have hmem : 32 ∈ (announcement argv).drop (first ++ before.flatten ++ PORTUPD).length := by
    rw [hdrop]
    simp [hin]
  have hblock : announcement argv =
      PORTUPD_space ++ (argv ++ List.replicate (NI_MAXSERV + 1 - argv.length) 0) :=
    List.append_assoc _ _ _
  rw [hblock, List.drop_append, List.drop_eq_nil_of_le hlong, List.nil_append] at hmem
  rcases List.mem_append.mp (List.mem_of_mem_drop hmem) with hin | hin
  · exact hspace hin
  · exact absurd (List.eq_of_mem_replicate hin) (by decide)

theorem cstr_append_replicate {text : Str} (h : NulFree text) (n : Nat) :
    cstr (text ++ List.replicate n 0) = text := by
  cases n with
  | zero => rw [List.replicate_zero, List.append_nil, cstr_of_nulFree h]
  | succ n => exact cstr_append_nul h _

/-- A piece that ends inside the argument announces what it has of it. -/
theorem new_port_PORTUPD_space {text : Str} (htext : NulFree text) (hne : text ≠ [])
    (hspace : 32 ∉ text) (n : Nat) :
    new_port (PORTUPD_space ++ text ++ List.replicate n 0) = some text := by
  have hfree : NulFree (PORTUPD_space ++ text) := NulFree.append (by decide) htext
  have hsplit : PORTUPD_space ++ text = PORTUPD ++ 32 :: text := by
    rw [PORTUPD_space, List.append_assoc]
    rfl
  rw [new_port, cstr_append_replicate hfree, hsplit,
    strtok_r_token (by simp [PORTUPD]) (not_space PORTUPD_not_space) (mem_space.mpr rfl),
    strtok_r_last hne (not_space hspace)]
  rfl

/-- What the first piece says. -/
theorem new_port_first (hargv : NulFree argv) (hne : argv ≠ []) (hspace : 32 ∉ argv)
    (hflat : (first :: rest).flatten = announcement argv) :
    new_port first =
      if first.length ≤ PORTUPD_space.length then none
      else some (argv.take (first.length - PORTUPD_space.length)) := by
  have hfirst : first = (announcement argv).take first.length := by
    rw [← hflat, List.flatten_cons, List.take_left]
  by_cases hshort : first.length ≤ PORTUPD_space.length
  · have hnothing : ∀ k, k < 9 → new_port (PORTUPD_space.take k) = none := by decide
    rw [announcement, List.append_assoc, List.take_append_of_le_length hshort] at hfirst
    rw [if_pos hshort, hfirst]
    exact hnothing _ (Nat.lt_succ_of_le hshort)
  · have htake : NulFree (argv.take (first.length - PORTUPD_space.length)) :=
      fun c hc => hargv c (List.mem_of_mem_take hc)
    have hsome : argv.take (first.length - PORTUPD_space.length) ≠ [] := by
      rw [Ne, List.take_eq_nil_iff]
      rintro (hzero | hnil)
      · omega
      · exact hne hnil
    have hfree : 32 ∉ argv.take (first.length - PORTUPD_space.length) :=
      fun hin => hspace (List.mem_of_mem_take hin)
    rw [announcement, List.append_assoc, List.take_append, List.take_append,
      List.take_of_length_le (Nat.le_of_not_le hshort), List.take_replicate,
      ← List.append_assoc] at hfirst
    rw [if_neg hshort]
    nth_rewrite 1 [hfirst]
    exact new_port_PORTUPD_space htake hsome hfree _

/-- The server has what the pieces said last. -/
theorem port_holds_iff (fresh : Block NI_MAXSERV)
    (hflat : (first :: rest).flatten = announcement argv) (hlen : argv.length < NI_MAXSERV) :
    (∃ port, client_port fresh (first :: rest) = .ok port ∧ port.Holds argv) ↔
      last_port (first :: rest) = argv := by
  have hshort : ∀ piece ∈ first :: rest, ∀ tok, new_port piece = some tok →
      tok.length < NI_MAXSERV := by
    intro piece hpiece tok htok
    obtain ⟨-, -, -, -, -, hfits⟩ := of_new_port htok
    have hle := cstr_length_le hflat hpiece
    omega
  obtain ⟨port, hport, hterm, -⟩ := (portStored_iff fresh (first :: rest)).mpr hshort _
    (List.prefix_refl _)
  have hlast : (last_port (first :: rest)).length < NI_MAXSERV := by
    rcases last_port_cases (first :: rest) with hdef | ⟨piece, hpiece, hsaid⟩
    · rw [hdef]
      decide
    · exact hshort piece hpiece _ hsaid
  have hcstr := hterm.whole hlast
  constructor
  · rintro ⟨port', hport', hholds⟩
    cases hport.symm.trans hport'
    rw [← hcstr, hholds.cstr_eq]
  · rintro rfl
    have hholds := holds_cstr hterm.terminator
    rw [hcstr] at hholds
    exact ⟨port, hport, hholds⟩

/-- **Announcing a port.**  A client can send its port exactly when it leaves room for the
terminator.  However the block is cut up on the way, the server then has the port exactly when
the port is a word and the first piece holds all of it, or it is the default port and the first
piece holds none of it. -/
theorem port_announced_iff (msg : Block update_len) (own fresh : Block NI_MAXSERV)
    (hargv : NulFree argv) :
    ((∃ bytes, announce msg own argv = .ok bytes) ↔ argv.length < NI_MAXSERV) ∧
      ∀ first rest, announce msg own argv = .ok (first :: rest).flatten → first ≠ [] →
        ((∃ port, client_port fresh (first :: rest) = .ok port ∧ port.Holds argv) ↔
          argv ≠ [] ∧ 32 ∉ argv ∧
            (PORTUPD_space.length + argv.length ≤ first.length ∨
              first.length ≤ PORTUPD_space.length ∧ argv = CLIENT_PEER_DEF_PORT)) := by
  refine ⟨announce_ok_iff hargv, fun first rest hsent hfirst => ?_⟩
  have hlen := (announce_ok_iff hargv).mp ⟨_, hsent⟩
  have hflat : (first :: rest).flatten = announcement argv := by
    rw [announce_ok hargv hlen] at hsent
    exact (Except.ok.inj hsent).symm
  rw [port_holds_iff fresh hflat hlen]
  constructor
  · intro hlast
    obtain ⟨hne, hspace⟩ := last_port_word (first :: rest)
    rw [hlast] at hne hspace
    rw [last_port_cons (new_port_rest hspace hflat hfirst),
      new_port_first hargv hne hspace hflat] at hlast
    refine ⟨hne, hspace, ?_⟩
    by_cases hshort : first.length ≤ PORTUPD_space.length
    · rw [if_pos hshort, Option.getD_none] at hlast
      exact Or.inr ⟨hshort, hlast.symm⟩
    · rw [if_neg hshort, Option.getD_some, List.take_eq_self_iff] at hlast
      exact Or.inl (by omega)
  · rintro ⟨hne, hspace, hwhole | ⟨hshort, hdef⟩⟩
    · have hpos := List.length_pos_iff.mpr hne
      rw [last_port_cons (new_port_rest hspace hflat hfirst),
        new_port_first hargv hne hspace hflat, if_neg (by omega), Option.getD_some]
      exact List.take_of_length_le (by omega)
    · rw [last_port_cons (new_port_rest hspace hflat hfirst),
        new_port_first hargv hne hspace hflat, if_pos hshort, hdef]
      rfl

end Stream

/-- `5000`. -/
def port_5000 : Str := [53, 48, 48, 48]

/-- The block in three pieces, the first of `n` bytes. -/
def in_pieces (n : Nat) (argv : Str) : List (List UInt8) :=
  [(announcement argv).take n, ((announcement argv).drop n).take 10,
    (announcement argv).drop (n + 10)]

theorem in_pieces_flatten (n : Nat) (argv : Str) :
    (in_pieces n argv).flatten = announcement argv := by
  rw [in_pieces, List.flatten_cons, List.flatten_cons, List.flatten_singleton, ← List.drop_drop,
    List.take_append_drop, List.take_append_drop]

/-- Cut behind the port it arrives, cut inside it does not. -/
theorem port_announced_iff_pieces :
    (∃ port, client_port (Block.fill NI_MAXSERV 7) (in_pieces 14 port_5000) = .ok port ∧
      port.Holds port_5000) ∧
      ¬ ∃ port, client_port (Block.fill NI_MAXSERV 7) (in_pieces 10 port_5000) = .ok port ∧
        port.Holds port_5000 := by
  have hfree : NulFree port_5000 := by decide
  obtain ⟨-, hpieces⟩ := port_announced_iff (Block.fill update_len 7) (Block.fill NI_MAXSERV 7)
    (Block.fill NI_MAXSERV 7) hfree
  have hsent : ∀ n, announce (Block.fill update_len 7) (Block.fill NI_MAXSERV 7) port_5000 =
      .ok (in_pieces n port_5000).flatten := by
    intro n
    rw [announce_ok hfree (by decide), in_pieces_flatten]
    rfl
  constructor
  · exact (hpieces _ _ (hsent 14) (by decide)).mpr ⟨by decide, by decide, Or.inl (by decide)⟩
  · intro hport
    obtain ⟨-, -, hwhole | ⟨hnone, -⟩⟩ := (hpieces _ _ (hsent 10) (by decide)).mp hport
    · exact absurd hwhole (by decide)
    · exact absurd hnone (by decide)

end AnonyChat
