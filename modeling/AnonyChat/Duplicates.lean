import AnonyChat.RoundTrip

/-! # Duplicate suppression over whole runs of a client

The message table is meant to answer whether a message was processed before.  Its
nodes are keyed by receive buffers, which the next `recv` overwrites, and by freed
blocks, so over a run it errs in both directions:

* a message broadcast before may be broadcast again, when the buffer it was read
  into has since received something else (`broadcasts_nodup_iff` says exactly when
  that does not happen);
* a message never met before may be dropped, when its buffer already keys a node
  with the same hash (`dropped_known_iff`).
-/
namespace AnonyChat
open CString GHashTable Machine

variable {evp : EVP} {Conn : Type} [DecidableEq Conn]

/-- The texts broadcast, in order. -/
def broadcasts (out : List (Event Conn)) : List Str :=
  out.filterMap fun
    | .broadcast _ msg _ => some msg
    | _ => none

omit [DecidableEq Conn] in
@[simp] theorem broadcasts_append (xs ys : List (Event Conn)) :
    broadcasts (xs ++ ys) = broadcasts xs ++ broadcasts ys := List.filterMap_append

omit [DecidableEq Conn] in
theorem broadcasts_received (texts : List Str) :
    broadcasts (texts.map (Event.received : Str → Event Conn)) = [] := by
  simp [broadcasts]

/-- The text was received, or broadcast as the user's own message. -/
def Known (out : List (Event Conn)) (msg : Str) : Prop :=
  (∃ c, Event.recv c msg ∈ out) ∨ ∃ sends, Event.broadcast none msg sends ∈ out

omit [DecidableEq Conn] in
theorem Known.append {out : List (Event Conn)} {msg : Str} (h : Known out msg)
    (more : List (Event Conn)) : Known (out ++ more) msg := by
  rcases h with ⟨c, h⟩ | ⟨sends, h⟩
  · exact Or.inl ⟨c, List.mem_append_left _ h⟩
  · exact Or.inr ⟨sends, List.mem_append_left _ h⟩

omit [DecidableEq Conn] in
theorem known_own (out : List (Event Conn)) (msg : Str) (sends : List Send) :
    Known (out ++ [.broadcast none msg sends]) msg :=
  Or.inr ⟨sends, List.mem_append_right _ (List.mem_singleton_self _)⟩

/-- What duplicate suppression knows of the past: a receive buffer that keys a
node holds a received text, and only known texts were broadcast. -/
structure History (s : ClientState evp Conn) (out : List (Event Conn)) : Prop where
  buffer_received : ∀ hash c, Holds s.message_hash_table hash (.recv c) →
    Event.recv c (cstr (s.buffer c)) ∈ out
  broadcast_known : ∀ msg ∈ broadcasts out, Known out msg

omit [DecidableEq Conn] in
theorem History.start {s : ClientState evp Conn}
    (hs : s.message_hash_table = client_create_hash_table) : History s [] where
  buffer_received := by simp [hs, client_create_hash_table]
  broadcast_known := by simp [broadcasts]

/-- A buffer that keys a node still holds a received text after the next receive. -/
theorem History.buffer_update {s : ClientState evp Conn} {out more : List (Event Conn)}
    (h : History s out) {c : Conn} {data : List UInt8} (hrecv : Event.recv c (cstr data) ∈ more)
    {hash : UInt32} {c' : Conn} (hold : Holds s.message_hash_table hash (.recv c')) :
    Event.recv c' (cstr (Function.update s.buffer c data c')) ∈ out ++ more := by
  by_cases hc : c' = c
  · subst hc
    rw [Function.update_self]
    exact List.mem_append_right _ hrecv
  · rw [Function.update_of_ne hc]
    exact List.mem_append_left _ (h.buffer_received hash c' hold)

omit [DecidableEq Conn] in
theorem broadcast_known_append {out more : List (Event Conn)}
    (h : ∀ msg ∈ broadcasts out, Known out msg)
    (hmore : ∀ msg ∈ broadcasts more, Known (out ++ more) msg) :
    ∀ msg ∈ broadcasts (out ++ more), Known (out ++ more) msg := by
  intro msg hm
  rw [broadcasts_append, List.mem_append] at hm
  rcases hm with hm | hm
  · exact (h msg hm).append more
  · exact hmore msg hm

/-- **Every step keeps the history.** -/
theorem History.step {s : ClientState evp Conn} {out : List (Event Conn)} (h : History s out)
    (i : World evp × Input Conn) : History (client_step s i).1 (out ++ (client_step s i).2) := by
  rcases i with ⟨w, i⟩
  have ho := client_step_outcome s (w, i)
  generalize client_step s (w, i) = r at ho ⊢
  cases ho with
  | dead hf => simpa using h
  | @seen c data hf hrec =>
    refine ⟨fun hash c' hold => h.buffer_update (by simp) hold, ?_⟩
    exact broadcast_known_append h.broadcast_known (by simp [broadcasts])
  | @accept c data ctx texts hf hrec =>
    refine ⟨fun hash c' hold => ?_, ?_⟩
    · rcases (holds_accepted_iff hrec).mp hold with hold | ⟨-, hkey⟩
      · exact h.buffer_update (by simp) hold
      · -- the new node is keyed by the buffer that was just read into
        cases hkey
        simp [accepted]
    · refine broadcast_known_append h.broadcast_known fun msg hm => Or.inl ⟨c, ?_⟩
      rw [broadcasts_append, broadcasts_received] at hm
      have : msg = cstr data := by simpa [broadcasts] using hm
      simp [this]
  | quiet hf =>
    rw [List.append_nil]
    exact ⟨h.buffer_received, h.broadcast_known⟩
  | @sent input padded ctx hf hpad hclash =>
    refine ⟨fun hash c' hold => ?_, ?_⟩
    · rcases holds_add_padded_iff.mp hold with hold | ⟨-, -, hkey⟩
      · exact List.mem_append_left _ (h.buffer_received hash c' hold)
      · cases hkey
    · refine broadcast_known_append h.broadcast_known fun msg hm => ?_
      have : msg = padded := by simpa [broadcasts] using hm
      exact this ▸ known_own out padded _
  | @clash input padded ctx hf hpad hclash =>
    refine ⟨fun hash c' hold => ?_, ?_⟩
    · rcases holds_add_padded_iff.mp hold with hold | ⟨-, -, hkey⟩
      · exact List.mem_append_left _ (h.buffer_received hash c' hold)
      · cases hkey
    · refine broadcast_known_append h.broadcast_known fun msg hm => ?_
      have : msg = s.mem w (.block w.malloc) := by simpa [broadcasts] using hm
      exact this ▸ known_own out _ _

theorem history_exec {s : ClientState evp Conn}
    (hs : s.message_hash_table = client_create_hash_table) (is : List (World evp × Input Conn)) :
    History (exec client_step s is).1 (exec client_step s is).2 :=
  exec_invariant client_step History (History.start hs) (fun _ _ i h => h.step i) is

/-! ## Messages broadcast again -/

/-- A padded message was neither received nor sent before. -/
def FreshLine (s : ClientState evp Conn) (out : List (Event Conn))
    (i : World evp × Input Conn) : Prop :=
  ∀ input padded ctx, i.2 = .line input →
    padded_input s i.1 input = (.ok (some padded), ctx) → ¬ Known out padded

/-- When the table frees a padded message, the freed block does not read a text that
was broadcast before. -/
def FreedFresh (s : ClientState evp Conn) (out : List (Event Conn)) (i : World evp × Input Conn) :
    Prop :=
  ∀ input padded ctx, s.fault = none → i.2 = .line input →
    padded_input s i.1 input = (.ok (some padded), ctx) → Clashes s i.1 padded →
    s.mem i.1 (.block i.1.malloc) ∉ broadcasts out

/-- A message that was broadcast before is recognised when it arrives again. -/
def RecognisedAgain (s : ClientState evp Conn) (out : List (Event Conn))
    (i : World evp × Input Conn) : Prop :=
  ∀ c data, s.fault = none → i.2 = .recv c data → cstr data ∈ broadcasts out →
    Recognised s i.1 c (cstr data)

/-- One step broadcasts nothing twice, provided it meets the three conditions. -/
theorem broadcasts_nodup_step {s : ClientState evp Conn} {out : List (Event Conn)}
    {i : World evp × Input Conn} (h : History s out) (hn : (broadcasts out).Nodup)
    (hfresh : FreshLine s out i) (hagain : RecognisedAgain s out i) (hfreed : FreedFresh s out i) :
    (broadcasts (out ++ (client_step s i).2)).Nodup := by
  have hadd : ∀ msg, msg ∉ broadcasts out → (broadcasts out ++ [msg]).Nodup := by
    intro msg hm
    refine List.nodup_append.mpr ⟨hn, List.nodup_singleton _, ?_⟩
    intro a ha b hb
    rw [List.mem_singleton.mp hb]
    exact fun he => hm (he ▸ ha)
  rcases i with ⟨w, i⟩
  have ho := client_step_outcome s (w, i)
  generalize client_step s (w, i) = r at ho ⊢
  rw [broadcasts_append]
  cases ho with
  | dead hf => simpa [broadcasts] using hn
  | seen hf hrec => simpa [broadcasts] using hn
  | @accept c data ctx texts hf hrec =>
    rw [broadcasts_append, broadcasts_received]
    exact hadd _ fun hm => hrec (hagain c data hf rfl hm)
  | quiet hf => simpa [broadcasts] using hn
  | @sent input padded ctx hf hpad hcl =>
    exact hadd _ fun hm => hfresh input padded ctx rfl hpad (h.broadcast_known _ hm)
  | @clash input padded ctx hf hpad hcl => exact hadd _ (hfreed input padded ctx hf rfl hpad hcl)

omit [DecidableEq Conn] in
theorem not_nodup_of_mem {out more : List (Event Conn)} {msg : Str} (hm : msg ∈ broadcasts out)
    (hmore : msg ∈ broadcasts more) : ¬ (broadcasts (out ++ more)).Nodup := by
  rw [broadcasts_append]
  intro hn
  exact (List.nodup_append.mp hn).2.2 _ hm _ hmore rfl

/-- A message that was broadcast before and is not recognised is broadcast again. -/
theorem not_nodup_of_not_recognised {s : ClientState evp Conn} {out : List (Event Conn)}
    {w : World evp} {c : Conn} {data : List UInt8} (hf : s.fault = none)
    (hm : cstr data ∈ broadcasts out) (hrec : ¬ Recognised s w c (cstr data)) :
    ¬ (broadcasts (out ++ (client_step s (w, .recv c data)).2)).Nodup := by
  have ho := client_step_outcome s (w, .recv c data)
  generalize client_step s (w, .recv c data) = r at ho ⊢
  cases ho with
  | dead hf' => rw [hf] at hf'; cases hf'
  | seen hf' hrec' => exact absurd hrec' hrec
  | accept hf' hrec' =>
    apply not_nodup_of_mem hm
    rw [broadcasts_append, broadcasts_received]
    exact List.mem_singleton_self _

/-- A freed block that reads a text broadcast before is broadcast. -/
theorem not_nodup_of_freed {s : ClientState evp Conn} {out : List (Event Conn)} {w : World evp}
    {input padded : Str} {ctx : evp.Ctx} (hf : s.fault = none)
    (hpad : padded_input s w input = (.ok (some padded), ctx)) (hclash : Clashes s w padded)
    (hm : s.mem w (.block w.malloc) ∈ broadcasts out) :
    ¬ (broadcasts (out ++ (client_step s (w, .line input)).2)).Nodup := by
  have hfree := add_padded_freed_iff.mpr hclash
  apply not_nodup_of_mem hm
  simp [client_step, hf, input_send_msg, hpad, hfree, broadcasts]

/-- **When every message is broadcast at most once.**  In any run whose own messages
are fresh, nothing is broadcast twice exactly when every message that arrives after
its broadcast is recognised (a node with its hash is keyed by the buffer it arrived
in, or by a buffer or block that still reads this message), and no padded message is
freed by the table while its block reads a text broadcast before. -/
theorem broadcasts_nodup_iff {s : ClientState evp Conn}
    (hs : s.message_hash_table = client_create_hash_table) {is : List (World evp × Input Conn)}
    (hfresh : Always client_step FreshLine s is) :
    (broadcasts (exec client_step s is).2).Nodup ↔
      Always client_step (fun t out i => RecognisedAgain t out i ∧ FreedFresh t out i) s is := by
  constructor
  · rintro hn pre ⟨w, i⟩ post rfl
    rw [exec_append, exec, ← List.append_assoc, broadcasts_append] at hn
    -- the output up to the step in question is already without repetitions
    have hstep := hn.of_append_left
    refine ⟨?_, ?_⟩
    · rintro c data hf rfl hm
      exact Classical.byContradiction fun hrec => not_nodup_of_not_recognised hf hm hrec hstep
    · rintro input padded ctx hf rfl hpad hclash hm
      exact not_nodup_of_freed hf hpad hclash hm hstep
  · intro hagain
    have hall : Always client_step (fun t out i =>
        FreshLine t out i ∧ RecognisedAgain t out i ∧ FreedFresh t out i) s is :=
      fun pre i post h => ⟨hfresh pre i post h, hagain pre i post h⟩
    exact (exec_invariant_always client_step
      (fun t out => History t out ∧ (broadcasts out).Nodup) ⟨History.start hs, List.nodup_nil⟩
      (fun t out i hi hp => ⟨hi.1.step i, broadcasts_nodup_step hi.1 hi.2 hp.1 hp.2.1 hp.2.2⟩)
      hall).2

/-- Nothing is asked of messages that arrive. -/
theorem freshLine_of_received {s : ClientState evp Conn} {is : List (World evp × Input Conn)}
    (h : ∀ i ∈ is, ∃ c data, i.2 = .recv c data) : Always client_step FreshLine s is := by
  refine Always.of_forall_mem _ fun i hi t out input padded ctx hline => ?_
  obtain ⟨c, data, hrecv⟩ := h i hi
  rw [hrecv] at hline
  cases hline

/-- `a a a` arrives, and again over another connection. -/
def arrives_twice : List (World block_evp × Input Nat) :=
  [(sample_world, .recv 0 [97, 32, 97, 32, 97]), (sample_world, .recv 1 [97, 32, 97, 32, 97])]

/-- The user types a line after that. -/
def repeat_and_line : List (World block_evp × Input Nat) :=
  arrives_twice ++ [(sample_world, .line [97, 58, 97])]

theorem freshLine_repeat_and_line : Always client_step FreshLine sample_client repeat_and_line := by
  rw [repeat_and_line, always_concat]
  constructor
  · exact freshLine_of_received (by simp [arrives_twice])
  · -- the only text known by then is shorter than a padded message
    intro input padded ctx _ hpad hknown
    have hlen := padded_input_length hpad
    have hpast : (exec client_step sample_client arrives_twice).2 =
        [.recv 0 [97, 32, 97, 32, 97],
          .broadcast (some 0) [97, 32, 97, 32, 97] [⟨5, [97, 32, 97, 32, 97]⟩],
          .decode [97, 32, 97, 32, 97], .recv 1 [97, 32, 97, 32, 97],
          .seen 1 [97, 32, 97, 32, 97]] := by decide +kernel
    have htext : padded = [97, 32, 97, 32, 97] := by
      rw [hpast] at hknown
      rcases hknown with ⟨c, hrecv⟩ | ⟨sends, hown⟩
      · simp only [List.mem_cons, Event.recv.injEq, reduceCtorEq, List.not_mem_nil, or_false,
          false_or] at hrecv
        exact hrecv.elim And.right And.right
      · simp at hown
    rw [htext] at hlen
    exact absurd hlen (by decide)

/-- The repeat is dropped, and the line is not taken for what was received. -/
theorem broadcasts_nodup_iff_repeat :
    Always client_step (fun t out i => RecognisedAgain t out i ∧ FreedFresh t out i)
      (sample_client : ClientState block_evp Nat) repeat_and_line :=
  (broadcasts_nodup_iff rfl freshLine_repeat_and_line).mp (by decide +kernel)

/-- The message `a a a` arrives on one connection, `b b b` overwrites the buffer,
and `a a a` arrives on another connection: it is broadcast twice. -/
theorem rebroadcast_after_overwrite :
    ∃ is : List (World block_evp × Input Nat), Always client_step FreshLine sample_client is ∧
      ¬ (broadcasts (exec client_step sample_client is).2).Nodup := by
  refine ⟨[(sample_world, .recv 0 [97, 32, 97, 32, 97]),
    (sample_world, .recv 0 [98, 32, 98, 32, 98]),
    (sample_world, .recv 1 [97, 32, 97, 32, 97])], ?_, by decide +kernel⟩
  exact freshLine_of_received (by simp)

/-! ## Messages dropped without having been met -/

/-- A message dropped as already seen was known. -/
def DropsKnown (s : ClientState evp Conn) (out : List (Event Conn))
    (i : World evp × Input Conn) : Prop :=
  ∀ c msg, Event.seen c msg ∈ (client_step s i).2 → Known out msg

/-- No node with the hash of an unknown message is keyed by the buffer it arrives
in, or by a freed block that reads it. -/
def NoAlias (s : ClientState evp Conn) (out : List (Event Conn))
    (i : World evp × Input Conn) : Prop :=
  ∀ c data, s.fault = none → i.2 = .recv c data → ¬ Known out (cstr data) →
    ¬ Holds s.message_hash_table (g_str_hash (cstr data)) (.recv c) ∧
      ∀ a, Holds s.message_hash_table (g_str_hash (cstr data)) (.block a) →
        cstr (i.1.freed a) ≠ cstr data

omit [DecidableEq Conn] in
/-- A node that recognises an unknown message is keyed by its own buffer or by a
freed block: every other buffer holds a text that was received. -/
theorem recognised_unknown_iff {s : ClientState evp Conn} {out : List (Event Conn)}
    (h : History s out) {w : World evp} {c : Conn} {msg : Str} (hunknown : ¬ Known out msg) :
    Recognised s w c msg ↔ Holds s.message_hash_table (g_str_hash msg) (.recv c) ∨
      ∃ a, Holds s.message_hash_table (g_str_hash msg) (.block a) ∧ cstr (w.freed a) = msg := by
  constructor
  · rintro ⟨key, hold, rfl | hmem⟩
    · exact Or.inl hold
    · cases key with
      | recv c' =>
        have hmem' : cstr (s.buffer c') = msg := hmem
        exact absurd (Or.inl ⟨c', hmem' ▸ h.buffer_received _ c' hold⟩) hunknown
      | block a => exact Or.inr ⟨a, hold, hmem⟩
  · rintro (hold | ⟨a, hold, hmem⟩)
    · exact ⟨.recv c, hold, Or.inl rfl⟩
    · exact ⟨.block a, hold, Or.inr hmem⟩

theorem dropsKnown_iff_noAlias {s : ClientState evp Conn} {out : List (Event Conn)}
    (h : History s out) (i : World evp × Input Conn) : DropsKnown s out i ↔ NoAlias s out i := by
  have halias : ∀ {w : World evp} {c data}, ¬ Known out (cstr data) →
      (¬ Recognised s w c (cstr data) ↔
        ¬ Holds s.message_hash_table (g_str_hash (cstr data)) (.recv c) ∧
          ∀ a, Holds s.message_hash_table (g_str_hash (cstr data)) (.block a) →
            cstr (w.freed a) ≠ cstr data) := by
    intro w c data hunknown
    rw [recognised_unknown_iff h hunknown]
    simp
  rcases i with ⟨w, i⟩
  have ho := client_step_outcome s (w, i)
  unfold DropsKnown
  generalize client_step s (w, i) = r at ho ⊢
  constructor
  · rintro hdrop c data hf rfl hunknown
    refine (halias hunknown).mp fun hrec => hunknown ?_
    cases ho with
    | dead hf' => rw [hf] at hf'; cases hf'
    | seen _ _ => exact hdrop c _ (by simp)
    | accept _ hrec' => exact absurd hrec hrec'
  · intro hno c msg hseen
    cases ho with
    | dead hf => cases hseen
    | @seen c' data hf hrec =>
      obtain ⟨rfl, rfl⟩ : c = c' ∧ msg = cstr data := by simpa using hseen
      exact Classical.byContradiction fun hunknown =>
        (halias hunknown).mpr (hno c data hf rfl hunknown) hrec
    | accept _ _ => simp at hseen
    | quiet _ => cases hseen
    | sent _ _ _ => simp at hseen
    | clash _ _ _ => simp at hseen

/-- **When only known messages are dropped.**  In every run, each message dropped
as already seen was received or sent before, exactly when no unknown message
arrives in a buffer that keys a node with its hash, or meets a freed block with its
hash that happens to read the same. -/
theorem dropped_known_iff {s : ClientState evp Conn}
    (hs : s.message_hash_table = client_create_hash_table) (is : List (World evp × Input Conn)) :
    Always client_step DropsKnown s is ↔ Always client_step NoAlias s is := by
  constructor
  · intro h pre i post he
    exact (dropsKnown_iff_noAlias (history_exec hs pre) i).mp (h pre i post he)
  · intro h pre i post he
    exact (dropsKnown_iff_noAlias (history_exec hs pre) i).mpr (h pre i post he)

/-- What is dropped is the message that arrived before. -/
theorem dropped_known_iff_repeat : Always client_step DropsKnown sample_client repeat_and_line := by
  refine (dropped_known_iff rfl _).mpr ((always_cons client_step).mpr ⟨?_, ?_⟩)
  · exact fun c data _ _ _ => ⟨not_holds_nil _ _, fun a hholds => absurd hholds (not_holds_nil _ _)⟩
  · refine (always_cons client_step).mpr ⟨?_, (always_singleton client_step).mpr ?_⟩
    · rintro c data - hrecv hunknown
      cases hrecv
      exact absurd (Or.inl ⟨0, by decide +kernel⟩) hunknown
    · rintro c data - hline
      cases hline

/-- `ab k v` and `bA k v` have one hash.  Arriving one after the other on one
connection, the second is dropped although it was never met. -/
theorem unknown_dropped_on_collision :
    ∃ is : List (World block_evp × Input Nat),
      ¬ Always client_step DropsKnown sample_client is := by
  refine ⟨[(sample_world, .recv 0 [97, 98, 32, 107, 32, 118]),
    (sample_world, .recv 0 [98, 65, 32, 107, 32, 118])], fun h => ?_⟩
  have hpast : (exec client_step sample_client
      [(sample_world, .recv 0 [97, 98, 32, 107, 32, 118])]).2 =
      [.recv 0 [97, 98, 32, 107, 32, 118],
        .broadcast (some 0) [97, 98, 32, 107, 32, 118] [⟨5, [97, 98, 32, 107, 32, 118]⟩],
        .decode [97, 98, 32, 107, 32, 118]] := by decide +kernel
  have hseen : Event.seen 0 [98, 65, 32, 107, 32, 118] ∈ (client_step
      (exec client_step sample_client [(sample_world, .recv 0 [97, 98, 32, 107, 32, 118])]).1
      (sample_world, .recv 0 [98, 65, 32, 107, 32, 118])).2 := by decide +kernel
  have hknown := h [_] _ [] rfl 0 _ hseen
  rw [hpast] at hknown
  simp [Known] at hknown

end AnonyChat
