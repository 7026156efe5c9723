import AnonyChat.NameServer
import AnonyChat.Lib.Bfs

/-! # The search of the name server refines a breadth-first search

The two lists of the search carry the queue and the seen nodes of `Bfs.State`.  The list
of nodes in sight is searched to its end for every node that is not on it yet, and from
its second cell on the link at that end is the word `malloc` left there; so the search
goes as `Bfs.search` does as long as these words are zero, and is lost at the first that
is not (`scan_loop_carries`).
-/
namespace AnonyChat
open Linked

/-- The computation comes to a good result under a condition, and is lost otherwise. -/
def LostUnless {α : Type} (cond : Prop) (r : Except Stuck α) (good : α → Prop) : Prop :=
  (cond → ∃ x, r = .ok x ∧ good x) ∧ (¬ cond → r = .error .invalid_access)

section LostUnless
variable {α β : Type} {cond cond' : Prop} {r : Except Stuck α} {good : α → Prop}

theorem LostUnless.of_ok {x : α} (hcond : cond) (hr : r = .ok x) (hgood : good x) :
    LostUnless cond r good :=
  ⟨fun _ => ⟨x, hr, hgood⟩, fun h => absurd hcond h⟩

theorem LostUnless.congr (h : LostUnless cond r good) (hcond : cond' ↔ cond) :
    LostUnless cond' r good :=
  ⟨fun h' => h.1 (hcond.mp h'), fun h' => h.2 fun h'' => h' (hcond.mpr h'')⟩

/-- The conditions of two computations in a row both matter. -/
theorem LostUnless.bind (h : LostUnless cond r good) {f : α → Except Stuck β} {good' : β → Prop}
    (hf : ∀ x, good x → LostUnless cond' (f x) good') :
    LostUnless (cond ∧ cond') (r >>= f) good' := by
  constructor
  · rintro ⟨hcond, hcond'⟩
    obtain ⟨x, hr, hx⟩ := h.1 hcond
    obtain ⟨y, hy, hgood⟩ := (hf x hx).1 hcond'
    refine ⟨y, ?_, hgood⟩
    rw [hr]
    exact hy
  · intro hnot
    by_cases hcond : cond
    · obtain ⟨x, hr, hx⟩ := h.1 hcond
      rw [hr]
      exact (hf x hx).2 fun hcond' => hnot ⟨hcond, hcond'⟩
    · rw [h.2 hcond]
      rfl

theorem LostUnless.mono (h : LostUnless cond r good) {good' : α → Prop}
    (hgood : ∀ x, good x → good' x) : LostUnless cond r good' := by
  refine ⟨fun hcond => ?_, h.2⟩
  obtain ⟨x, hr, hx⟩ := h.1 hcond
  exact ⟨x, hr, hgood x hx⟩

theorem LostUnless.map (h : LostUnless cond r good) {f : α → β} {good' : β → Prop}
    (hf : ∀ x, good x → good' (f x)) : LostUnless cond (r >>= fun x => .ok (f x)) good' :=
  (h.bind fun x hx => LostUnless.of_ok trivial rfl (hf x hx)).congr (and_iff_left trivial).symm

end LostUnless

variable {fuel : Nat} {malloc : Nat → Malloc Nat}

/-- The last `next` link of a list of `size` nodes in sight; its last cell came from the
call with number `2 * size - 1`. -/
def last_word (malloc : Nat → Malloc Nat) (size : Nat) : Link :=
  if size ≤ 1 then .null else (malloc (2 * size - 1)).word

/-- The list of nodes in sight can be searched to its end while it grows from one size
to the other. -/
def Readable (malloc : Nat → Malloc Nat) (start stop : Nat) : Prop :=
  ∀ size, start ≤ size → size < stop → last_word malloc size = .null

theorem readable_self (malloc : Nat → Malloc Nat) (size : Nat) : Readable malloc size size := by
  intro k hle hlt
  omega

theorem readable_trans {a b c : Nat} (hab : a ≤ b) (hbc : b ≤ c) :
    Readable malloc a c ↔ Readable malloc a b ∧ Readable malloc b c := by
  constructor
  · intro h
    exact ⟨fun k hle hlt => h k hle (by omega), fun k hle hlt => h k (by omega) hlt⟩
  · rintro ⟨h₁, h₂⟩ k hle hlt
    by_cases hk : k < b
    · exact h₁ k hle hk
    · exact h₂ k (by omega) hlt

theorem readable_succ {size : Nat} :
    Readable malloc size (size + 1) ↔ last_word malloc size = .null := by
  constructor
  · intro h
    exact h size (Nat.le_refl _) (Nat.lt_succ_self _)
  · intro h k hle hlt
    rwa [show k = size by omega]

theorem last_word_eq_null_iff {size : Nat} :
    last_word malloc size = .null ↔ 2 ≤ size → (malloc (2 * size - 1)).zeroed = true := by
  unfold last_word Malloc.word
  by_cases hsize : size ≤ 1
  · rw [if_pos hsize]
    exact iff_of_true rfl fun h => absurd h (by omega)
  · rw [if_neg hsize]
    cases (malloc (2 * size - 1)).zeroed <;> simp
    omega

/-- The link a list of nodes in sight ends in once it has grown by one. -/
theorem last_word_length_succ (malloc : Nat → Malloc Nat) (ds : List (Nat × Nat)) :
    last_word malloc (ds.length + 1) =
      if ds = [] then .null else (malloc (2 * ds.length + 1)).word := by
  cases ds with
  | nil => rfl
  | cons d ds =>
    rw [last_word, if_neg (by simp), if_neg (List.cons_ne_nil _ _)]
    rfl

theorem last_word_cases (malloc : Nat → Malloc Nat) (size : Nat) :
    last_word malloc size = .null ∨ last_word malloc size = .garbage := by
  unfold last_word Malloc.word
  split
  · exact Or.inl rfl
  · split
    · exact Or.inl rfl
    · exact Or.inr rfl

/-- The two lists are chained through the cells `cs` and `ds`, which are not shared, and
carry the queue and the seen nodes of an abstract search. -/
structure Simulates (malloc : Nat → Malloc Nat) (s : Scan) (b : Bfs.State Nat)
    (cs ds : List (Nat × Nat)) (q : Link) : Prop where
  queue : Chained s.heap s.queue cs q
  sight : Chained s.heap s.sight ds (last_word malloc b.seen.length)
  disjoint : ∀ a ∈ cs.map Prod.fst, a ∉ ds.map Prod.fst
  queued : cs.map Prod.snd = b.queue
  seen : ds.map Prod.snd = b.seen
  calls : s.calls = 2 * b.seen.length

/-- The concrete state carries the abstract one, whatever the cells are. -/
def Carries (malloc : Nat → Malloc Nat) (s : Scan) (b : Bfs.State Nat) : Prop :=
  ∃ cs ds q, Simulates malloc s b cs ds q

theorem carries_empty (malloc : Nat → Malloc Nat) (heap : Heap Nat) :
    Carries malloc ⟨heap, list_create, list_create, 0⟩ ⟨[], []⟩ :=
  ⟨[], [], .null, chained_create heap, chained_create heap, by simp, rfl, rfl, rfl⟩

/-- **Both lists grow by the node**, in cells of their own. -/
theorem enqueue_spec {s : Scan} {b : Bfs.State Nat} (h : Carries malloc s b) (u : Nat) :
    ∃ s', enqueue malloc s u = .ok s' ∧
      Carries malloc s' ⟨b.queue ++ [u], b.seen ++ [u]⟩ := by
  obtain ⟨cs, ds, q, h⟩ := h
  obtain ⟨h₁, queue, hadd₁, hqueue, hsame₁, -⟩ := list_add_spec h.queue (malloc s.calls) u
  have hfresh₁ := h.sight.walk.not_mem_of_fresh ((malloc s.calls).fresh s.heap)
  have hsight₁ : Chained h₁ s.sight ds (last_word malloc b.seen.length) := by
    refine h.sight.frame fun a ha => hsame₁ a ?_ fun hmem => h.disjoint a hmem ha
    rintro rfl
    exact hfresh₁ ha
  obtain ⟨h₂, sight, hadd₂, hsight, hsame₂, -⟩ :=
    list_add_spec hsight₁ (malloc (s.calls + 1)) u
  have hfresh₂ := hqueue.walk.not_mem_of_fresh ((malloc (s.calls + 1)).fresh h₁)
  -- the queue's new cell is not one of the cells in sight either
  have hdisj : ∀ a ∈ (cs ++ [((malloc s.calls).pick s.heap, u)]).map Prod.fst,
      a ∉ ds.map Prod.fst := by
    intro a ha hmem
    rw [List.map_append, List.mem_append] at ha
    rcases ha with ha | ha
    · exact h.disjoint a ha hmem
    · obtain rfl := List.mem_singleton.mp ha
      exact hfresh₁ hmem
  refine ⟨⟨h₂, queue, sight, s.calls + 2⟩, ?_, _, ds ++ [((malloc (s.calls + 1)).pick h₁, u)], _,
    hqueue.frame ?_, ?_, ?_, ?_, ?_, ?_⟩
  · simp only [enqueue, hadd₁, hadd₂, bind, Except.bind, pure, Except.pure]
  · intro a ha
    refine hsame₂ a ?_ (hdisj a ha)
    rintro rfl
    exact hfresh₂ ha
  · have hlen : ds.length = b.seen.length := by rw [← h.seen, List.length_map]
    rw [List.length_append, List.length_singleton, ← hlen, last_word_length_succ, hlen, ← h.calls]
    exact hsight
  · intro a ha hmem
    rw [List.map_append, List.mem_append] at hmem
    rcases hmem with hmem | hmem
    · exact hdisj a ha hmem
    · obtain rfl := List.mem_singleton.mp hmem
      exact hfresh₂ ha
  · simp [h.queued]
  · simp [h.seen]
  · simp [h.calls]
    omega

/-- **The first node of the queue** is read and taken off. -/
theorem dequeue_spec {s : Scan} {t : Nat} {queue seen : List Nat}
    (h : Carries malloc s ⟨t :: queue, seen⟩) (hfuel : 0 < fuel) :
    s.queue.size > 0 ∧ list_item_at s.heap s.queue 0 = .ok (some t) ∧
      ∃ heap l, list_remove fuel s.heap s.queue t = .ok (heap, l, some t) ∧
        Carries malloc { s with heap := heap, queue := l } ⟨queue, seen⟩ := by
  obtain ⟨cs, ds, q, h⟩ := h
  obtain ⟨⟨a, x⟩, cs, rfl, rfl, hcs⟩ := List.map_eq_cons_iff.mp h.queued
  obtain ⟨l, hremove, hchained⟩ := list_remove_head h.queue hfuel
  refine ⟨?_, ?_, _, l, hremove, cs, ds, q, hchained, h.sight.frame ?_, ?_, hcs, h.seen, h.calls⟩
  · rw [h.queue.size]
    exact Nat.succ_pos _
  · rw [list_item_at_chained h.queue]
    rfl
  · intro b hb
    apply AList.lookup_erase_ne
    rintro rfl
    exact h.disjoint _ List.mem_cons_self hb
  · intro b hb
    exact h.disjoint b (List.mem_cons_of_mem _ hb)

/-- **One connection**: a node in sight is passed over, and one that is not is found
missing only when the end of the list can be read. -/
theorem scan_edge_spec {s : Scan} {b : Bfs.State Nat} (h : Carries malloc s b)
    (hfuel : b.seen.length < fuel) (u : Nat) :
    LostUnless (Readable malloc b.seen.length (Bfs.visit b u).seen.length)
      (scan_edge fuel malloc s u) fun s' => Carries malloc s' (Bfs.visit b u) := by
  have hcarries := h
  obtain ⟨cs, ds, q, h⟩ := h
  have hlen : ds.length < fuel := by
    have := congrArg List.length h.seen
    rw [List.length_map] at this
    omega
  unfold Bfs.visit
  by_cases hu : u ∈ b.seen
  · rw [if_pos hu]
    have hmem : u ∈ ds.map Prod.snd := by rwa [h.seen]
    obtain ⟨pre, a, post, rfl, hnot⟩ := exists_first hmem
    have hpre : pre.length < fuel := by
      rw [List.length_append] at hlen
      omega
    refine LostUnless.of_ok (readable_self malloc _) ?_ hcarries
    simp [scan_edge, list_contains, search_found h.sight.walk hnot hpre, Except.map, bind,
      Except.bind, pure, Except.pure]
  · rw [if_neg hu]
    have hnot : u ∉ ds.map Prod.snd := by rwa [h.seen]
    have hw := h.sight.walk
    have hiff : Readable malloc b.seen.length (b.seen ++ [u]).length ↔
        last_word malloc b.seen.length = .null := by
      rw [List.length_append, List.length_singleton]
      exact readable_succ
    refine LostUnless.congr ⟨fun hnull => ?_, fun hnull => ?_⟩ hiff
    · rw [hnull] at hw
      obtain ⟨s', hs, hcarries⟩ := enqueue_spec hcarries u
      refine ⟨s', ?_, hcarries⟩
      simp [scan_edge, list_contains, search_missing hw hnot hlen, Except.map, bind, Except.bind,
        hs]
    · rw [(last_word_cases malloc _).resolve_left hnull] at hw
      simp [scan_edge, list_contains, search_garbage hw hnot hlen, Except.map, bind, Except.bind]

theorem seen_length_le_visits (b : Bfs.State Nat) (us : List Nat) :
    b.seen.length ≤ (Bfs.visits b us).seen.length := by
  obtain ⟨new, he, -⟩ := Bfs.visits_spec b us
  rw [he, List.length_append]
  exact Nat.le_add_right _ _

/-- **All connections** of a node, in order. -/
theorem scan_edges_spec {s : Scan} {b : Bfs.State Nat} (h : Carries malloc s b) (us : List Nat)
    (hfuel : (Bfs.visits b us).seen.length < fuel) :
    LostUnless (Readable malloc b.seen.length (Bfs.visits b us).seen.length)
      (us.foldlM (scan_edge fuel malloc) s) fun s' => Carries malloc s' (Bfs.visits b us) := by
  induction us generalizing s b with
  | nil => exact LostUnless.of_ok (readable_self malloc _) rfl h
  | cons u us ih =>
    have hle : b.seen.length ≤ (Bfs.visit b u).seen.length := seen_length_le_visits b [u]
    have hle' := seen_length_le_visits (Bfs.visit b u) us
    have hvisits : Bfs.visits b (u :: us) = Bfs.visits (Bfs.visit b u) us := rfl
    rw [hvisits] at hfuel ⊢
    rw [List.foldlM_cons]
    have hedge := scan_edge_spec h (show b.seen.length < fuel by omega) u
    exact (hedge.bind fun s' hs' => ih hs' hfuel).congr (readable_trans hle hle')

/-- **The whole loop** ends as the abstract search does and carries the state it ends in,
or is lost on a word that was not zero. -/
theorem scan_loop_carries {g : Graph} (hg : WellFormed g) {val turns : Nat} {last t : Option Nat}
    {s : Scan} {b b' : Bfs.State Nat} (h : Carries malloc s b)
    (hsearch : Bfs.search (fun u => (g u).connections) (fun u => (g u).data == val) turns last b =
      some (t, b'))
    (hfuel : b'.seen.length < fuel) :
    LostUnless (Readable malloc b.seen.length b'.seen.length)
      (scan_loop fuel malloc g val turns last s) fun r => r.1 = t ∧ Carries malloc r.2 b' := by
  induction turns generalizing last s b with
  | zero => cases hsearch
  | succ turns ih =>
    obtain ⟨queue, seen⟩ := b
    unfold scan_loop
    cases queue with
    | nil =>
      cases hsearch
      have hcarries := h
      obtain ⟨cs, ds, q, h⟩ := h
      have hsize : ¬ s.queue.size > 0 := by
        rw [h.queue.size, List.map_eq_nil_iff.mp h.queued]
        exact Nat.lt_irrefl 0
      rw [if_neg hsize]
      exact LostUnless.of_ok (readable_self malloc _) rfl ⟨rfl, hcarries⟩
    | cons u queue =>
      obtain ⟨hsize, hitem, heap, l, hremove, hcarries⟩ :=
        dequeue_spec h (Nat.lt_of_le_of_lt (Nat.zero_le _) hfuel)
      rw [Bfs.search] at hsearch
      rw [if_pos hsize, hitem]
      simp only [access, hremove, bind, Except.bind]
      -- the loop breaks out at the node it looks for, or goes through its connections
      by_cases hu : (g u).data = val
      · rw [if_pos (by simpa using hu)] at hsearch
        cases hsearch
        rw [if_pos hu]
        exact LostUnless.of_ok (readable_self malloc _) rfl ⟨rfl, hcarries⟩
      · rw [if_neg (by simpa using hu)] at hsearch
        rw [if_neg hu, edges_of_wellFormed hg]
        have hle := seen_length_le_visits ⟨queue, seen⟩ (g u).connections
        have hle' := Bfs.search_seen_length_le hsearch
        have hedges := scan_edges_spec hcarries (g u).connections
          (Nat.lt_of_le_of_lt hle' hfuel)
        exact (hedges.bind fun s' hs' => ih hs' hsearch).congr (readable_trans hle hle')

theorem scan_loop_spec {g : Graph} (hg : WellFormed g) {val turns : Nat} {last t : Option Nat}
    {s : Scan} {b b' : Bfs.State Nat} (h : Carries malloc s b)
    (hsearch : Bfs.search (fun u => (g u).connections) (fun u => (g u).data == val) turns last b =
      some (t, b'))
    (hfuel : b'.seen.length < fuel) :
    LostUnless (Readable malloc b.seen.length b'.seen.length)
      (scan_loop fuel malloc g val turns last s) fun r => r.1 = t :=
  (scan_loop_carries hg h hsearch hfuel).mono fun _ hr => hr.1

end AnonyChat
