import AnonyChat.List
import Mathlib.Data.List.Induction

/-! # The linked list against a sequence

`list_add` should append and `list_remove` delete the first occurrence.  The chain of
`next` links stays right whatever is removed; what goes wrong is the new cell's `next`
link, which `list_add` does not set, and the `prev` link of the cell after a removed
one, which `list_remove` does not update.  `list_refines_iff` turns this into the exact
condition on the operations.
-/
namespace AnonyChat
open Linked

variable {V : Type} [DecidableEq V]

/-- The list is doubly linked through the cells `cs`, and its last link is NULL. -/
structure Rep (h : Heap V) (l : list) (cs : List (Nat × V)) : Prop where
  chained : Chained h l cs .null
  back : Back h .null cs

/-- The list stands for the sequence: `next` from the head passes it and ends in NULL,
`prev` leads back, the size and the tail are right, and every link leads to one of these
cells or is NULL. -/
def Represents (h : Heap V) (l : list) (xs : List V) : Prop :=
  ∃ cs, Rep h l cs ∧ cs.map Prod.snd = xs

/-- The list stands for the sequence, and reading it at any position or looking for any
value gives what the sequence gives. -/
structure Agrees (fuel : Nat) (h : Heap V) (l : list) (xs : List V) : Prop where
  represents : Represents h l xs
  item_at : ∀ pos, list_item_at h l pos = .ok xs[pos]?
  contains : ∀ val, list_contains fuel h l val = .ok (decide (val ∈ xs))

section Reading
variable {h : Heap V} {l : list}

theorem agrees_of_represents {fuel : Nat} {xs : List V} (hr : Represents h l xs)
    (hfuel : xs.length < fuel) : Agrees fuel h l xs := by
  obtain ⟨cs, hrep, rfl⟩ := hr
  rw [List.length_map] at hfuel
  exact ⟨⟨cs, hrep, rfl⟩, list_item_at_chained hrep.chained,
    list_contains_chained hrep.chained hfuel⟩

end Reading

/-! ## One operation -/

section Steps
variable {h : Heap V} {l : list} {cs pre post : List (Nat × V)} {a : Nat} {val : V} {fuel : Nat}

omit [DecidableEq V] in
/-- **Adding** keeps the list right exactly when it was empty or `malloc` left a zero. -/
theorem list_add_represents (hr : Rep h l cs) (m : Malloc V) (val : V) :
    ∃ h' l', list_add h l m val = .ok (h', l') ∧
      (Represents h' l' (cs.map Prod.snd ++ [val]) ↔ cs = [] ∨ m.zeroed = true) := by
  obtain ⟨h', l', hadd, hc, hsame, hprev, hnew⟩ := list_add_spec hr.chained m val
  refine ⟨h', l', hadd, ?_⟩
  constructor
  · -- both walks pass the same cells, so they end in the same link
    rintro ⟨ds, hds, hmap⟩
    have hlen : ds.length = (cs ++ [(m.pick h, val)]).length := by
      have := congrArg List.length hmap
      simpa using this
    obtain rfl := hds.chained.walk.eq_of_length hc.walk hlen
    have hend := hc.walk.end_eq hds.chained.walk
    by_cases hnil : cs = []
    · exact Or.inl hnil
    · rw [if_neg hnil, Malloc.word] at hend
      split at hend
      · rename_i hz
        exact Or.inr hz
      · cases hend
  · intro hcond
    have hnull : (if cs = [] then Link.null else m.word) = .null := by
      rcases hcond with rfl | hz
      · rfl
      · rw [Malloc.word, if_pos hz, ite_self]
    rw [hnull] at hc
    refine ⟨_, ⟨hc, back_append.mpr ⟨hr.back.frame ?_, hnew, trivial⟩⟩, by simp⟩
    intro c hmem
    refine hprev c.1 fun he => ?_
    have := hr.chained.walk.not_mem_of_fresh (m.fresh h)
    exact this (he ▸ List.mem_map_of_mem hmem)

omit [DecidableEq V] in
/-- The tail `list_remove` sets when it took the cell behind `p` out. -/
theorem tail_behind {p : Nat} {y : V} {next : Link} (hpost : Walk h next post .null)
    (htail : l.tail = lastLink .null (pre ++ (p, y) :: (a, val) :: post)) :
    (if next = .null then .elem p else l.tail) = lastLink .null (pre ++ (p, y) :: post) := by
  rw [htail, lastLink_append, lastLink_append]
  cases post with
  | nil => rw [if_pos (show next = .null from hpost)]; rfl
  | cons d post =>
    have hne : next ≠ .null := by
      rw [hpost.1]
      nofun
    rw [if_neg hne]
    rfl

/-- The memory after the cell behind `p` was removed. -/
theorem list_remove_behind {p : Nat} {y : V}
    (hc : Chained h l (pre ++ (p, y) :: (a, val) :: post) .null)
    (hprev : (h.lookup a).map Cell.prev = some (.elem p))
    (hval : val ∉ (pre ++ [(p, y)]).map Prod.snd) (hfuel : pre.length + 1 < fuel) :
    ∃ h' l', list_remove fuel h l val = .ok (h', l', some val) ∧
      Chained h' l' (pre ++ (p, y) :: post) .null ∧
      ∀ b, b ≠ a → (h'.lookup b).map Cell.prev = (h.lookup b).map Cell.prev := by
  have hw : Walk h l.head (pre ++ [(p, y)] ++ (a, val) :: post) .null := by
    rw [List.append_assoc]
    exact hc.walk
  have hfound := search_found hw hval (by simpa using hfuel)
  obtain ⟨r, -, rfl, cp, hp, -, -, ca, ha, rfl, hpost⟩ := walk_append.mp hc.walk
  rw [ha] at hprev
  have hback : ca.prev = .elem p := Option.some.inj hprev
  have hsize : ¬ l.size < 1 := by simp [hc.size]
  have hhead : ¬ Link.elem a = l.head := by
    intro he
    cases pre with
    | nil => exact hc.walk.start_ne hc.nodup List.mem_cons_self he.symm
    | cons d pre => exact hc.walk.start_ne hc.nodup (c := (a, ca.val)) (by simp) he.symm
  have hlink : update_elm h (.elem p) (fun c => { c with next := ca.next }) =
      .ok (h.insert p { cp with next := ca.next }) := update_elm_ok hp _
  have hkept : (pre ++ (p, y) :: post).Sublist (pre ++ (p, y) :: (a, ca.val) :: post) :=
    List.Sublist.append_left (List.Sublist.cons_cons _ (List.sublist_cons_self _ _)) pre
  refine ⟨(h.insert p { cp with next := ca.next }).erase a,
    ⟨l.head, if ca.next = .null then .elem p else l.tail, l.size - 1⟩, ?_,
    ⟨hc.walk.unlink hc.nodup hp ha, ?_, ?_, hc.nodup.sublist (hkept.map _)⟩, ?_⟩
  · simp only [list_remove, if_neg hsize, hfound, ha, if_neg hhead, hback, hlink, bind,
      Except.bind, pure, Except.pure]
  · simp [hc.size]
  · intro _
    exact tail_behind hpost (hc.tail (by simp))
  · intro b hb
    rw [AList.lookup_erase_ne hb, prev_insert_next hp]

/-- **Removing** keeps the chain of `next` links and every other `prev` link. -/
theorem list_remove_found (hr : Rep h l (pre ++ (a, val) :: post))
    (hval : val ∉ pre.map Prod.snd) (hfuel : pre.length < fuel) :
    ∃ h' l', list_remove fuel h l val = .ok (h', l', some val) ∧
      Chained h' l' (pre ++ post) .null ∧
      ∀ b, b ≠ a → (h'.lookup b).map Cell.prev = (h.lookup b).map Cell.prev := by
  rcases List.eq_nil_or_concat pre with rfl | ⟨pre, ⟨p, y⟩, rfl⟩
  · obtain ⟨l', hremove, hc⟩ := list_remove_head hr.chained (by simpa using hfuel)
    exact ⟨_, l', hremove, hc, fun b hb => by rw [AList.lookup_erase_ne hb]⟩
  · rw [List.concat_eq_append] at hr hval hfuel ⊢
    have hprev := (back_append.mp hr.back).2.1
    rw [lastLink_concat] at hprev
    have hc := hr.chained
    rw [List.append_assoc] at hc ⊢
    exact list_remove_behind hc hprev hval (by simpa using hfuel)

omit [DecidableEq V] in
/-- What is left of the list is doubly linked exactly when nothing followed the cell. -/
theorem represents_removed_iff (hr : Rep h l (pre ++ (a, val) :: post)) {h' : Heap V} {l' : list}
    (hc : Chained h' l' (pre ++ post) .null)
    (hprev : ∀ b, b ≠ a → (h'.lookup b).map Cell.prev = (h.lookup b).map Cell.prev) :
    Represents h' l' ((pre ++ post).map Prod.snd) ↔ post = [] := by
  have hnodup := hr.chained.nodup
  simp only [List.map_append, List.map_cons, List.nodup_append, List.nodup_cons, List.mem_cons]
    at hnodup
  obtain ⟨-, ⟨hapost, -⟩, hdisj⟩ := hnodup
  obtain ⟨hpre, -, hpost⟩ := back_append.mp hr.back
  have hother : ∀ c ∈ pre ++ post, c.1 ≠ a := by
    rintro c hmem rfl
    rcases List.mem_append.mp hmem with hmem | hmem
    · exact hdisj c.1 (List.mem_map_of_mem hmem) c.1 (Or.inl rfl) rfl
    · exact hapost (List.mem_map_of_mem hmem)
  constructor
  · rintro ⟨ds, hds, hmap⟩
    have hlen : (pre ++ post).length = ds.length := by
      have := congrArg List.length hmap
      rw [List.length_map, List.length_map] at this
      exact this.symm
    obtain rfl := hc.walk.eq_of_length hds.chained.walk hlen
    cases post with
    | nil => rfl
    | cons b post =>
      -- the cell after the removed one links back to it
      obtain ⟨hnew, -⟩ := (back_append.mp hds.back).2
      rw [hprev b.1 (hother b (by simp)), hpost.1] at hnew
      rcases List.eq_nil_or_concat pre with rfl | ⟨pre, d, rfl⟩
      · cases hnew
      · rw [List.concat_eq_append, lastLink_concat] at hnew
        exact absurd (Link.elem.inj (Option.some.inj hnew)).symm (hother d (by simp))
  · rintro rfl
    refine ⟨_, ⟨hc, ?_⟩, rfl⟩
    rw [List.append_nil]
    refine hpre.frame fun c hmem => hprev c.1 (hother c (List.mem_append_left _ hmem))

/-- **Removing** keeps the list right exactly when the value does not stand before the
last position. -/
theorem list_remove_represents (hr : Rep h l cs) (val : V) (hfuel : cs.length < fuel) :
    ∃ h' l' ret, list_remove fuel h l val = .ok (h', l', ret) ∧
      (Represents h' l' ((cs.map Prod.snd).erase val) ↔ val ∉ (cs.map Prod.snd).dropLast) := by
  by_cases hval : val ∈ cs.map Prod.snd
  · obtain ⟨pre, a, post, rfl, hnot⟩ := exists_first hval
    have hpre : pre.length < fuel := by
      rw [List.length_append] at hfuel
      omega
    obtain ⟨h', l', hremove, hc, hprev⟩ := list_remove_found hr hnot hpre
    refine ⟨h', l', some val, hremove, ?_⟩
    have herase : ((pre ++ (a, val) :: post).map Prod.snd).erase val =
        (pre ++ post).map Prod.snd := by
      rw [List.map_append, List.map_cons, List.erase_append_right _ hnot, List.erase_cons_head,
        List.map_append]
    rw [herase, represents_removed_iff hr hc hprev, List.map_append, List.map_cons]
    cases post with
    | nil => simpa using hnot
    | cons b post => simp [List.dropLast_append_of_ne_nil]
  · refine ⟨h, l, none, ?_, ?_⟩
    · unfold list_remove
      split
      · rfl
      · simp [search_missing hr.chained.walk hval hfuel, bind, Except.bind, pure, Except.pure]
    · rw [List.erase_of_not_mem hval]
      exact iff_of_true ⟨cs, hr, rfl⟩ fun hmem => hval ((List.dropLast_sublist _).subset hmem)

end Steps

/-! ## Sequences of operations -/

/-- A call on the list. -/
inductive ListOp (V : Type) where
  | add (m : Malloc V) (val : V)
  | remove (val : V)

/-- What a call does to the memory and the list. -/
def list_op (fuel : Nat) (s : Heap V × list) : ListOp V → Except Stuck (Heap V × list)
  | .add m val => list_add s.1 s.2 m val
  | .remove val => (list_remove fuel s.1 s.2 val).map fun r => (r.1, r.2.1)

/-- A sequence of calls on the list `list_create` returned. -/
def list_ops (fuel : Nat) (h : Heap V) (ops : List (ListOp V)) : Except Stuck (Heap V × list) :=
  ops.foldlM (list_op fuel) (h, list_create)

/-- What a call should do to the sequence. -/
def denote_op (xs : List V) : ListOp V → List V
  | .add _ val => xs ++ [val]
  | .remove val => xs.erase val

/-- The sequence a list should stand for after the calls. -/
def denote (ops : List (ListOp V)) : List V := ops.foldl denote_op []

/-- The calls that leave the links right: a value is added to an empty sequence or
into zeroed memory; a value removed does not stand before the last position. -/
def Harmless (xs : List V) : ListOp V → Prop
  | .add m _ => xs = [] ∨ m.zeroed = true
  | .remove val => val ∉ xs.dropLast

/-- After the calls the list stands for the sequence. -/
def Refines (fuel : Nat) (h : Heap V) (ops : List (ListOp V)) : Prop :=
  ∃ h' l, list_ops fuel h ops = .ok (h', l) ∧ Agrees fuel h' l (denote ops)

theorem denote_length_le (ops : List (ListOp V)) : (denote ops).length ≤ ops.length := by
  induction ops using List.reverseRecOn with
  | nil => exact Nat.le_refl 0
  | append_singleton ops op ih =>
    rw [denote, List.foldl_append, ← denote, List.length_append]
    cases op with
    | add m val => simpa [denote_op] using ih
    | remove val =>
      have := List.length_erase_le (a := val) (l := denote ops)
      simp only [List.foldl_cons, List.foldl_nil, denote_op, List.length_singleton]
      omega

theorem refines_nil {fuel : Nat} (h : Heap V) (hfuel : 0 < fuel) : Refines fuel h [] :=
  ⟨h, list_create, rfl, agrees_of_represents ⟨[], ⟨chained_create h, trivial⟩, rfl⟩ hfuel⟩

/-- One more call refines the sequence exactly when it is harmless. -/
theorem refines_concat_iff {fuel : Nat} {h : Heap V} {ops : List (ListOp V)} {op : ListOp V}
    (hr : Refines fuel h ops) (hfuel : ops.length + 1 < fuel) :
    Refines fuel h (ops ++ [op]) ↔ Harmless (denote ops) op := by
  obtain ⟨h', l, hrun, ⟨cs, hrep, hcs⟩, -, -⟩ := hr
  have hlen := denote_length_le ops
  have hdenote : denote (ops ++ [op]) = denote_op (denote ops) op := by
    rw [denote, List.foldl_append]
    rfl
  have hnext : list_ops fuel h (ops ++ [op]) = list_op fuel (h', l) op := by
    rw [list_ops, List.foldlM_append, ← list_ops, hrun]
    cases hop : list_op fuel (h', l) op <;> simp [bind, Except.bind, hop, pure, Except.pure]
  have hbound : (denote_op (denote ops) op).length < fuel := by
    have := denote_length_le (ops ++ [op])
    rw [hdenote, List.length_append, List.length_singleton] at this
    omega
  rw [Refines, hdenote, hnext]
  have hstep : ∃ h₂ l₂, list_op fuel (h', l) op = .ok (h₂, l₂) ∧
      (Represents h₂ l₂ (denote_op (denote ops) op) ↔ Harmless (denote ops) op) := by
    rw [← hcs]
    cases op with
    | add m val =>
      obtain ⟨h₂, l₂, hadd, hiff⟩ := list_add_represents hrep m val
      exact ⟨h₂, l₂, hadd, by simpa [Harmless, denote_op] using hiff⟩
    | remove val =>
      have hcsfuel : cs.length < fuel := by
        rw [← hcs, List.length_map] at hlen
        omega
      obtain ⟨h₂, l₂, ret, hremove, hiff⟩ := list_remove_represents hrep val hcsfuel
      exact ⟨h₂, l₂, by rw [list_op, hremove]; rfl, hiff⟩
  obtain ⟨h₂, l₂, hop, hiff⟩ := hstep
  rw [hop, ← hiff]
  constructor
  · rintro ⟨h₃, l₃, he, hagree⟩
    cases he
    exact hagree.represents
  · intro hrepr
    exact ⟨h₂, l₂, rfl, agrees_of_represents hrepr hbound⟩

end AnonyChat
