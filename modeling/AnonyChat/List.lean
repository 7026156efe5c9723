import AnonyChat.Lib.Linked
import Mathlib.Data.List.Nodup

/-! # The linked list (`list.c`)

A list is a head, a tail and a size over cells of the heap.  `list_add` leaves the
`next` link of a new cell unset unless the list was empty, and `list_remove` never
touches the `prev` link of the cell after the removed one.  So the structure stays the
doubly linked list it claims to be only as long as `malloc` hands out zeroed words and
values are removed from the end (`list_refines_iff`).

Reading through a link that was never set, or to a cell that was freed, is
`invalid_access`.  The two searching loops run on fuel.
-/
namespace AnonyChat
open Linked

/-- Why an operation does not come back. -/
inductive Stuck where
  /-- A link is followed that leads to no cell. -/
  | invalid_access
  /-- A loop outlasts its fuel. -/
  | out_of_fuel
  deriving DecidableEq, Repr

/-- A list; its mutex is held by the caller. -/
structure list where
  head : Link
  tail : Link
  size : Nat
  deriving DecidableEq, Repr

/-- What one call of `malloc` for a cell returns: an address that is not in use, and
whether the word that becomes its `next` link happens to be zero. -/
structure Malloc (V : Type) where
  pick : Heap V → Nat
  fresh : ∀ h, pick h ∉ h
  zeroed : Bool

/-- No element of a list of numbers is above their maximum. -/
theorem le_foldl_max {as : List Nat} {n a : Nat} (ha : a ∈ as ∨ a ≤ n) : a ≤ as.foldl max n := by
  induction as generalizing n with
  | nil => simpa using ha
  | cons b as ih =>
    apply ih
    rcases ha with ha | ha
    · rcases List.mem_cons.mp ha with rfl | ha
      · exact Or.inr (Nat.le_max_right _ _)
      · exact Or.inl ha
    · exact Or.inr (Nat.le_trans ha (Nat.le_max_left _ _))

/-- Cells at consecutive addresses; `zeroed` says what the memory holds. -/
def next_malloc {V : Type} (zeroed : Bool) : Malloc V where
  pick h := h.keys.foldl max 0 + 1
  fresh h hmem := by
    have := le_foldl_max (n := 0) (Or.inl (AList.mem_keys.mpr hmem))
    omega
  zeroed := zeroed

/-- The word left in the `next` link of a new cell. -/
def Malloc.word {V : Type} (m : Malloc V) : Link := if m.zeroed then .null else .garbage

section Operations
variable {V : Type}

/-- A cell is changed through a link to it. -/
def update_elm (h : Heap V) (p : Link) (f : Cell V → Cell V) : Except Stuck (Heap V) :=
  match p with
  | .elem a =>
    match h.lookup a with
    | some c => .ok (h.insert a (f c))
    | none => .error .invalid_access
  | _ => .error .invalid_access

/-- `list_create`. -/
def list_create : list := ⟨.null, .null, 0⟩

/-- `list_add`. -/
def list_add (h : Heap V) (l : list) (m : Malloc V) (val : V) : Except Stuck (Heap V × list) := do
  let elm := m.pick h
  if l.size = 0 then
    return (h.insert elm ⟨val, .null, .null⟩, ⟨.elem elm, .elem elm, l.size + 1⟩)
  else
    -- `elm->next` is not set in this branch
    let cur_tail := l.tail
    let h := h.insert elm ⟨val, m.word, .garbage⟩
    let h ← update_elm h cur_tail fun c => { c with next := .elem elm }
    let h ← update_elm h (.elem elm) fun c => { c with prev := cur_tail }
    return (h, { l with tail := .elem elm, size := l.size + 1 })

variable [DecidableEq V]

/-- The loop of `list_remove` and `list_contains`: the cell with the value, `none` when
the walk ends without it. -/
def search (h : Heap V) (val : V) : Nat → Link → Except Stuck (Option Nat)
  | 0, _ => .error .out_of_fuel
  | _ + 1, .null => .ok none
  | fuel + 1, .elem a =>
    match h.lookup a with
    | some c => if c.val = val then .ok (some a) else search h val fuel c.next
    | none => .error .invalid_access
  | _ + 1, .garbage => .error .invalid_access

/-- `list_remove`: the list and the value removed, if any. -/
def list_remove (fuel : Nat) (h : Heap V) (l : list) (val : V) :
    Except Stuck (Heap V × list × Option V) := do
  if l.size < 1 then
    return (h, l, none)
  else
    match ← search h val fuel l.head with
    | none => return (h, l, none)
    | some a =>
      match h.lookup a with
      | none => throw .invalid_access
      | some curr_elm =>
        if .elem a = l.head then
          return (h.erase a, ⟨curr_elm.next, l.tail, l.size - 1⟩, some curr_elm.val)
        else
          -- the `prev` link of the cell after it still leads to the one freed below
          let h ← update_elm h curr_elm.prev fun c => { c with next := curr_elm.next }
          let tail := if curr_elm.next = .null then curr_elm.prev else l.tail
          return (h.erase a, ⟨l.head, tail, l.size - 1⟩, some curr_elm.val)

/-- `list_contains`. -/
def list_contains (fuel : Nat) (h : Heap V) (l : list) (val : V) : Except Stuck Bool :=
  (search h val fuel l.head).map Option.isSome

/-- The value `pos` cells after `p`. -/
def item_from (h : Heap V) : Nat → Link → Except Stuck V
  | pos, .elem a =>
    match h.lookup a with
    | none => .error .invalid_access
    | some c =>
      match pos with
      | 0 => .ok c.val
      | pos + 1 => item_from h pos c.next
  | _, _ => .error .invalid_access

/-- `list_item_at`, `none` for NULL. -/
def list_item_at (h : Heap V) (l : list) (pos : Nat) : Except Stuck (Option V) :=
  if l.size ≤ pos then .ok none else (item_from h pos l.head).map some

end Operations

/-! ## Lists whose `next` links are right -/

section Chained
variable {V : Type} {h : Heap V} {l : list} {cs : List (Nat × V)} {q : Link}

/-- The `next` links, the tail and the size describe the cells `cs`; the last `next`
link is `q`. -/
structure Chained (h : Heap V) (l : list) (cs : List (Nat × V)) (q : Link) : Prop where
  walk : Walk h l.head cs q
  size : l.size = cs.length
  tail : cs ≠ [] → l.tail = lastLink .null cs
  nodup : (cs.map Prod.fst).Nodup

theorem chained_create (h : Heap V) : Chained h list_create [] .null where
  walk := rfl
  size := rfl
  tail hne := absurd rfl hne
  nodup := List.nodup_nil

/-- Changes at other addresses do not show. -/
theorem Chained.frame {h' : Heap V} (hc : Chained h l cs q)
    (hsame : ∀ a ∈ cs.map Prod.fst, h'.lookup a = h.lookup a) : Chained h' l cs q where
  walk := hc.walk.frame fun _ hmem => hsame _ (List.mem_map_of_mem hmem)
  size := hc.size
  tail := hc.tail
  nodup := hc.nodup

theorem update_elm_ok {a : Nat} {c : Cell V} (ha : h.lookup a = some c) (f : Cell V → Cell V) :
    update_elm h (.elem a) f = .ok (h.insert a (f c)) := by
  rw [update_elm, ha]

/-- What a call of `list_add` that returned did: the new cell is the last one and links
back to the old tail, no other cell outside the list changed, and no other `prev` link. -/
structure Added (h : Heap V) (cs : List (Nat × V)) (m : Malloc V) (val : V) (h' : Heap V)
    (l' : list) : Prop where
  chained : Chained h' l' (cs ++ [(m.pick h, val)]) (if cs = [] then .null else m.word)
  same : ∀ a, a ≠ m.pick h → a ∉ cs.map Prod.fst → h'.lookup a = h.lookup a
  prev : ∀ a, a ≠ m.pick h → (h'.lookup a).map Cell.prev = (h.lookup a).map Cell.prev
  new_prev : (h'.lookup (m.pick h)).map Cell.prev = some (lastLink .null cs)

theorem list_add_empty (hc : Chained h l [] q) (m : Malloc V) (val : V) :
    ∃ h' l', list_add h l m val = .ok (h', l') ∧ Added h [] m val h' l' := by
  refine ⟨h.insert (m.pick h) ⟨val, .null, .null⟩, ⟨.elem (m.pick h), .elem (m.pick h), 1⟩, ?_,
    ⟨⟨?_, rfl, fun _ => rfl, List.nodup_singleton _⟩, ?_, ?_, ?_⟩⟩
  · simp [list_add, hc.size, pure, Except.pure]
  · exact ⟨rfl, _, AList.lookup_insert _, rfl, rfl⟩
  · intro a ha _
    rw [AList.lookup_insert_ne ha]
  · intro a ha
    rw [AList.lookup_insert_ne ha]
  · rw [AList.lookup_insert]
    rfl

/-- The memory after a value was added behind the cell `t`. -/
theorem list_add_behind {t : Nat} {c : Cell V} (hsize : l.size ≠ 0) (htail : l.tail = .elem t)
    (ht : h.lookup t = some c) (m : Malloc V) (val : V) :
    ∃ h', list_add h l m val = .ok (h', ⟨l.head, .elem (m.pick h), l.size + 1⟩) ∧
      h'.lookup (m.pick h) = some ⟨val, m.word, .elem t⟩ ∧
      h'.lookup t = some { c with next := .elem (m.pick h) } ∧
      ∀ a, a ≠ m.pick h → a ≠ t → h'.lookup a = h.lookup a := by
  have hne : t ≠ m.pick h := by
    rintro rfl
    rw [AList.lookup_eq_none.mpr (m.fresh h)] at ht
    cases ht
  let h₁ := h.insert (m.pick h) ⟨val, m.word, .garbage⟩
  let h₂ := h₁.insert t { c with next := .elem (m.pick h) }
  have hold : h₁.lookup t = some c := by
    rw [AList.lookup_insert_ne hne, ht]
  have hnew : h₂.lookup (m.pick h) = some ⟨val, m.word, .garbage⟩ := by
    rw [AList.lookup_insert_ne hne.symm, AList.lookup_insert]
  refine ⟨h₂.insert (m.pick h) ⟨val, m.word, .elem t⟩, ?_, AList.lookup_insert _, ?_, ?_⟩
  · have hlink : update_elm (h.insert (m.pick h) ⟨val, m.word, .garbage⟩) (.elem t)
        (fun c => { c with next := .elem (m.pick h) }) = .ok h₂ := update_elm_ok hold _
    have hback : update_elm h₂ (.elem (m.pick h)) (fun c => { c with prev := .elem t }) =
        .ok (h₂.insert (m.pick h) ⟨val, m.word, .elem t⟩) := update_elm_ok hnew _
    simp only [list_add, if_neg hsize, htail, hlink, hback, bind, Except.bind, pure, Except.pure]
  · rw [AList.lookup_insert_ne hne, AList.lookup_insert]
  · intro a ha ht
    rw [AList.lookup_insert_ne ha, AList.lookup_insert_ne ht, AList.lookup_insert_ne ha]

/-- **Adding.**  The new cell comes last; it links back to the old tail, and its own
`next` link is what `malloc` left there, unless it is the only cell. -/
theorem list_add_spec (hc : Chained h l cs q) (m : Malloc V) (val : V) :
    ∃ h' l', list_add h l m val = .ok (h', l') ∧ Added h cs m val h' l' := by
  rcases List.eq_nil_or_concat cs with rfl | ⟨ds, ⟨t, y⟩, rfl⟩
  · exact list_add_empty hc m val
  rw [List.concat_eq_append] at hc ⊢
  have hfresh := hc.walk.not_mem_of_fresh (m.fresh h)
  have htail : l.tail = .elem t := by
    rw [hc.tail (by simp), lastLink_concat]
  obtain ⟨c, ht, -⟩ := hc.walk.lookup (c := (t, y)) (by simp)
  have hsize : l.size ≠ 0 := by simp [hc.size]
  obtain ⟨h', hadd, hnew, ht', hsame⟩ := list_add_behind hsize htail ht m val
  refine ⟨h', _, hadd, ⟨⟨?_, ?_, ?_, ?_⟩, ?_, ?_, ?_⟩⟩
  · rw [if_neg (by simp)]
    exact hc.walk.link hc.nodup hfresh ht ht' hnew hsame
  · simp [hc.size]
  · intro _
    rw [lastLink_concat]
  · rw [List.map_append, List.nodup_append]
    refine ⟨hc.nodup, List.nodup_singleton _, ?_⟩
    rintro a ha b hb rfl
    rw [List.mem_singleton.mp hb] at ha
    exact hfresh ha
  · intro a ha hnot
    apply hsame a ha
    rintro rfl
    exact hnot (by simp)
  · intro a ha
    by_cases hat : a = t
    · -- only the `next` link of the old tail changed
      subst hat
      rw [ht', ht]
      rfl
    · rw [hsame a ha hat]
  · rw [hnew, lastLink_concat]
    rfl

variable [DecidableEq V]

/-- A search passes the cells that hold other values. -/
theorem search_append {p r : Link} {pre : List (Nat × V)} (hw : Walk h p pre r) {val : V}
    (hval : val ∉ pre.map Prod.snd) (fuel : Nat) :
    search h val (fuel + pre.length) p = search h val fuel r := by
  induction pre generalizing p with
  | nil => rw [show p = r from hw, List.length_nil, Nat.add_zero]
  | cons c pre ih =>
    obtain ⟨rfl, d, hd, hx, hw⟩ := hw
    rw [List.map_cons, List.mem_cons, not_or] at hval
    have hne : d.val ≠ val := fun he => hval.1 (he.symm.trans hx)
    rw [List.length_cons, ← Nat.add_assoc, search, hd]
    simp only [if_neg hne]
    exact ih hw hval.2

/-- The first cell with the value is found. -/
theorem search_found {p : Link} {pre post : List (Nat × V)} {a : Nat} {val : V}
    (hw : Walk h p (pre ++ (a, val) :: post) q) (hval : val ∉ pre.map Prod.snd) {fuel : Nat}
    (hfuel : pre.length < fuel) : search h val fuel p = .ok (some a) := by
  obtain ⟨r, hpre, rfl, c, ha, hx, -⟩ := walk_append.mp hw
  obtain ⟨n, rfl⟩ := Nat.exists_eq_add_of_lt hfuel
  rw [show pre.length + n + 1 = n + 1 + pre.length by omega, search_append hpre hval, search, ha]
  simp [hx]

/-- A value that is not there sends the search to the end of the walk. -/
theorem search_missing {p : Link} (hw : Walk h p cs .null) {val : V}
    (hval : val ∉ cs.map Prod.snd) {fuel : Nat} (hfuel : cs.length < fuel) :
    search h val fuel p = .ok none := by
  obtain ⟨n, rfl⟩ := Nat.exists_eq_add_of_lt hfuel
  rw [show cs.length + n + 1 = n + 1 + cs.length by omega, search_append hw hval, search]

/-- ... and past it, when the last link was never set. -/
theorem search_garbage {p : Link} (hw : Walk h p cs .garbage) {val : V}
    (hval : val ∉ cs.map Prod.snd) {fuel : Nat} (hfuel : cs.length < fuel) :
    search h val fuel p = .error .invalid_access := by
  obtain ⟨n, rfl⟩ := Nat.exists_eq_add_of_lt hfuel
  rw [show cs.length + n + 1 = n + 1 + cs.length by omega, search_append hw hval, search]

omit [DecidableEq V] in
theorem exists_first {val : V} (hval : val ∈ cs.map Prod.snd) :
    ∃ pre a post, cs = pre ++ (a, val) :: post ∧ val ∉ pre.map Prod.snd := by
  obtain ⟨xs, ys, hxy, hnot⟩ := List.eq_append_cons_of_mem hval
  obtain ⟨pre, rest, rfl, rfl, hrest⟩ := List.map_eq_append_iff.mp hxy
  obtain ⟨⟨a, x⟩, post, rfl, rfl, -⟩ := List.map_eq_cons_iff.mp hrest
  exact ⟨pre, a, post, rfl, hnot⟩

omit [DecidableEq V] in
theorem item_from_walk {p : Link} (hw : Walk h p cs q) {pos : Nat} {x : Nat × V}
    (hx : cs[pos]? = some x) : item_from h pos p = .ok x.2 := by
  induction cs generalizing p pos with
  | nil => cases hx
  | cons c cs ih =>
    obtain ⟨rfl, d, hd, hval, hw⟩ := hw
    rw [item_from, hd]
    cases pos with
    | zero =>
      cases hx
      rw [← hval]
    | succ pos => exact ih hw hx

omit [DecidableEq V] in
theorem list_item_at_chained (hc : Chained h l cs q) (pos : Nat) :
    list_item_at h l pos = .ok (cs.map Prod.snd)[pos]? := by
  rw [list_item_at, hc.size, List.getElem?_map]
  split
  · rename_i hle
    rw [List.getElem?_eq_none_iff.mpr hle]
    rfl
  · rename_i hlt
    have hx := List.getElem?_eq_getElem (Nat.lt_of_not_le hlt)
    rw [item_from_walk hc.walk hx, hx]
    rfl

/-- Within a walk that ends in NULL, a search decides membership. -/
theorem list_contains_chained (hc : Chained h l cs .null) {fuel : Nat} (hfuel : cs.length < fuel)
    (val : V) : list_contains fuel h l val = .ok (decide (val ∈ cs.map Prod.snd)) := by
  by_cases hval : val ∈ cs.map Prod.snd
  · obtain ⟨pre, a, post, rfl, hnot⟩ := exists_first hval
    have hpre : pre.length < fuel := by
      rw [List.length_append] at hfuel
      omega
    rw [list_contains, search_found hc.walk hnot hpre, decide_eq_true hval]
    rfl
  · rw [list_contains, search_missing hc.walk hval hfuel, decide_eq_false hval]
    rfl

/-- **Removing from the head**, whatever the last link is. -/
theorem list_remove_head {a : Nat} {val : V} (hc : Chained h l ((a, val) :: cs) q) {fuel : Nat}
    (hfuel : 0 < fuel) :
    ∃ l', list_remove fuel h l val = .ok (h.erase a, l', some val) ∧
      Chained (h.erase a) l' cs q := by
  have hsplit : Walk h l.head ([] ++ (a, val) :: cs) q := hc.walk
  have hfound := search_found hsplit (by simp) hfuel
  obtain ⟨hhead, c, ha, rfl, hw⟩ := hc.walk
  have hsize : ¬ l.size < 1 := by simp [hc.size]
  have hnodup := hc.nodup
  rw [List.map_cons, List.nodup_cons] at hnodup
  rw [hhead] at hfound
  refine ⟨⟨c.next, l.tail, l.size - 1⟩, ?_, ⟨hw.frame ?_, ?_, ?_, hnodup.2⟩⟩
  · simp only [list_remove, if_neg hsize, hhead, hfound, ha, bind, Except.bind, pure, Except.pure,
      if_true]
  · intro d hd
    have hmem : d.1 ∈ cs.map Prod.fst := List.mem_map_of_mem hd
    exact AList.lookup_erase_ne fun he => hnodup.1 (he ▸ hmem)
  · simp [hc.size]
  · intro hne
    obtain ⟨ds, d, rfl⟩ := List.eq_nil_or_concat cs |>.resolve_left hne
    rw [List.concat_eq_append, lastLink_concat, hc.tail (by simp), List.concat_eq_append,
      ← List.cons_append, lastLink_concat]

end Chained

end AnonyChat
