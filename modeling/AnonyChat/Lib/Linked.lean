import Mathlib.Data.List.AList

/-! # Linked cells in a heap

Doubly linked cells at addresses of a finite heap.  Two predicates read a heap:
`Walk h p cs q` says that following `next` from `p` passes exactly the cells `cs` and
arrives at `q`, and `Back h prev cs` that each of these cells has its predecessor (or
`prev`, for the first) in its other link.  Both split at any point, and neither notices
changes at other addresses.
-/
namespace Linked

/-- The content of a link. -/
inductive Link where
  | null
  | elem (a : Nat)
  /-- A word that was never set, and does not happen to be `null`. -/
  | garbage
  deriving DecidableEq, Repr

/-- A cell. -/
structure Cell (V : Type) where
  val : V
  next : Link
  prev : Link
  deriving DecidableEq, Repr

/-- The cells that are allocated. -/
abbrev Heap (V : Type) := AList fun _ : Nat => Cell V

variable {V : Type}

/-- Following `next` from `p` passes the cells `cs`, each an address and the value
there, and arrives at `q`. -/
def Walk (h : Heap V) (p : Link) : List (Nat × V) → Link → Prop
  | [], q => p = q
  | (a, x) :: cs, q => p = .elem a ∧ ∃ c, h.lookup a = some c ∧ c.val = x ∧ Walk h c.next cs q

/-- The link to the last of the cells, `prev` when there is none. -/
def lastLink (prev : Link) : List (Nat × V) → Link
  | [] => prev
  | (a, _) :: cs => lastLink (.elem a) cs

/-- Each cell links back to the one before it, the first to `prev`. -/
def Back (h : Heap V) (prev : Link) : List (Nat × V) → Prop
  | [] => True
  | (a, _) :: cs => (h.lookup a).map Cell.prev = some prev ∧ Back h (.elem a) cs

section Split

theorem walk_append {h : Heap V} {p q : Link} {cs ds : List (Nat × V)} :
    Walk h p (cs ++ ds) q ↔ ∃ r, Walk h p cs r ∧ Walk h r ds q := by
  induction cs generalizing p with
  | nil => simp [Walk]
  | cons c cs ih =>
    simp only [List.cons_append, Walk, ih]
    constructor
    · rintro ⟨rfl, d, hd, hx, r, hcs, hds⟩
      exact ⟨r, ⟨rfl, d, hd, hx, hcs⟩, hds⟩
    · rintro ⟨r, ⟨rfl, d, hd, hx, hcs⟩, hds⟩
      exact ⟨rfl, d, hd, hx, r, hcs, hds⟩

theorem lastLink_append (prev : Link) (cs ds : List (Nat × V)) :
    lastLink prev (cs ++ ds) = lastLink (lastLink prev cs) ds := by
  induction cs generalizing prev with
  | nil => rfl
  | cons c cs ih => exact ih (.elem c.1)

theorem lastLink_concat (prev : Link) (cs : List (Nat × V)) (c : Nat × V) :
    lastLink prev (cs ++ [c]) = .elem c.1 := by
  rw [lastLink_append]
  rfl

theorem back_append {h : Heap V} {prev : Link} {cs ds : List (Nat × V)} :
    Back h prev (cs ++ ds) ↔ Back h prev cs ∧ Back h (lastLink prev cs) ds := by
  induction cs generalizing prev with
  | nil => simp [Back, lastLink]
  | cons c cs ih => simp [Back, lastLink, ih, and_assoc]

/-- Only the last link decides where a walk ends. -/
theorem Walk.end_eq {h : Heap V} {p q r : Link} {cs : List (Nat × V)} (hq : Walk h p cs q)
    (hr : Walk h p cs r) : q = r := by
  induction cs generalizing p with
  | nil => exact hq.symm.trans hr
  | cons c cs ih =>
    obtain ⟨-, d, hd, -, hq⟩ := hq
    obtain ⟨-, d', hd', -, hr⟩ := hr
    rw [hd] at hd'
    cases hd'
    exact ih hq hr

/-- Two walks from one link pass the same cells as far as both go. -/
theorem Walk.eq_of_length {h : Heap V} {p q r : Link} {cs ds : List (Nat × V)}
    (hc : Walk h p cs q) (hd : Walk h p ds r) (hlen : cs.length = ds.length) : cs = ds := by
  induction cs generalizing p ds with
  | nil => exact (List.eq_nil_of_length_eq_zero hlen.symm).symm
  | cons c cs ih =>
    cases ds with
    | nil => cases hlen
    | cons d ds =>
      obtain ⟨a, x⟩ := c
      obtain ⟨b, y⟩ := d
      obtain ⟨rfl, e, he, rfl, hc⟩ := hc
      obtain ⟨hab, e', he', rfl, hd⟩ := hd
      obtain rfl := Link.elem.inj hab
      rw [he] at he'
      cases he'
      rw [ih hc hd (Nat.succ.inj hlen)]

end Split

section Frame
variable {h h' : Heap V}

/-- Changes at other addresses do not show. -/
theorem Walk.frame {p q : Link} {cs : List (Nat × V)} (hw : Walk h p cs q)
    (hsame : ∀ c ∈ cs, h'.lookup c.1 = h.lookup c.1) : Walk h' p cs q := by
  induction cs generalizing p with
  | nil => exact hw
  | cons c cs ih =>
    obtain ⟨rfl, d, hd, hx, hw⟩ := hw
    refine ⟨rfl, d, ?_, hx, ih hw fun c hc => hsame c (List.mem_cons_of_mem _ hc)⟩
    rw [hsame _ List.mem_cons_self, hd]

/-- Changes of other links do not show. -/
theorem Back.frame {prev : Link} {cs : List (Nat × V)} (hb : Back h prev cs)
    (hsame : ∀ c ∈ cs, (h'.lookup c.1).map Cell.prev = (h.lookup c.1).map Cell.prev) :
    Back h' prev cs := by
  induction cs generalizing prev with
  | nil => trivial
  | cons c cs ih =>
    obtain ⟨hprev, hb⟩ := hb
    exact ⟨(hsame _ List.mem_cons_self).trans hprev,
      ih hb fun c hc => hsame c (List.mem_cons_of_mem _ hc)⟩

/-- Every cell passed is allocated. -/
theorem Walk.lookup {p q : Link} {cs : List (Nat × V)} (hw : Walk h p cs q) {c : Nat × V}
    (hc : c ∈ cs) : ∃ d, h.lookup c.1 = some d ∧ d.val = c.2 := by
  induction cs generalizing p with
  | nil => cases hc
  | cons b cs ih =>
    obtain ⟨-, d, hd, hx, hw⟩ := hw
    rcases List.mem_cons.mp hc with rfl | hc
    · exact ⟨d, hd, hx⟩
    · exact ih hw hc

theorem Walk.not_mem_of_fresh {p q : Link} {cs : List (Nat × V)} (hw : Walk h p cs q) {a : Nat}
    (ha : a ∉ h) : a ∉ cs.map Prod.fst := by
  rintro hmem
  obtain ⟨c, hc, rfl⟩ := List.mem_map.mp hmem
  obtain ⟨d, hd, -⟩ := hw.lookup hc
  rw [AList.lookup_eq_none.mpr ha] at hd
  cases hd

/-- A walk starts at no cell but its first. -/
theorem Walk.start_ne {p q : Link} {b c : Nat × V} {cs : List (Nat × V)}
    (hw : Walk h p (b :: cs) q) (hnodup : ((b :: cs).map Prod.fst).Nodup) (hc : c ∈ cs) :
    p ≠ .elem c.1 := by
  rw [hw.1]
  intro he
  rw [List.map_cons, List.nodup_cons] at hnodup
  exact hnodup.1 (Link.elem.inj he ▸ List.mem_map_of_mem hc)

end Frame

/-! ## Linking and unlinking a cell -/

section Link
variable {h h' : Heap V}

/-- A new cell is put behind the last one of a walk. -/
theorem Walk.link {s q : Link} {cs : List (Nat × V)} {t n : Nat} {y : V} {ct cn : Cell V}
    (hw : Walk h s (cs ++ [(t, y)]) q) (hnodup : ((cs ++ [(t, y)]).map Prod.fst).Nodup)
    (hfresh : n ∉ (cs ++ [(t, y)]).map Prod.fst) (ht : h.lookup t = some ct)
    (ht' : h'.lookup t = some { ct with next := .elem n }) (hn : h'.lookup n = some cn)
    (hsame : ∀ a, a ≠ n → a ≠ t → h'.lookup a = h.lookup a) :
    Walk h' s (cs ++ [(t, y)] ++ [(n, cn.val)]) cn.next := by
  obtain ⟨r, hcs, rfl, ct', hct, hy, -⟩ := walk_append.mp hw
  rw [ht] at hct
  cases hct
  rw [List.map_append, List.nodup_append] at hnodup
  rw [List.map_append, List.mem_append, not_or] at hfresh
  refine walk_append.mpr ⟨.elem n, walk_append.mpr ⟨.elem t, hcs.frame ?_, ?_⟩, ?_⟩
  · intro d hd
    have hmem : d.1 ∈ cs.map Prod.fst := List.mem_map_of_mem hd
    exact hsame d.1 (fun he => hfresh.1 (he ▸ hmem)) (hnodup.2.2 d.1 hmem t (by simp))
  · exact ⟨rfl, _, ht', hy, rfl⟩
  · exact ⟨rfl, _, hn, rfl, rfl⟩

/-- Changing a `next` link changes no `prev` link. -/
theorem prev_insert_next {p : Nat} {c : Cell V} (hp : h.lookup p = some c) (q : Link) (b : Nat) :
    ((h.insert p { c with next := q }).lookup b).map Cell.prev = (h.lookup b).map Cell.prev := by
  by_cases hbp : b = p
  · subst hbp
    rw [AList.lookup_insert, hp]
    rfl
  · rw [AList.lookup_insert_ne hbp]

/-- A cell is taken out of a walk by linking the cell before it to the one after. -/
theorem Walk.unlink {s q : Link} {pre post : List (Nat × V)} {p a : Nat} {x y : V}
    {cp ca : Cell V} (hw : Walk h s (pre ++ (p, y) :: (a, x) :: post) q)
    (hnodup : ((pre ++ (p, y) :: (a, x) :: post).map Prod.fst).Nodup)
    (hp : h.lookup p = some cp) (ha : h.lookup a = some ca) :
    Walk ((h.insert p { cp with next := ca.next }).erase a) s (pre ++ (p, y) :: post) q := by
  obtain ⟨r, hpre, rfl, cp', hp', hy, hnext, ca', ha', -, hpost⟩ := walk_append.mp hw
  rw [hp] at hp'
  rw [ha] at ha'
  cases hp'
  cases ha'
  simp only [List.map_append, List.map_cons, List.nodup_append, List.nodup_cons, List.mem_cons,
    not_or] at hnodup
  obtain ⟨-, ⟨⟨hpa, hppost⟩, hapost, -⟩, hdisj⟩ := hnodup
  -- the cells before and after lie at other addresses than the two that change
  have hother : ∀ {b}, b ≠ a → b ≠ p →
      ((h.insert p { cp with next := ca.next }).erase a).lookup b = h.lookup b := by
    intro b hba hbp
    rw [AList.lookup_erase_ne hba, AList.lookup_insert_ne hbp]
  refine walk_append.mpr ⟨.elem p, hpre.frame ?_, rfl, { cp with next := ca.next }, ?_, hy,
    hpost.frame ?_⟩
  · intro d hd
    have hmem : d.1 ∈ pre.map Prod.fst := List.mem_map_of_mem hd
    exact hother (hdisj d.1 hmem a (Or.inr (Or.inl rfl))) (hdisj d.1 hmem p (Or.inl rfl))
  · rw [AList.lookup_erase_ne hpa, AList.lookup_insert]
  · intro d hd
    have hmem : d.1 ∈ post.map Prod.fst := List.mem_map_of_mem hd
    exact hother (fun he => hapost (he ▸ hmem)) (fun he => hppost (he ▸ hmem))

end Link

end Linked
