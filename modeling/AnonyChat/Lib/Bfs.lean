import Mathlib.Logic.Relation
import Mathlib.Data.List.Nodup
import Mathlib.Data.List.Perm.Subperm

/-! # Breadth-first search

The search keeps a queue of nodes to look at and the list of nodes it has seen.  It
takes nodes off the queue until one of them is what it is looking for or none is left.
`search_spec` says what it finds: such a node if and only if one can be reached, on any
graph with finitely many reachable nodes.
-/
namespace Bfs
variable {V : Type} [DecidableEq V]

/-- The nodes to look at, and the nodes seen. -/
structure State (V : Type) where
  queue : List V
  seen : List V
  deriving DecidableEq, Repr

/-- A neighbour that was not seen before is queued. -/
def visit (s : State V) (w : V) : State V :=
  if w ∈ s.seen then s else ⟨s.queue ++ [w], s.seen ++ [w]⟩

/-- All neighbours of a node, in order. -/
def visits (s : State V) (ws : List V) : State V := ws.foldl visit s

/-- The search: the node looked at last, and the state it ends in. -/
def search (nbrs : V → List V) (stop : V → Bool) :
    Nat → Option V → State V → Option (Option V × State V)
  | 0, _, _ => none
  | _ + 1, last, ⟨[], seen⟩ => some (last, ⟨[], seen⟩)
  | fuel + 1, _, ⟨t :: queue, seen⟩ =>
    if stop t then some (some t, ⟨queue, seen⟩)
    else search nbrs stop fuel (some t) (visits ⟨queue, seen⟩ (nbrs t))

/-- What visiting one neighbour adds. -/
theorem visit_spec (s : State V) (w : V) :
    ∃ new, visit s w = ⟨s.queue ++ new, s.seen ++ new⟩ ∧
      (s.seen.Nodup → (s.seen ++ new).Nodup) ∧ w ∈ s.seen ++ new ∧ ∀ v ∈ new, v = w := by
  by_cases hw : w ∈ s.seen
  · exact ⟨[], by simp [visit, hw], by simp, by simpa using hw, by simp⟩
  · refine ⟨[w], by simp [visit, hw], ?_, by simp, by simp⟩
    intro hs
    refine List.nodup_append.mpr ⟨hs, List.nodup_singleton _, ?_⟩
    rintro v hv u hu rfl
    exact hw (List.mem_singleton.mp hu ▸ hv)

/-- What visiting the neighbours of a node adds. -/
theorem visits_spec (s : State V) (ws : List V) :
    ∃ new, visits s ws = ⟨s.queue ++ new, s.seen ++ new⟩ ∧
      (s.seen.Nodup → (s.seen ++ new).Nodup) ∧ (∀ w ∈ ws, w ∈ s.seen ++ new) ∧
      ∀ w ∈ new, w ∈ ws := by
  induction ws generalizing s with
  | nil => exact ⟨[], by simp [visits], by simp, by simp, by simp⟩
  | cons w ws ih =>
    obtain ⟨one, hone, hnodup₁, hw, hmem₁⟩ := visit_spec s w
    obtain ⟨new, he, hnodup, hall, hmem⟩ := ih (visit s w)
    have hstep : visits s (w :: ws) = visits (visit s w) ws := rfl
    rw [hone] at he hnodup hall
    simp only [List.append_assoc] at he hnodup hall hnodup₁
    refine ⟨one ++ new, by rw [hstep, hone, he], fun hs => hnodup (hnodup₁ hs), ?_, ?_⟩
    · intro v hv
      rcases List.mem_cons.mp hv with rfl | hv
      · rw [← List.append_assoc]
        exact List.mem_append_left _ hw
      · exact hall v hv
    · intro v hv
      rcases List.mem_append.mp hv with hv | hv
      · exact hmem₁ v hv ▸ List.mem_cons_self
      · exact List.mem_cons_of_mem _ (hmem v hv)

/-- The nodes seen are never forgotten. -/
theorem search_seen_length_le {nbrs : V → List V} {stop : V → Bool} {fuel : Nat}
    {last t : Option V} {s s' : State V} (h : search nbrs stop fuel last s = some (t, s')) :
    s.seen.length ≤ s'.seen.length := by
  induction fuel generalizing last s with
  | zero => cases h
  | succ fuel ih =>
    obtain ⟨queue, seen⟩ := s
    cases queue with
    | nil =>
      cases h
      exact Nat.le_refl _
    | cons u queue =>
      rw [search] at h
      split at h
      · cases h
        exact Nat.le_refl _
      · obtain ⟨new, he, -⟩ := visits_spec ⟨queue, seen⟩ (nbrs u)
        have ih := ih h
        rw [he, List.length_append] at ih
        exact Nat.le_trans (Nat.le_add_right _ _) ih

/-- A search that has something to look at has looked at a node when it ends. -/
theorem search_isSome {nbrs : V → List V} {stop : V → Bool} {fuel : Nat} {last t : Option V}
    {s s' : State V} (h : search nbrs stop fuel last s = some (t, s'))
    (hs : s.queue ≠ [] ∨ last.isSome) : t.isSome := by
  induction fuel generalizing last s with
  | zero => cases h
  | succ fuel ih =>
    obtain ⟨queue, seen⟩ := s
    cases queue with
    | nil =>
      cases h
      exact hs.resolve_left fun hne => hne rfl
    | cons u queue =>
      rw [search] at h
      split at h
      · cases h
        rfl
      · exact ih h (Or.inr rfl)

/-- More fuel does not change what a search finds. -/
theorem search_fuel_le {nbrs : V → List V} {stop : V → Bool} {fuel fuel' : Nat} {last : Option V}
    {s : State V} {r : Option V × State V} (h : search nbrs stop fuel last s = some r)
    (hle : fuel ≤ fuel') : search nbrs stop fuel' last s = some r := by
  induction fuel generalizing last s fuel' with
  | zero => cases h
  | succ fuel ih =>
    obtain ⟨more, rfl⟩ := Nat.exists_eq_add_of_le' hle
    obtain ⟨queue, seen⟩ := s
    cases queue with
    | nil => exact h
    | cons u queue =>
      rw [← Nat.add_assoc, search]
      rw [search] at h
      split at h
      · rename_i hu
        rw [if_pos hu]
        exact h
      · rename_i hu
        rw [if_neg hu]
        exact ih h (Nat.le_add_left _ _)

variable {nbrs : V → List V} {stop : V → Bool} {g : V}

/-- The node can be reached from `g`. -/
def Reach (nbrs : V → List V) (g v : V) : Prop :=
  Relation.ReflTransGen (fun a b => b ∈ nbrs a) g v

/-- What the search knows after looking at the nodes `done`: they are the seen nodes
before the queue, none is what it looks for, and all their neighbours are seen. -/
structure Inv (nbrs : V → List V) (stop : V → Bool) (g : V) (done : List V) (s : State V) :
    Prop where
  split : s.seen = done ++ s.queue
  nodup : s.seen.Nodup
  start : g ∈ s.seen
  reach : ∀ v ∈ s.seen, Reach nbrs g v
  closed : ∀ v ∈ done, stop v = false ∧ ∀ w ∈ nbrs v, w ∈ s.seen

omit [DecidableEq V] in
theorem Inv.init (nbrs : V → List V) (stop : V → Bool) (g : V) :
    Inv nbrs stop g [] ⟨[g], [g]⟩ where
  split := rfl
  nodup := List.nodup_singleton g
  start := List.mem_singleton_self g
  reach v hv := by
    rw [List.mem_singleton.mp hv]
    exact Relation.ReflTransGen.refl
  closed v hv := by cases hv

/-- **Looking at one node keeps the invariant.** -/
theorem Inv.step {done queue seen : List V} {t : V}
    (h : Inv nbrs stop g done ⟨t :: queue, seen⟩) (ht : stop t = false) :
    Inv nbrs stop g (done ++ [t]) (visits ⟨queue, seen⟩ (nbrs t)) := by
  obtain ⟨new, he, hnodup, hall, hnew⟩ := visits_spec ⟨queue, seen⟩ (nbrs t)
  have hsplit : seen = done ++ t :: queue := h.split
  have htseen : t ∈ seen := by
    rw [hsplit]
    simp
  rw [he]
  refine ⟨?_, hnodup h.nodup, List.mem_append_left _ h.start, ?_, ?_⟩
  · show seen ++ new = done ++ [t] ++ (queue ++ new)
    rw [hsplit]
    simp
  · intro v hv
    rcases List.mem_append.mp hv with hv | hv
    · exact h.reach v hv
    · exact (h.reach t htseen).tail (hnew v hv)
  · intro v hv
    rcases List.mem_append.mp hv with hv | hv
    · obtain ⟨hstop, hclosed⟩ := h.closed v hv
      exact ⟨hstop, fun w hw => List.mem_append_left _ (hclosed w hw)⟩
    · obtain rfl := List.mem_singleton.mp hv
      exact ⟨ht, hall⟩

omit [DecidableEq V] in
/-- When nothing is queued, every reachable node has been looked at. -/
theorem Inv.mem_of_reach {done seen : List V} (h : Inv nbrs stop g done ⟨[], seen⟩) {v : V}
    (hv : Reach nbrs g v) : v ∈ done := by
  have hsplit : seen = done := by simpa using h.split
  induction hv with
  | refl => exact hsplit ▸ h.start
  | tail _ hedge ih => exact hsplit ▸ (h.closed _ ih).2 _ hedge

/-- **What the search finds.**  With fuel for every reachable node it ends; it ends at a
node it looks for, which is reachable, or no reachable node is what it looks for.  It
never forgets a node it has seen, sees no node twice and none that is not reachable. -/
theorem search_spec {univ : List V} (huniv : ∀ v, Reach nbrs g v → v ∈ univ) {fuel : Nat}
    {last : Option V} {done : List V} {s : State V} (h : Inv nbrs stop g done s)
    (hfuel : univ.length < fuel + done.length) (hlast : ∀ v, last = some v → stop v = false) :
    ∃ t s', search nbrs stop fuel last s = some (t, s') ∧ s.seen <+: s'.seen ∧ s'.seen.Nodup ∧
      (∀ v ∈ s'.seen, Reach nbrs g v) ∧
      ((∃ v, t = some v ∧ stop v = true ∧ Reach nbrs g v) ∨
        ((∀ v, t = some v → stop v = false) ∧ ∀ v, Reach nbrs g v → stop v = false)) := by
  induction fuel generalizing last done s with
  | zero =>
    -- more nodes were looked at than there are
    have hnodup : done.Nodup := by
      have := h.nodup
      rw [h.split] at this
      exact this.of_append_left
    have hsub : done ⊆ univ := fun v hv =>
      huniv v (h.reach v (by rw [h.split]; exact List.mem_append_left _ hv))
    have := (List.subperm_of_subset hnodup hsub).length_le
    omega
  | succ fuel ih =>
    obtain ⟨queue, seen⟩ := s
    cases queue with
    | nil =>
      exact ⟨last, ⟨[], seen⟩, rfl, List.prefix_refl _, h.nodup, h.reach,
        Or.inr ⟨hlast, fun v hv => (h.closed v (h.mem_of_reach hv)).1⟩⟩
    | cons t queue =>
      rw [search]
      by_cases ht : stop t = true
      · rw [if_pos ht]
        refine ⟨some t, ⟨queue, seen⟩, rfl, List.prefix_refl _, h.nodup, h.reach,
          Or.inl ⟨t, rfl, ht, h.reach t ?_⟩⟩
        rw [h.split]
        simp
      · rw [if_neg ht]
        have hfalse := Bool.eq_false_iff.mpr ht
        have hnext := h.step hfalse
        have hle : univ.length < fuel + (done ++ [t]).length := by
          rw [List.length_append, List.length_singleton]
          omega
        have hlast' : ∀ v, some t = some v → stop v = false := fun v hv =>
          Option.some.inj hv ▸ hfalse
        obtain ⟨t', s', hs, hpre, hrest⟩ := ih hnext hle hlast'
        obtain ⟨new, he, -⟩ := visits_spec ⟨queue, seen⟩ (nbrs t)
        rw [he] at hpre
        exact ⟨t', s', hs, (List.prefix_append _ _).trans hpre, hrest⟩

variable (stop) in
/-- **From one node** that is not what it looks for, the search also sees this node and
all its neighbours. -/
theorem search_from {univ : List V} (huniv : ∀ v, Reach nbrs g v → v ∈ univ) {fuel : Nat}
    (hfuel : univ.length < fuel) (hg : stop g = false) :
    ∃ t s, search nbrs stop fuel none ⟨[g], [g]⟩ = some (t, s) ∧
      (∀ v, v = g ∨ v ∈ nbrs g → v ∈ s.seen) ∧ s.seen.Nodup ∧ (∀ v ∈ s.seen, Reach nbrs g v) ∧
      ((∃ v, t = some v ∧ stop v = true ∧ Reach nbrs g v) ∨
        ((∀ v, t = some v → stop v = false) ∧ ∀ v, Reach nbrs g v → stop v = false)) := by
  obtain ⟨n, rfl⟩ := Nat.exists_eq_add_of_lt hfuel
  have hnext := (Inv.init nbrs stop g).step hg
  have hlast : ∀ v, some g = some v → stop v = false := fun v hv => Option.some.inj hv ▸ hg
  obtain ⟨t, s, hs, hpre, hrest⟩ := search_spec huniv hnext
    (show univ.length < univ.length + n + 1 by omega) hlast
  refine ⟨t, s, ?_, ?_, hrest⟩
  · rw [search, if_neg (by simp [hg])]
    exact hs
  · rintro v (rfl | hv)
    · exact hpre.subset hnext.start
    · exact hpre.subset ((hnext.closed g (by simp)).2 v hv)

end Bfs
