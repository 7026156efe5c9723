import AnonyChat.Distribution
import AnonyChat.Lib.Cycle

/-! # What the shuffle can do

The loop of `manage_graph` takes its random position below the counter and never at it, so
that no node keeps its place in the turn that would decide this.  Each turn is a swap that
makes one cycle longer: the orders that come about are those of a single cycle.
-/
namespace AnonyChat
open Equiv Perm

/-- Some results of `rand()` turn the array of nodes into this one. -/
def Produces (n : Nat) (order : List Nat) : Prop :=
  ∃ rand, shuffle rand (n - 1) (List.range n) = order

/-- The array that a permutation of its positions stands for. -/
def arrangement (n : Nat) (f : Perm Nat) : List Nat := (List.range n).map f

/-- The swaps of the loop, down from `counter`. -/
def swaps (rand : Nat → Nat) : Nat → Perm Nat
  | 0 => 1
  | counter + 1 =>
    swap (rand (counter + 1) % (counter + 1)) (counter + 1) * swaps rand counter

section Loop
variable {rand : Nat → Nat} {n counter : Nat} {f : Perm Nat}

theorem exchange_arrangement {num : Nat} (hnum : num < n) (hcounter : counter < n) :
    exchange (arrangement n f) num counter = arrangement n (f * swap num counter) := by
  have hget : ∀ i < n, (arrangement n f).getD i 0 = f i := by
    intro i hi
    simp [arrangement, hi]
  rw [exchange, hget num hnum, hget counter hcounter]
  apply List.ext_getElem (by simp [arrangement])
  intro i hi _
  rw [List.getElem_set, List.getElem_set]
  simp only [arrangement, List.getElem_map, List.getElem_range, mul_apply, swap_apply_def]
  by_cases hc : counter = i
  · subst hc
    rw [if_pos rfl]
    by_cases hn : num = counter
    · simp [hn]
    · simp [Ne.symm hn]
  · rw [if_neg hc]
    by_cases hn : num = i
    · simp [hn]
    · rw [if_neg hn, if_neg (Ne.symm hn), if_neg (Ne.symm hc)]

theorem shuffle_arrangement (h : counter < n) :
    shuffle rand counter (arrangement n f) = arrangement n (f * swaps rand counter) := by
  induction counter generalizing f with
  | zero => rw [swaps, mul_one]; rfl
  | succ counter ih =>
    have hmod : rand (counter + 1) % (counter + 1) < counter + 1 := Nat.mod_lt _ (by omega)
    rw [shuffle, exchange_arrangement (by omega) h, ih (by omega), swaps, mul_assoc]

theorem shuffle_range (h : counter < n) :
    shuffle rand counter (List.range n) = arrangement n (swaps rand counter) := by
  have hone : shuffle rand counter (arrangement n 1) = _ := shuffle_arrangement h
  rwa [arrangement, coe_one, List.map_id, one_mul] at hone

/-- The positions behind the counter stay. -/
theorem swaps_apply_of_lt {k : Nat} (h : counter < k) : swaps rand counter k = k := by
  induction counter with
  | zero => rfl
  | succ counter ih =>
    have hmod : rand (counter + 1) % (counter + 1) < counter + 1 := Nat.mod_lt _ (by omega)
    rw [swaps, mul_apply, ih (by omega), swap_apply_of_ne_of_ne (by omega) (by omega)]

theorem Iio_succ_eq_insert (n : Nat) : Set.Iio (n + 1) = insert n (Set.Iio n) := by
  ext i
  simp only [Set.mem_Iio, Set.mem_insert_iff]
  omega

/-- **Every turn** makes the cycle longer by one position. -/
theorem swaps_isCycleOn (rand : Nat → Nat) (counter : Nat) :
    (swaps rand counter).IsCycleOn (Set.Iio (counter + 1)) := by
  induction counter with
  | zero =>
    have hone : (Set.Iio (0 + 1)).Subsingleton := by
      intro i hi j hj
      rw [Set.mem_Iio] at hi hj
      omega
    exact isCycleOn_one.mpr hone
  | succ counter ih =>
    rw [Iio_succ_eq_insert]
    refine Cycle.isCycleOn_insert ih ?_ (fun h => Nat.lt_irrefl _ h)
      (swaps_apply_of_lt (Nat.lt_succ_self counter))
    exact Nat.mod_lt _ (Nat.succ_pos counter)

theorem swaps_congr {rand' : Nat → Nat} (h : ∀ turn ≤ counter, rand turn = rand' turn) :
    swaps rand counter = swaps rand' counter := by
  induction counter with
  | zero => rfl
  | succ counter ih =>
    rw [swaps, swaps, h _ (Nat.le_refl _), ih fun turn hturn => h turn (by omega)]

/-- **Every cycle** through all positions is reached, in each turn from the last position
that the turns before have left. -/
theorem exists_swaps_eq (hf : f.IsCycleOn (Set.Iio (counter + 1)))
    (hfix : ∀ k, counter < k → f k = k) :
    ∃ rand, (∀ turn, rand turn ≤ counter) ∧ swaps rand counter = f := by
  induction counter generalizing f with
  | zero =>
    refine ⟨fun _ => 0, fun _ => Nat.le_refl 0, ?_⟩
    ext k
    rcases Nat.eq_zero_or_pos k with rfl | hk
    · have := hf.1.mapsTo (Set.mem_Iio.mpr Nat.one_pos)
      rw [Set.mem_Iio] at this
      show 0 = f 0
      omega
    · exact (hfix k hk).symm
  | succ counter ih =>
    have hmem : counter + 1 ∈ Set.Iio (counter + 1 + 1) := Nat.lt_succ_self _
    have hnot : counter + 1 ∉ Set.Iio (counter + 1) := fun h => Nat.lt_irrefl _ h
    have hmove : f (counter + 1) ≠ counter + 1 :=
      hf.apply_ne ⟨0, Nat.succ_pos _, counter + 1, hmem, by omega⟩ hmem
    have hlt : f (counter + 1) < counter + 1 := by
      have := hf.1.mapsTo hmem
      rw [Set.mem_Iio] at this
      omega
    have hshort : (swap (f (counter + 1)) (counter + 1) * f).IsCycleOn (Set.Iio (counter + 1)) := by
      rw [Iio_succ_eq_insert] at hf
      exact Cycle.isCycleOn_erase hf hnot hmove
    have hshort_fix : ∀ k, counter < k →
        (swap (f (counter + 1)) (counter + 1) * f) k = k := by
      intro k hk
      rw [mul_apply]
      rcases eq_or_ne k (counter + 1) with rfl | hne
      · exact swap_apply_left _ _
      · rw [hfix k (by omega), swap_apply_of_ne_of_ne (by omega) hne]
    obtain ⟨rand, hrand, hswaps⟩ := ih hshort hshort_fix
    refine ⟨Function.update rand (counter + 1) (f (counter + 1)), fun turn => ?_, ?_⟩
    · rcases eq_or_ne turn (counter + 1) with rfl | hne
      · rw [Function.update_self]
        exact Nat.le_of_lt hlt
      · rw [Function.update_of_ne hne]
        exact Nat.le_succ_of_le (hrand turn)
    · have hrest : swaps (Function.update rand (counter + 1) (f (counter + 1))) counter =
          swaps rand counter :=
        swaps_congr fun turn hturn => Function.update_of_ne (by omega) _ _
      rw [swaps, hrest, hswaps, Function.update_self, Nat.mod_eq_of_lt hlt, ← mul_assoc,
        swap_mul_self, one_mul]

end Loop

/-! ## Permutations of `n` positions -/

section Positions
variable {n : Nat}

/-- A permutation of the positions leaves all other numbers where they are. -/
def extend (σ : Perm (Fin n)) : Perm Nat := σ.extendDomain Fin.equivSubtype

theorem extend_apply (σ : Perm (Fin n)) (i : Fin n) : extend σ i = σ i :=
  extendDomain_apply_image σ Fin.equivSubtype i

theorem extend_apply_of_le (σ : Perm (Fin n)) {k : Nat} (h : n ≤ k) : extend σ k = k :=
  extendDomain_apply_not_subtype σ Fin.equivSubtype (Nat.not_lt_of_le h)

theorem arrangement_extend (σ : Perm (Fin n)) :
    arrangement n (extend σ) = List.ofFn fun i => (σ i : Nat) := by
  apply List.ext_getElem (by simp [arrangement])
  intro i hi _
  have hlt : i < n := by simpa [arrangement] using hi
  simpa [arrangement] using extend_apply σ ⟨i, hlt⟩

theorem extend_isCycleOn_iff (σ : Perm (Fin n)) :
    (extend σ).IsCycleOn (Set.Iio n) ↔ σ.IsCycleOn Set.univ := by
  have hsame : ∀ i j : Fin n, (extend σ).SameCycle i j ↔ σ.SameCycle i j := fun i j =>
    sameCycle_extendDomain (f := Fin.equivSubtype)
  constructor
  · intro h
    exact ⟨Set.bijOn_univ.mpr σ.bijective, fun i _ j _ => (hsame i j).mp (h.2 i.isLt j.isLt)⟩
  · intro h
    refine ⟨(extend σ).bijOn fun k => ?_,
      fun i hi j hj => (hsame ⟨i, hi⟩ ⟨j, hj⟩).mpr (h.2 trivial trivial)⟩
    rw [Set.mem_Iio, Set.mem_Iio]
    rcases Nat.lt_or_ge k n with hlt | hle
    · rw [extend_apply σ ⟨k, hlt⟩]
      exact iff_of_true (σ ⟨k, hlt⟩).isLt hlt
    · rw [extend_apply_of_le σ hle]

theorem produces_iff_swaps (order : List Nat) :
    Produces (n + 1) order ↔ ∃ rand, arrangement (n + 1) (swaps rand n) = order := by
  simp only [Produces, Nat.add_sub_cancel, shuffle_range (Nat.lt_succ_self n)]

theorem arrangement_inj {f g : Perm Nat} (hf : ∀ k, n ≤ k → f k = k) (hg : ∀ k, n ≤ k → g k = k)
    (h : arrangement n f = arrangement n g) : f = g := by
  ext k
  rcases Nat.lt_or_ge k n with hlt | hle
  · exact List.map_inj_left.mp h k (List.mem_range.mpr hlt)
  · rw [hf k hle, hg k hle]

/-- The results of `rand()` need not be larger than the array. -/
theorem Produces.small {order : List Nat} (h : Produces n order) :
    ∃ rand, (∀ turn, rand turn ≤ n) ∧ shuffle rand (n - 1) (List.range n) = order := by
  cases n with
  | zero =>
    obtain ⟨rand, hrand⟩ := h
    exact ⟨fun _ => 0, fun _ => Nat.le_refl 0, hrand⟩
  | succ n =>
    obtain ⟨rand, rfl⟩ := (produces_iff_swaps order).mp h
    obtain ⟨rand', hsmall, hswaps⟩ :=
      exists_swaps_eq (swaps_isCycleOn rand n) fun k hk => swaps_apply_of_lt hk
    refine ⟨rand', fun turn => Nat.le_succ_of_le (hsmall turn), ?_⟩
    rw [Nat.add_sub_cancel, shuffle_range (Nat.lt_succ_self n), hswaps]

/-- The array stays a permutation of the nodes, and becomes exactly those that are one cycle
through all positions. -/
theorem shuffle_produces_iff (n : Nat) (σ : Perm (Fin n)) :
    (∀ rand, (shuffle rand (n - 1) (List.range n)).Perm (List.range n)) ∧
      (Produces n (List.ofFn fun i => (σ i : Nat)) ↔ σ.IsCycleOn Set.univ) := by
  refine ⟨fun rand => shuffle_range_perm rand n, ?_⟩
  cases n with
  | zero => exact iff_of_true ⟨fun _ => 0, rfl⟩ (isCycleOn_of_subsingleton σ _)
  | succ n =>
    rw [produces_iff_swaps, ← arrangement_extend, ← extend_isCycleOn_iff]
    constructor
    · rintro ⟨rand, hrand⟩
      have heq := arrangement_inj (fun k hk => swaps_apply_of_lt hk)
        (fun k hk => extend_apply_of_le σ hk) hrand
      rw [← heq]
      exact swaps_isCycleOn rand n
    · intro hcycle
      obtain ⟨rand, -, hswaps⟩ :=
        exists_swaps_eq hcycle fun k hk => extend_apply_of_le σ hk
      exact ⟨rand, by rw [hswaps]⟩

end Positions

/-- Two nodes always change places. -/
theorem identity_not_produced :
    ¬ Produces 2 (List.ofFn fun i => ((1 : Perm (Fin 2)) i : Nat)) ∧
      (shuffle (fun _ => 0) (2 - 1) (List.range 2)) = [1, 0] := by
  refine ⟨?_, rfl⟩
  rintro ⟨rand, hrand⟩
  rw [shuffle, Nat.mod_one] at hrand
  cases hrand

end AnonyChat
