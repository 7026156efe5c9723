import Mathlib.Data.List.Basic

/-! # A hash table keyed by pointers

GLib's `GHashTable`, opened with a hash and an equality on what the keys point
to.  A node keeps the hash computed when it was inserted and the pointer it was
given; a lookup hashes the string it is handed, and compares stored hashes first
and then what the stored pointer reads **now**.  The table never owns a copy, so
its answers depend on the memory at the time of the call.

Everything a lookup can see is `Holds t h key`: some node stores the hash `h`
and the pointer `key`.  `lookup_isSome_iff` and `holds_insert_iff` state both
operations in these terms.
-/
namespace GHashTable

/-- A node of the table. -/
structure HashNode (κ η ν : Type) where
  hash : η
  key : κ
  value : ν
  deriving DecidableEq, Repr

/-- The nodes of a table, in insertion order. -/
abbrev Table (κ η ν : Type) := List (HashNode κ η ν)

variable {κ σ η ν : Type} [DecidableEq σ] [DecidableEq η] (hashOf : σ → η) (mem : κ → σ)

/-- The comparison of a lookup of the string `s` with a node. -/
def hit (s : σ) (n : HashNode κ η ν) : Bool := n.hash = hashOf s ∧ mem n.key = s

/-- `g_hash_table_lookup`. -/
def g_hash_table_lookup (t : Table κ η ν) (key : κ) : Option ν :=
  (t.find? (hit hashOf mem (mem key))).map HashNode.value

/-- The value of the first node a lookup of `s` finds is replaced. -/
def replace (s : σ) (value : ν) : Table κ η ν → Table κ η ν
  | [] => []
  | n :: t => if hit hashOf mem s n then { n with value := value } :: t else n :: replace s value t

/-- `g_hash_table_insert`: the new table, and whether the key handed over was
freed.  That happens when a node with an equal key is found: it keeps its own
pointer and takes the new value. -/
def g_hash_table_insert (t : Table κ η ν) (key : κ) (value : ν) : Table κ η ν × Bool :=
  if t.any (hit hashOf mem (mem key)) then
    (replace hashOf mem (mem key) value t, true)
  else
    (t ++ [⟨hashOf (mem key), key, value⟩], false)

/-- Some node stores this hash and this pointer. -/
def Holds (t : Table κ η ν) (h : η) (key : κ) : Prop := ∃ n ∈ t, n.hash = h ∧ n.key = key

instance [DecidableEq κ] (t : Table κ η ν) (h : η) (key : κ) : Decidable (Holds t h key) :=
  inferInstanceAs (Decidable (∃ n ∈ t, n.hash = h ∧ n.key = key))

omit [DecidableEq σ] [DecidableEq η] in
@[simp] theorem not_holds_nil (h : η) (key : κ) : ¬ Holds ([] : Table κ η ν) h key := by
  simp [Holds]

/-- A lookup succeeds exactly when a node stores the hash of the string and its
pointer reads that string. -/
theorem lookup_isSome_iff {t : Table κ η ν} {key : κ} :
    (g_hash_table_lookup hashOf mem t key).isSome ↔
      ∃ k, Holds t (hashOf (mem key)) k ∧ mem k = mem key := by
  simp only [g_hash_table_lookup, Option.isSome_map, List.find?_isSome, hit, decide_eq_true_eq]
  constructor
  · rintro ⟨n, hn, hh, hk⟩
    exact ⟨n.key, ⟨n, hn, hh, rfl⟩, hk⟩
  · rintro ⟨k, ⟨n, hn, hh, rfl⟩, hk⟩
    exact ⟨n, hn, hh, hk⟩

theorem replace_hash_key (s : σ) (value : ν) (t : Table κ η ν) :
    (replace hashOf mem s value t).map (fun n => (n.hash, n.key)) =
      t.map fun n => (n.hash, n.key) := by
  induction t with
  | nil => rfl
  | cons n t ih =>
    rw [replace]
    split
    · rfl
    · simp [ih]

omit [DecidableEq σ] [DecidableEq η] in
theorem holds_iff_mem_map {t : Table κ η ν} {h : η} {key : κ} :
    Holds t h key ↔ (h, key) ∈ t.map fun n => (n.hash, n.key) := by
  simp [Holds]

/-- The key is freed exactly when a lookup of it would succeed. -/
theorem insert_freed_iff {t : Table κ η ν} {key : κ} {value : ν} :
    (g_hash_table_insert hashOf mem t key value).2 = true ↔
      ∃ k, Holds t (hashOf (mem key)) k ∧ mem k = mem key := by
  rw [← lookup_isSome_iff, g_hash_table_insert, g_hash_table_lookup, Option.isSome_map,
    List.find?_isSome]
  split
  · rename_i h
    simpa using h
  · rename_i h
    simpa using h

/-- An insertion adds the new hash and pointer unless it freed the pointer, and
removes nothing. -/
theorem holds_insert_iff {t : Table κ η ν} {key : κ} {value : ν} {h : η} {k : κ} :
    Holds (g_hash_table_insert hashOf mem t key value).1 h k ↔
      Holds t h k ∨ ((g_hash_table_insert hashOf mem t key value).2 = false ∧
        h = hashOf (mem key) ∧ k = key) := by
  unfold g_hash_table_insert
  split
  · simp [holds_iff_mem_map, replace_hash_key]
  · simp [holds_iff_mem_map]

/-- A key that nothing in the table equals is added. -/
theorem insert_of_not_hit {t : Table κ η ν} {key : κ} {value : ν}
    (h : ∀ n ∈ t, ¬ hit hashOf mem (mem key) n) :
    g_hash_table_insert hashOf mem t key value =
      (t ++ [⟨hashOf (mem key), key, value⟩], false) := by
  have hany : t.any (hit hashOf mem (mem key)) = false := by
    simpa using h
  rw [g_hash_table_insert, hany]
  rfl

/-- A key that was not freed was added. -/
theorem insert_of_kept {t : Table κ η ν} {key : κ} {value : ν}
    (h : (g_hash_table_insert hashOf mem t key value).2 = false) :
    (g_hash_table_insert hashOf mem t key value).1 = t ++ [⟨hashOf (mem key), key, value⟩] := by
  unfold g_hash_table_insert at h ⊢
  split at h
  · cases h
  · rename_i hnot
    rw [if_neg hnot]

/-- A lookup that only one node answers. -/
theorem lookup_of_unique {t : Table κ η ν} {key : κ} {n : HashNode κ η ν} (hn : n ∈ t)
    (hhit : hit hashOf mem (mem key) n) (hunique : ∀ m ∈ t, hit hashOf mem (mem key) m → m = n) :
    g_hash_table_lookup hashOf mem t key = some n.value := by
  have hsome : (t.find? (hit hashOf mem (mem key))).isSome := List.find?_isSome.mpr ⟨n, hn, hhit⟩
  obtain ⟨m, hm⟩ := Option.isSome_iff_exists.mp hsome
  rw [g_hash_table_lookup, hm,
    hunique m (List.mem_of_find?_eq_some hm) (List.find?_some hm)]
  rfl

/-- A lookup that answers found a node. -/
theorem exists_of_lookup {t : Table κ η ν} {key : κ} {value : ν}
    (h : g_hash_table_lookup hashOf mem t key = some value) :
    ∃ n ∈ t, n.value = value ∧ hit hashOf mem (mem key) n := by
  obtain ⟨n, hn, hvalue⟩ := Option.map_eq_some_iff.mp h
  exact ⟨n, List.mem_of_find?_eq_some hn, hvalue, List.find?_some hn⟩

/-! ## A table whose keys do not change

As long as every key reads what it was hashed as, and no two keys read the same, the table is a
map from strings to values: a lookup asks it for a string (`Faithful.lookup_isSome_iff`), and an
insertion writes it at one (`Faithful.maps_insert_iff`). -/

/-- The nodes are found by what their keys read, each string by one node. -/
structure Faithful (t : Table κ η ν) : Prop where
  hashed : ∀ n ∈ t, n.hash = hashOf (mem n.key)
  distinct : (t.map fun n => mem n.key).Nodup

/-- The table has this value for this string. -/
def Maps (mem : κ → σ) (t : Table κ η ν) (s : σ) (value : ν) : Prop :=
  ∃ n ∈ t, mem n.key = s ∧ n.value = value

section Faithful
variable {hashOf mem} {t : Table κ η ν}

theorem Faithful.hit_iff (h : Faithful hashOf mem t) {n : HashNode κ η ν} (hn : n ∈ t) {s : σ} :
    hit hashOf mem s n = true ↔ mem n.key = s := by
  rw [hit, decide_eq_true_eq]
  refine ⟨And.right, fun hs => ⟨?_, hs⟩⟩
  rw [h.hashed n hn, hs]

theorem Faithful.lookup_isSome_iff (h : Faithful hashOf mem t) {key : κ} :
    (g_hash_table_lookup hashOf mem t key).isSome ↔ ∃ value, Maps mem t (mem key) value := by
  rw [g_hash_table_lookup, Option.isSome_map, List.find?_isSome]
  constructor
  · rintro ⟨n, hn, hhit⟩
    exact ⟨n.value, n, hn, (h.hit_iff hn).mp hhit, rfl⟩
  · rintro ⟨-, n, hn, hs, -⟩
    exact ⟨n, hn, (h.hit_iff hn).mpr hs⟩

omit [DecidableEq σ] [DecidableEq η] in
theorem Faithful.tail {n : HashNode κ η ν} (h : Faithful hashOf mem (n :: t)) :
    Faithful hashOf mem t :=
  ⟨fun m hm => h.hashed m (List.mem_cons_of_mem n hm), (List.nodup_cons.mp h.distinct).2⟩

/-- The node for a string takes the new value, the others stay. -/
theorem Faithful.mem_replace_iff (h : Faithful hashOf mem t) {s : σ} {value : ν}
    {m : HashNode κ η ν} :
    m ∈ replace hashOf mem s value t ↔
      (m ∈ t ∧ mem m.key ≠ s) ∨ ∃ n ∈ t, mem n.key = s ∧ m = { n with value := value } := by
  induction t with
  | nil => simp [replace]
  | cons n t ih =>
    have hn := h.hit_iff List.mem_cons_self (s := s)
    rw [replace]
    by_cases hs : mem n.key = s
    · have hothers : ∀ k ∈ t, mem k.key ≠ s := by
        intro k hk hks
        exact (List.nodup_cons.mp h.distinct).1
          (List.mem_map.mpr ⟨k, hk, hks.trans hs.symm⟩)
      rw [if_pos (hn.mpr hs), List.mem_cons]
      constructor
      · rintro (rfl | hm)
        · exact Or.inr ⟨n, List.mem_cons_self, hs, rfl⟩
        · exact Or.inl ⟨List.mem_cons_of_mem n hm, hothers m hm⟩
      · rintro (⟨hm, hne⟩ | ⟨k, hk, hks, rfl⟩)
        · rcases List.mem_cons.mp hm with rfl | hm
          · exact absurd hs hne
          · exact Or.inr hm
        · rcases List.mem_cons.mp hk with rfl | hk
          · exact Or.inl rfl
          · exact absurd hks (hothers k hk)
    · rw [if_neg (fun hhit => hs (hn.mp hhit)), List.mem_cons, ih h.tail]
      constructor
      · rintro (rfl | ⟨hm, hne⟩ | ⟨k, hk, hks, rfl⟩)
        · exact Or.inl ⟨List.mem_cons_self, hs⟩
        · exact Or.inl ⟨List.mem_cons_of_mem n hm, hne⟩
        · exact Or.inr ⟨k, List.mem_cons_of_mem n hk, hks, rfl⟩
      · rintro (⟨hm, hne⟩ | ⟨k, hk, hks, rfl⟩)
        · rcases List.mem_cons.mp hm with rfl | hm
          · exact Or.inl rfl
          · exact Or.inr (Or.inl ⟨hm, hne⟩)
        · rcases List.mem_cons.mp hk with rfl | hk
          · exact absurd hks hs
          · exact Or.inr (Or.inr ⟨k, hk, hks, rfl⟩)

/-- **An insertion writes the map at one string.** -/
theorem Faithful.mem_insert_iff (h : Faithful hashOf mem t) {key : κ} {value : ν}
    {m : HashNode κ η ν} :
    m ∈ (g_hash_table_insert hashOf mem t key value).1 ↔
      (m ∈ t ∧ mem m.key ≠ mem key) ∨
        (∃ n ∈ t, mem n.key = mem key ∧ m = { n with value := value }) ∨
        ((∀ n ∈ t, mem n.key ≠ mem key) ∧ m = ⟨hashOf (mem key), key, value⟩) := by
  unfold g_hash_table_insert
  split
  · rename_i hany
    obtain ⟨n, hn, hhit⟩ := List.any_eq_true.mp hany
    have hkey := (h.hit_iff hn).mp hhit
    rw [h.mem_replace_iff]
    constructor
    · rintro (hm | hm)
      · exact Or.inl hm
      · exact Or.inr (Or.inl hm)
    · rintro (hm | hm | ⟨hnone, -⟩)
      · exact Or.inl hm
      · exact Or.inr hm
      · exact absurd hkey (hnone n hn)
  · rename_i hany
    have hnone : ∀ n ∈ t, mem n.key ≠ mem key := fun n hn hkey =>
      hany (List.any_eq_true.mpr ⟨n, hn, (h.hit_iff hn).mpr hkey⟩)
    rw [List.mem_append, List.mem_singleton]
    constructor
    · rintro (hm | rfl)
      · exact Or.inl ⟨hm, hnone m hm⟩
      · exact Or.inr (Or.inr ⟨hnone, rfl⟩)
    · rintro (⟨hm, -⟩ | ⟨n, hn, hkey, -⟩ | ⟨-, rfl⟩)
      · exact Or.inl hm
      · exact absurd hkey (hnone n hn)
      · exact Or.inr rfl

theorem Faithful.maps_insert_iff (h : Faithful hashOf mem t) {key : κ} {value : ν} {s : σ}
    {v : ν} : Maps mem (g_hash_table_insert hashOf mem t key value).1 s v ↔
      (s = mem key ∧ v = value) ∨ (s ≠ mem key ∧ Maps mem t s v) := by
  constructor
  · rintro ⟨m, hm, rfl, rfl⟩
    rcases h.mem_insert_iff.mp hm with ⟨hm, hne⟩ | ⟨n, -, hkey, rfl⟩ | ⟨-, rfl⟩
    · exact Or.inr ⟨hne, m, hm, rfl, rfl⟩
    · exact Or.inl ⟨hkey, rfl⟩
    · exact Or.inl ⟨rfl, rfl⟩
  · rintro (⟨rfl, rfl⟩ | ⟨hne, m, hm, rfl, rfl⟩)
    · by_cases hfound : ∃ n ∈ t, mem n.key = mem key
      · obtain ⟨n, hn, hkey⟩ := hfound
        exact ⟨{ n with value := v }, h.mem_insert_iff.mpr (Or.inr (Or.inl ⟨n, hn, hkey, rfl⟩)),
          hkey, rfl⟩
      · have hnone : ∀ n ∈ t, mem n.key ≠ mem key := fun n hn hkey => hfound ⟨n, hn, hkey⟩
        exact ⟨⟨hashOf (mem key), key, v⟩,
          h.mem_insert_iff.mpr (Or.inr (Or.inr ⟨hnone, rfl⟩)), rfl, rfl⟩
    · exact ⟨m, h.mem_insert_iff.mpr (Or.inl ⟨hm, hne⟩), rfl, rfl⟩

theorem Faithful.insert (h : Faithful hashOf mem t) (key : κ) (value : ν) :
    Faithful hashOf mem (g_hash_table_insert hashOf mem t key value).1 where
  hashed m hm := by
    rcases h.mem_insert_iff.mp hm with ⟨hm, -⟩ | ⟨n, hn, -, rfl⟩ | ⟨-, rfl⟩
    · exact h.hashed m hm
    · exact h.hashed n hn
    · rfl
  distinct := by
    unfold g_hash_table_insert
    split
    · have hkeys := congrArg (List.map fun p => mem p.2) (replace_hash_key hashOf mem
        (mem key) value t)
      rw [List.map_map, List.map_map] at hkeys
      exact hkeys ▸ h.distinct
    · rename_i hany
      rw [List.map_append, List.map_singleton]
      refine List.nodup_append.mpr ⟨h.distinct, by simp, ?_⟩
      rintro s hs s' hs' rfl
      obtain ⟨n, hn, rfl⟩ := List.mem_map.mp hs
      exact hany (List.any_eq_true.mpr ⟨n, hn, (h.hit_iff hn).mpr (List.mem_singleton.mp hs')⟩)

end Faithful

/-! ## Removing nodes -/

/-- `g_hash_table_foreach_remove`: the nodes that stay, and the keys of the others, which are
freed with their values. -/
def g_hash_table_foreach_remove (func : ν → Bool) (t : Table κ η ν) : Table κ η ν × List κ :=
  (t.filter fun n => !func n.value, (t.filter fun n => func n.value).map HashNode.key)

section Remove
variable {func : ν → Bool} {t : Table κ η ν}

omit [DecidableEq σ] [DecidableEq η] in
theorem mem_foreach_remove_iff {n : HashNode κ η ν} :
    n ∈ (g_hash_table_foreach_remove func t).1 ↔ n ∈ t ∧ func n.value = false := by
  rw [g_hash_table_foreach_remove, List.mem_filter, Bool.not_eq_true']

omit [DecidableEq σ] [DecidableEq η] in
theorem mem_removed_iff {key : κ} :
    key ∈ (g_hash_table_foreach_remove func t).2 ↔ ∃ n ∈ t, func n.value = true ∧ n.key = key := by
  rw [g_hash_table_foreach_remove, List.mem_map]
  refine exists_congr fun n => ?_
  rw [List.mem_filter, and_assoc]

end Remove

/-! ## Who frees a key -/

/-- A key that is handed over is freed at once or held. -/
theorem keys_insert (t : Table κ η ν) (key : κ) (value : ν) :
    ((if (g_hash_table_insert hashOf mem t key value).2 then [key] else []) ++
      (g_hash_table_insert hashOf mem t key value).1.map HashNode.key).Perm
        (t.map HashNode.key ++ [key]) := by
  unfold g_hash_table_insert
  split
  · have hkeys := congrArg (List.map Prod.snd) (replace_hash_key hashOf mem (mem key) value t)
    rw [List.map_map, List.map_map] at hkeys
    have hsame : (replace hashOf mem (mem key) value t).map HashNode.key = t.map HashNode.key :=
      hkeys
    simp only [if_true, hsame]
    exact List.perm_append_comm
  · simp

omit [DecidableEq σ] [DecidableEq η] in
/-- A key that was held is freed or still held. -/
theorem keys_foreach_remove (func : ν → Bool) (t : Table κ η ν) :
    ((g_hash_table_foreach_remove func t).2 ++
      (g_hash_table_foreach_remove func t).1.map HashNode.key).Perm (t.map HashNode.key) := by
  rw [g_hash_table_foreach_remove, ← List.map_append]
  exact (List.filter_append_perm (fun n => func n.value) t).map _

end GHashTable
