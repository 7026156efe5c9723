import AnonyChat.Msg
import Mathlib.Data.List.Induction
import Mathlib.Logic.Function.Basic

/-! # Loading the public keys (`key_table.c`)

`load_public_keys` reads the entries of a directory one after the other and enters the key of
each `.pub` file into a hash table.  The table is given the pointer to the name inside the
directory entry, cut off at its extension; `create_rsa_key` copies the name, but into the
value.  The next `readdir` may use the entry's memory again, and then the key goes by whatever
name is there: the keys are found exactly as long as no entry is overwritten
(`keys_found_iff`).
-/
namespace AnonyChat
open CString GHashTable

/-! ## The table -/

/-- `KT_MAX_KEY_NAME_LEN`. -/
def KT_MAX_KEY_NAME_LEN : Nat := 256

/-- An `EVP_PKEY` in memory: which of the copies that were made it is, and the key. -/
structure KeyCopy (Key : Type) where
  number : Nat
  key : Key
  deriving DecidableEq, Repr

/-- `rsa_key_o`. -/
structure rsa_key_o (Key : Type) where
  key_id : Nat
  name : Str
  key : KeyCopy Key
  deriving DecidableEq, Repr

/-- The names a table compares: the one in a directory entry, and the one it is asked for. -/
inductive NamePtr where
  | d_name (a : Nat)
  | asked
  deriving DecidableEq, Repr

/-- The table of the public keys. -/
abbrev KeyTable (Key : Type) := Table NamePtr UInt32 (rsa_key_o Key)

section Table
variable {Key : Type}

/-- `key_create_hash_table`. -/
def key_create_hash_table : KeyTable Key := []

/-- `create_rsa_key`. -/
def create_rsa_key (key_id : Nat) (name : Str) (key : KeyCopy Key) : rsa_key_o Key where
  key_id := key_id
  name := name.take KT_MAX_KEY_NAME_LEN
  key := key

/-- `key_hash_add`: the new table, and whether the table freed `name`. -/
def key_hash_add (mem : NamePtr → Str) (key_id : Nat) (hash_table : KeyTable Key)
    (name : NamePtr) (key : KeyCopy Key) : KeyTable Key × Bool :=
  g_hash_table_insert g_str_hash mem hash_table name (create_rsa_key key_id (mem name) key)

/-- `key_get_by_name`, `none` for NULL. -/
def key_get_by_name (mem : NamePtr → Str) (hash_table : KeyTable Key) (key_name : NamePtr) :
    Option (KeyCopy Key) :=
  (g_hash_table_lookup g_str_hash mem hash_table key_name).map rsa_key_o.key

end Table

/-! ## The directory -/

/-- `PUBLIC_KEY_DIR`. -/
def PUBLIC_KEY_DIR : Str := [46, 47, 112, 117, 98, 95, 107, 101, 121, 47]

/-- `pub`. -/
def PUB : Str := [112, 117, 98]

/-- One result of `readdir`: where the name of the entry is, the name, and what the other
addresses read until the next call. -/
structure Dirent where
  d_name : Nat
  name : Str
  left : Nat → Str
  nulFree : NulFree name

/-- What the pointers read when the addresses read `left` and the table is asked for `name`. -/
def reads (left : Nat → Str) (name : Str) : NamePtr → Str
  | .d_name a => left a
  | .asked => name

/-- What the addresses read when the name of the entry was cut off. -/
def Dirent.cut (file : Dirent) (base : Str) : Nat → Str :=
  Function.update file.left file.d_name base

/-- `full_path`; it has room for every name. -/
def full_path (name : Str) : Str := strncat PUBLIC_KEY_DIR name (256 + 25 + 1)

/-- The globals: the table and the counter `key_id`, which also numbers the copies. -/
structure Keys (Key : Type) where
  public_key_hash_table : KeyTable Key
  key_id : Nat
  deriving DecidableEq, Repr

section Load
variable {Key : Type} (client_open_pub_key : Str → Option Key)

/-- One turn of the loop of `load_public_keys`; `none` when the process dies, on a key that
was not opened or on the `free` of a name inside an entry. -/
def load_entry (s : Keys Key) (file : Dirent) : Option (Keys Key) :=
  match strrchr file.name 46 with
  | none => some s
  | some (base, ext) =>
    if strncmp_zero ext PUB 4 then
      match client_open_pub_key (full_path file.name) with
      | none => none
      | some key =>
        let added := key_hash_add (reads (file.cut base) []) s.key_id s.public_key_hash_table
          (.d_name file.d_name) ⟨s.key_id, key⟩
        if added.2 then none else some ⟨added.1, s.key_id + 1⟩
    else some s

/-- `load_public_keys`, with the results of `readdir`. -/
def load_public_keys (files : List Dirent) : Option (Keys Key) :=
  files.foldlM (load_entry client_open_pub_key) ⟨key_create_hash_table, 0⟩

end Load

/-! ## What the loop enters -/

/-- The name of a `.pub` file. -/
def Dirent.base (file : Dirent) : Option Str :=
  match strrchr file.name 46 with
  | none => none
  | some (base, ext) => if strncmp_zero ext PUB 4 then some base else none

theorem Dirent.base_eq_some_iff {file : Dirent} {base : Str} :
    file.base = some base ↔ file.name = base ++ 46 :: PUB := by
  have hdot : (46 : UInt8) ∉ PUB := by decide
  rw [Dirent.base]
  constructor
  · intro h
    split at h
    · cases h
    · rename_i base' ext hsplit
      obtain ⟨hname, -⟩ := strrchr_eq_some_iff.mp hsplit
      have hext : NulFree ext := fun c hc => file.nulFree c (by rw [hname]; simp [hc])
      split at h
      · rename_i hpub
        cases h
        rw [hname, (strncmp_zero_iff hext (by decide)).mp hpub]
      · cases h
  · intro h
    rw [strrchr_eq_some_iff.mpr ⟨h, hdot⟩]
    rfl

/-- The `.pub` files in order, each with its name. -/
def pub_files (files : List Dirent) : List (Dirent × Str) :=
  files.filterMap fun file => file.base.map fun base => (file, base)

theorem mem_pub_files_iff {files : List Dirent} {p : Dirent × Str} :
    p ∈ pub_files files ↔ p.1 ∈ files ∧ p.1.name = p.2 ++ 46 :: PUB := by
  rw [pub_files, List.mem_filterMap]
  constructor
  · rintro ⟨file, hfile, hmap⟩
    obtain ⟨base, hbase, rfl⟩ := Option.map_eq_some_iff.mp hmap
    exact ⟨hfile, Dirent.base_eq_some_iff.mp hbase⟩
  · rintro ⟨hfile, hname⟩
    exact ⟨p.1, hfile, by rw [Dirent.base_eq_some_iff.mpr hname]; rfl⟩

section Nodes
variable {Key : Type} (contents : Dirent → Key)

/-- The node of the `i`th `.pub` file. -/
def key_node (p : Dirent × Str) (i : Nat) : HashNode NamePtr UInt32 (rsa_key_o Key) :=
  ⟨g_str_hash p.2, .d_name p.1.d_name, create_rsa_key i p.2 ⟨i, contents p.1⟩⟩

/-- The globals when these files were entered. -/
def loaded (pubs : List (Dirent × Str)) : Keys Key :=
  ⟨pubs.mapIdx fun i p => key_node contents p i, pubs.length⟩

/-- An earlier file does not look like a later one when that is entered. -/
def Apart (q p : Dirent × Str) : Prop :=
  g_str_hash q.2 = g_str_hash p.2 → p.1.cut p.2 q.1.d_name ≠ p.2

variable {contents} {client_open_pub_key : Str → Option Key}

theorem loaded_concat (pubs : List (Dirent × Str)) (p : Dirent × Str) :
    loaded contents (pubs ++ [p]) =
      ⟨(loaded contents pubs).public_key_hash_table ++ [key_node contents p pubs.length],
        pubs.length + 1⟩ := by
  rw [loaded, loaded, List.mapIdx_concat, List.length_append, List.length_singleton]

theorem mem_loaded_iff {pubs : List (Dirent × Str)}
    {n : HashNode NamePtr UInt32 (rsa_key_o Key)} :
    n ∈ (loaded contents pubs).public_key_hash_table ↔
      ∃ i p, pubs[i]? = some p ∧ n = key_node contents p i := by
  rw [loaded, List.mem_mapIdx]
  constructor
  · rintro ⟨i, hi, rfl⟩
    exact ⟨i, _, List.getElem?_eq_getElem hi, rfl⟩
  · rintro ⟨i, p, hp, rfl⟩
    obtain ⟨hi, rfl⟩ := List.getElem?_eq_some_iff.mp hp
    exact ⟨i, hi, rfl⟩

theorem hit_key_node_iff {left : Nat → Str} {name : Str} {p : Dirent × Str} {i : Nat} {s : Str} :
    hit g_str_hash (reads left name) s (key_node contents p i) = true ↔
      g_str_hash p.2 = g_str_hash s ∧ left p.1.d_name = s := by
  rw [hit, decide_eq_true_iff]
  rfl

/-- **One file.**  A `.pub` file is entered exactly when no earlier one looks like it. -/
theorem load_entry_pub_iff {file : Dirent} {base : Str} (hbase : file.base = some base)
    (hopen : client_open_pub_key (full_path file.name) = some (contents file))
    (pubs : List (Dirent × Str)) (t : Keys Key) :
    load_entry client_open_pub_key (loaded contents pubs) file = some t ↔
      (∀ q ∈ pubs, Apart q (file, base)) ∧ t = loaded contents (pubs ++ [(file, base)]) := by
  have hsplit : strrchr file.name 46 = some (base, PUB) :=
    strrchr_eq_some_iff.mpr ⟨Dirent.base_eq_some_iff.mp hbase, by decide⟩
  have hpub : strncmp_zero PUB PUB 4 = true := by decide
  have hreads : reads (file.cut base) [] (.d_name file.d_name) = base := by
    rw [reads, Dirent.cut, Function.update_self]
  simp only [load_entry, hsplit, hpub, hopen, if_true, key_hash_add, hreads]
  by_cases hapart : ∀ q ∈ pubs, Apart q (file, base)
  · have hnot : ∀ n ∈ (loaded contents pubs).public_key_hash_table,
        ¬ hit g_str_hash (reads (file.cut base) [])
          (reads (file.cut base) [] (.d_name file.d_name)) n := by
      intro n hn hhit
      obtain ⟨i, q, hq, rfl⟩ := mem_loaded_iff.mp hn
      rw [hreads, hit_key_node_iff] at hhit
      exact hapart q (List.mem_of_getElem? hq) hhit.1 hhit.2
    rw [insert_of_not_hit _ _ hnot, loaded_concat, hreads, and_iff_right hapart]
    simp only [Bool.false_eq_true, if_false, Option.some_inj]
    exact eq_comm
  · have hfreed : (g_hash_table_insert g_str_hash (reads (file.cut base) [])
        (loaded contents pubs).public_key_hash_table (.d_name file.d_name)
        (create_rsa_key (loaded contents pubs).key_id base
          ⟨(loaded contents pubs).key_id, contents file⟩)).2 = true := by
      simp only [not_forall] at hapart
      obtain ⟨q, hq, hlike⟩ := hapart
      obtain ⟨hhash, hsame⟩ := Classical.not_imp.mp hlike
      obtain ⟨i, hi⟩ := List.mem_iff_getElem?.mp hq
      refine (insert_freed_iff g_str_hash _).mpr ⟨.d_name q.1.d_name, ?_, ?_⟩
      · exact ⟨_, mem_loaded_iff.mpr ⟨i, q, hi, rfl⟩, by rw [hreads]; exact hhash, rfl⟩
      · rw [hreads]
        exact not_not.mp hsame
    rw [hfreed, if_pos rfl]
    exact iff_of_false (fun h => nomatch h) fun h => hapart h.1

theorem load_entry_skip {file : Dirent} (hbase : file.base = none) (s : Keys Key) :
    load_entry client_open_pub_key s file = some s := by
  rw [Dirent.base] at hbase
  rw [load_entry]
  split at hbase
  · rfl
  · split at hbase
    · cases hbase
    · rename_i hpub
      exact if_neg hpub

/-- Every `.pub` file is opened, and `contents` is the key in it. -/
def Opened (client_open_pub_key : Str → Option Key) (contents : Dirent → Key)
    (files : List Dirent) : Prop :=
  ∀ file ∈ files, ∀ base, file.name = base ++ 46 :: PUB →
    client_open_pub_key (full_path file.name) = some (contents file)

/-- **The whole directory.** -/
theorem load_public_keys_iff {files : List Dirent}
    (hopen : Opened client_open_pub_key contents files) (t : Keys Key) :
    load_public_keys client_open_pub_key files = some t ↔
      (pub_files files).Pairwise Apart ∧ t = loaded contents (pub_files files) := by
  induction files using List.reverseRecOn generalizing t with
  | nil => simp [load_public_keys, pub_files, loaded, key_create_hash_table, eq_comm]
  | append_singleton files file ih =>
    have ih := ih fun f hf => hopen f (List.mem_append_left _ hf)
    have hstep : load_public_keys client_open_pub_key (files ++ [file]) =
        load_public_keys client_open_pub_key files >>= fun s =>
          load_entry client_open_pub_key s file := by
      simp [load_public_keys, List.foldlM_append]
    rw [hstep, Option.bind_eq_bind, Option.bind_eq_some_iff]
    cases hbase : file.base with
    | none =>
      have hpubs : pub_files (files ++ [file]) = pub_files files := by
        simp [pub_files, List.filterMap_append, hbase]
      rw [hpubs, ← ih t]
      constructor
      · rintro ⟨s, hs, hnext⟩
        rw [load_entry_skip hbase, Option.some_inj] at hnext
        rw [← hnext, hs]
      · exact fun ht => ⟨t, ht, load_entry_skip hbase t⟩
    | some base =>
      have hpubs : pub_files (files ++ [file]) = pub_files files ++ [(file, base)] := by
        simp [pub_files, List.filterMap_append, hbase]
      have hfile := hopen file (by simp) base (Dirent.base_eq_some_iff.mp hbase)
      rw [hpubs, List.pairwise_append]
      simp only [ih, List.pairwise_singleton, List.mem_singleton, forall_eq, true_and]
      constructor
      · rintro ⟨s, ⟨hpair, rfl⟩, hnext⟩
        obtain ⟨hapart, ht⟩ := (load_entry_pub_iff hbase hfile _ _).mp hnext
        exact ⟨⟨hpair, hapart⟩, ht⟩
      · rintro ⟨⟨hpair, hapart⟩, ht⟩
        exact ⟨_, ⟨hpair, rfl⟩, (load_entry_pub_iff hbase hfile _ _).mpr ⟨hapart, ht⟩⟩

end Nodes

/-! ## Looking up -/

section Lookup
variable {Key : Type} {contents : Dirent → Key} {client_open_pub_key : Str → Option Key}
  {files : List Dirent}

/-- Once everything is read, a lookup finds for each `.pub` file the copy made of its key, and
nothing under a name without such a file.  The addresses read `at_end` by then. -/
def KeysFound (client_open_pub_key : Str → Option Key) (contents : Dirent → Key)
    (files : List Dirent) (at_end : Nat → Str) : Prop :=
  ∃ t, load_public_keys client_open_pub_key files = some t ∧
    (∀ (i : Nat) p, (pub_files files)[i]? = some p →
      key_get_by_name (reads at_end p.2) t.public_key_hash_table .asked =
        some ⟨i, contents p.1⟩) ∧
    ∀ name, (∀ file ∈ files, file.name ≠ name ++ 46 :: PUB) →
      key_get_by_name (reads at_end name) t.public_key_hash_table .asked = none

/-- No entry with a key is overwritten: at the end each still reads the name it was cut off to,
and in between none reads the name that is entered, unless their hashes differ. -/
structure Kept (files : List Dirent) (at_end : Nat → Str) : Prop where
  apart : (pub_files files).Pairwise Apart
  reads_base : ∀ p ∈ pub_files files, at_end p.1.d_name = p.2

theorem pub_files_nodup (hdistinct : (files.map Dirent.name).Nodup) :
    ((pub_files files).map Prod.snd).Nodup := by
  rw [List.Nodup, List.pairwise_map, pub_files, List.pairwise_filterMap]
  rw [List.Nodup, List.pairwise_map] at hdistinct
  refine hdistinct.imp fun {file file'} hne p hp p' hp' hsame => hne ?_
  obtain ⟨base, hbase, rfl⟩ := Option.map_eq_some_iff.mp hp
  obtain ⟨base', hbase', rfl⟩ := Option.map_eq_some_iff.mp hp'
  rw [Dirent.base_eq_some_iff.mp hbase, Dirent.base_eq_some_iff.mp hbase',
    show base = base' from hsame]

/-- A name is entered once. -/
theorem pub_files_inj (hdistinct : (files.map Dirent.name).Nodup) {i j : Nat}
    {p q : Dirent × Str} (hp : (pub_files files)[i]? = some p)
    (hq : (pub_files files)[j]? = some q) (hsame : p.2 = q.2) : i = j := by
  have hi : ((pub_files files).map Prod.snd)[i]? = some p.2 := by
    rw [List.getElem?_map, hp]
    rfl
  have hj : ((pub_files files).map Prod.snd)[j]? = some p.2 := by
    rw [List.getElem?_map, hq, hsame]
    rfl
  exact (List.getElem?_inj (List.getElem?_eq_some_iff.mp hi).1 (pub_files_nodup hdistinct)).mp
    (hi.trans hj.symm)

/-- A lookup of a name finds the key of an entry that reads it. -/
theorem key_get_by_name_loaded {left : Nat → Str} {name : Str} {key : KeyCopy Key}
    {pubs : List (Dirent × Str)}
    (h : key_get_by_name (reads left name) (loaded contents pubs).public_key_hash_table .asked =
      some key) :
    ∃ i p, pubs[i]? = some p ∧ left p.1.d_name = name ∧ key = ⟨i, contents p.1⟩ := by
  obtain ⟨rsa_key, hlookup, rfl⟩ := Option.map_eq_some_iff.mp h
  obtain ⟨n, hn, rfl, hhit⟩ := exists_of_lookup _ _ hlookup
  obtain ⟨i, p, hp, rfl⟩ := mem_loaded_iff.mp hn
  exact ⟨i, p, hp, (hit_key_node_iff.mp hhit).2, rfl⟩

/-- The keys are found exactly when no entry with a key is overwritten. -/
theorem keys_found_iff (hdistinct : (files.map Dirent.name).Nodup)
    (hopen : Opened client_open_pub_key contents files) (at_end : Nat → Str) :
    KeysFound client_open_pub_key contents files at_end ↔ Kept files at_end := by
  constructor
  · rintro ⟨t, hload, hfound, -⟩
    obtain ⟨hapart, rfl⟩ := (load_public_keys_iff hopen t).mp hload
    refine ⟨hapart, fun p hp => ?_⟩
    obtain ⟨i, hi⟩ := List.mem_iff_getElem?.mp hp
    obtain ⟨j, q, hq, hreads, hkey⟩ := key_get_by_name_loaded (hfound i p hi)
    -- the copy found is the one made of this file
    obtain rfl : i = j := congrArg KeyCopy.number hkey
    obtain rfl := Option.some.inj (hi.symm.trans hq)
    exact hreads
  · intro hkept
    refine ⟨loaded contents (pub_files files),
      (load_public_keys_iff hopen _).mpr ⟨hkept.apart, rfl⟩, fun i p hp => ?_, fun name hname => ?_⟩
    · have hbase := hkept.reads_base p (List.mem_of_getElem? hp)
      have hunique : ∀ n ∈ (loaded contents (pub_files files)).public_key_hash_table,
          hit g_str_hash (reads at_end p.2) p.2 n → n = key_node contents p i := by
        intro n hn hhit
        obtain ⟨j, q, hq, rfl⟩ := mem_loaded_iff.mp hn
        have hq' := hkept.reads_base q (List.mem_of_getElem? hq)
        have hsame : p.2 = q.2 := (hit_key_node_iff.mp hhit).2.symm.trans hq'
        obtain rfl := pub_files_inj hdistinct hp hq hsame
        rw [Option.some.inj (hp.symm.trans hq)]
      have hlookup : g_hash_table_lookup g_str_hash (reads at_end p.2)
          (loaded contents (pub_files files)).public_key_hash_table .asked =
            some (key_node contents p i).value :=
        lookup_of_unique _ _ (mem_loaded_iff.mpr ⟨i, p, hp, rfl⟩)
          (hit_key_node_iff.mpr ⟨rfl, hbase⟩) hunique
      rw [key_get_by_name, hlookup]
      rfl
    · by_contra hsome
      obtain ⟨key, hkey⟩ := Option.ne_none_iff_exists'.mp hsome
      obtain ⟨i, p, hp, hreads, -⟩ := key_get_by_name_loaded hkey
      have hp := List.mem_of_getElem? hp
      obtain ⟨hfile, hpub⟩ := mem_pub_files_iff.mp hp
      rw [hkept.reads_base p hp] at hreads
      exact hname p.1 hfile (hreads ▸ hpub)

end Lookup

/-- The entry of a file such as `a.pub`, at an address. -/
def pub_entry (d_name : Nat) (c : UInt8) (hc : c ≠ 0) : Dirent where
  d_name := d_name
  name := c :: 46 :: PUB
  left _ := []
  nulFree d hd := by
    rcases List.mem_cons.mp hd with rfl | hd
    · exact hc
    · exact (show NulFree (46 :: PUB) by decide) d hd

/-- Each of the two has an entry of its own. -/
def two_entries : List Dirent := [pub_entry 0 97 (by decide), pub_entry 1 98 (by decide)]

/-- They share one. -/
def one_entry_twice : List Dirent := [pub_entry 0 97 (by decide), pub_entry 0 98 (by decide)]

/-- The entries are as they were left. -/
theorem keys_found_iff_two :
    KeysFound (fun path => some path) (fun file => full_path file.name) two_entries
        (fun a => if a = 0 then [97] else [98]) ↔
      Kept two_entries fun a => if a = 0 then [97] else [98] :=
  keys_found_iff (by decide) (fun _ _ _ _ => rfl) _

/-- With one entry for both, the pointer the first key was entered under reads `b` in the end,
and `a` is not found. -/
theorem overwritten_key_lost :
    (load_public_keys (fun path => some path) one_entry_twice).map (fun t =>
        key_get_by_name (reads (fun _ => [98]) [97]) t.public_key_hash_table .asked) =
      some none ∧
    ¬ KeysFound (fun path => some path) (fun file => full_path file.name) one_entry_twice
      fun _ => [98] := by
  refine ⟨by decide, fun hfound => ?_⟩
  have hopen : Opened (fun path => some path) (fun file => full_path file.name) one_entry_twice :=
    fun _ _ _ _ => rfl
  have hkept := (keys_found_iff (by decide) hopen _).mp hfound
  exact absurd (hkept.reads_base (pub_entry 0 97 (by decide), [97])
    (mem_pub_files_iff.mpr ⟨List.mem_cons_self, rfl⟩)) (by decide)

end AnonyChat
