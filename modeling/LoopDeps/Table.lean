set_option autoImplicit false

/- A table holds values under natural-number keys, in increasing key order. The order is part of
   the type, so two tables with the same answers to every lookup are equal, and a traversal needs
   no sorting. -/
namespace LoopDeps

universe u v

abbrev Increasing {α : Type u} (entries : List (Nat × α)) : Prop :=
  entries.Pairwise fun a b => a.1 < b.1

structure Table (α : Type u) where
  entries : List (Nat × α)
  increasing : Increasing entries

namespace Table

variable {α : Type u} {β : Type v}

def lookupEntry (key : Nat) : List (Nat × α) → Option α
  | [] => none
  | (k, value) :: tail => if key = k then some value else lookupEntry key tail

-- A value under a key already present replaces the old one.
def insertEntry (key : Nat) (value : α) : List (Nat × α) → List (Nat × α)
  | [] => [(key, value)]
  | (k, old) :: tail =>
      if key < k then (key, value) :: (k, old) :: tail
      else if key = k then (key, value) :: tail
      else (k, old) :: insertEntry key value tail

theorem mem_insert_entry (key : Nat) (value : α) (entries : List (Nat × α)) (entry : Nat × α)
    (mem : entry ∈ insertEntry key value entries) : entry = (key, value) ∨ entry ∈ entries := by
  induction entries with
  | nil => simpa [insertEntry] using mem
  | cons head tail ih =>
    rcases head with ⟨k, old⟩
    unfold insertEntry at mem
    split at mem
    · simpa using mem
    · split at mem
      · rcases List.mem_cons.mp mem with same | later
        · exact Or.inl same
        · exact Or.inr (List.mem_cons_of_mem _ later)
      · rcases List.mem_cons.mp mem with same | later
        · exact Or.inr (same ▸ List.mem_cons_self)
        · rcases ih later with same | older
          · exact Or.inl same
          · exact Or.inr (List.mem_cons_of_mem _ older)

theorem increasing_insert_entry (key : Nat) (value : α) (entries : List (Nat × α))
    (ordered : Increasing entries) : Increasing (insertEntry key value entries) := by
  induction entries with
  | nil => simp [insertEntry]
  | cons head tail ih =>
    rcases head with ⟨k, old⟩
    have parts := List.pairwise_cons.mp ordered
    unfold insertEntry
    split
    · rename_i less
      refine List.pairwise_cons.mpr ⟨?_, ordered⟩
      intro entry mem
      rcases List.mem_cons.mp mem with same | later
      · simpa [same] using less
      · exact Nat.lt_trans less (parts.1 entry later)
    · split
      · rename_i same
        subst same
        exact List.pairwise_cons.mpr ⟨parts.1, parts.2⟩
      · rename_i notLess different
        refine List.pairwise_cons.mpr ⟨?_, ih parts.2⟩
        intro entry mem
        rcases mem_insert_entry key value tail entry mem with same | older
        · subst same
          show k < key
          omega
        · exact parts.1 entry older

def empty : Table α := ⟨[], List.Pairwise.nil⟩

def get? (t : Table α) (key : Nat) : Option α := lookupEntry key t.entries

def contains (t : Table α) (key : Nat) : Bool := (t.get? key).isSome

def insert (t : Table α) (key : Nat) (value : α) : Table α :=
  ⟨insertEntry key value t.entries, increasing_insert_entry key value t.entries t.increasing⟩

def erase (t : Table α) (key : Nat) : Table α :=
  ⟨t.entries.filter (fun entry => entry.1 != key), t.increasing.filter _⟩

-- Changes every value and keeps the keys.
def map (f : α → β) (t : Table α) : Table β :=
  ⟨t.entries.map fun entry => (entry.1, f entry.2),
   List.pairwise_map.mpr t.increasing⟩

-- Changes the value under one key and does nothing when the key is absent.
def modify (t : Table α) (key : Nat) (f : α → α) : Table α :=
  ⟨t.entries.map fun entry => (entry.1, if entry.1 = key then f entry.2 else entry.2),
   List.pairwise_map.mpr t.increasing⟩

def keys (t : Table α) : List Nat := t.entries.map (·.1)

def values (t : Table α) : List α := t.entries.map (·.2)

def size (t : Table α) : Nat := t.entries.length

theorem lookup_entry_eq_some {key : Nat} {value : α} {entries : List (Nat × α)}
    (ordered : Increasing entries) :
    lookupEntry key entries = some value ↔ (key, value) ∈ entries := by
  induction entries with
  | nil => simp [lookupEntry]
  | cons head tail ih =>
    rcases head with ⟨k, old⟩
    have parts := List.pairwise_cons.mp ordered
    unfold lookupEntry
    split
    · rename_i same
      subst same
      constructor
      · intro found
        exact List.mem_cons.mpr (Or.inl (by simpa using found.symm))
      · intro mem
        rcases List.mem_cons.mp mem with first | later
        · simpa using (congrArg Prod.snd first).symm
        · exact absurd (parts.1 _ later) (Nat.lt_irrefl key)
    · rename_i different
      rw [ih parts.2]
      constructor
      · exact List.mem_cons_of_mem _
      · intro mem
        rcases List.mem_cons.mp mem with first | later
        · exact absurd (congrArg Prod.fst first) different
        · exact later

theorem get_eq_some {t : Table α} {key : Nat} {value : α} :
    t.get? key = some value ↔ (key, value) ∈ t.entries := lookup_entry_eq_some t.increasing

theorem get_insert (t : Table α) (key other : Nat) (value : α) :
    (t.insert key value).get? other = if other = key then some value else t.get? other := by
  rcases t with ⟨entries, ordered⟩
  show lookupEntry other (insertEntry key value entries) = _
  change _ = if other = key then some value else lookupEntry other entries
  clear ordered
  induction entries with
  | nil => rfl
  | cons head tail ih =>
    rcases head with ⟨k, old⟩
    unfold insertEntry
    split
    · rfl
    · split
      · rename_i same
        subst same
        simp only [lookupEntry]
        split <;> rfl
      · rename_i different
        simp only [lookupEntry, ih]
        by_cases first : other = k
        · simp only [if_pos first]
          rw [if_neg (fun same => different (same.symm.trans first))]
        · simp only [if_neg first]

theorem get_erase (t : Table α) (key other : Nat) :
    (t.erase key).get? other = if other = key then none else t.get? other := by
  apply Option.ext
  intro value
  rw [get_eq_some]
  show (other, value) ∈ t.entries.filter (fun entry => entry.1 != key) ↔ _
  by_cases same : other = key
  · simp [same]
  · simp [same, get_eq_some]

theorem get_map (f : α → β) (t : Table α) (key : Nat) : (t.map f).get? key = (t.get? key).map f := by
  rcases t with ⟨entries, ordered⟩
  show lookupEntry key (entries.map fun entry => (entry.1, f entry.2)) = (lookupEntry key entries).map f
  clear ordered
  induction entries with
  | nil => rfl
  | cons head tail ih =>
    rcases head with ⟨k, old⟩
    simp only [List.map_cons, lookupEntry, ih]
    split <;> rfl

theorem get_modify (t : Table α) (key other : Nat) (f : α → α) :
    (t.modify key f).get? other = if other = key then (t.get? other).map f else t.get? other := by
  rcases t with ⟨entries, ordered⟩
  show lookupEntry other
      (entries.map fun entry => (entry.1, if entry.1 = key then f entry.2 else entry.2)) =
    if other = key then (lookupEntry other entries).map f else lookupEntry other entries
  clear ordered
  induction entries with
  | nil => simp [lookupEntry]
  | cons head tail ih =>
    rcases head with ⟨k, old⟩
    simp only [List.map_cons, lookupEntry, ih]
    by_cases first : other = k
    · subst first
      by_cases same : other = key
      · simp [same]
      · simp [same]
    · simp only [if_neg first]

theorem mem_keys {t : Table α} {key : Nat} : key ∈ t.keys ↔ (t.get? key).isSome := by
  rw [Option.isSome_iff_exists]
  constructor
  · intro mem
    rcases List.mem_map.mp mem with ⟨⟨k, value⟩, found, same⟩
    exact ⟨value, get_eq_some.mpr (by simpa [← same] using found)⟩
  · rintro ⟨value, found⟩
    exact List.mem_map.mpr ⟨(key, value), get_eq_some.mp found, rfl⟩

theorem mem_values {t : Table α} {value : α} :
    value ∈ t.values ↔ ∃ key, t.get? key = some value := by
  constructor
  · intro mem
    rcases List.mem_map.mp mem with ⟨⟨key, held⟩, found, same⟩
    exact ⟨key, get_eq_some.mpr (by simpa [← same] using found)⟩
  · rintro ⟨key, found⟩
    exact List.mem_map.mpr ⟨(key, value), get_eq_some.mp found, rfl⟩

-- An increasing list is determined by its members.
theorem increasing_ext {first second : List (Nat × α)} (left : Increasing first)
    (right : Increasing second) (same : ∀ entry, entry ∈ first ↔ entry ∈ second) :
    first = second := by
  induction first generalizing second with
  | nil =>
    cases second with
    | nil => rfl
    | cons head tail => exact absurd ((same head).mpr List.mem_cons_self) List.not_mem_nil
  | cons head tail ih =>
    cases second with
    | nil => exact absurd ((same head).mp List.mem_cons_self) List.not_mem_nil
    | cons other rest =>
      have below := List.pairwise_cons.mp left
      have above := List.pairwise_cons.mp right
      have heads : head = other := by
        rcases List.mem_cons.mp ((same head).mp List.mem_cons_self) with equal | later
        · exact equal
        · rcases List.mem_cons.mp ((same other).mpr List.mem_cons_self) with equal | after
          · exact equal.symm
          · exact absurd (Nat.lt_trans (above.1 head later) (below.1 other after)) (Nat.lt_irrefl _)
      subst heads
      have tails : tail = rest := by
        apply ih below.2 above.2
        intro entry
        constructor
        · intro mem
          rcases List.mem_cons.mp ((same entry).mp (List.mem_cons_of_mem _ mem)) with equal | later
          · exact absurd (equal ▸ below.1 entry mem) (Nat.lt_irrefl _)
          · exact later
        · intro mem
          rcases List.mem_cons.mp ((same entry).mpr (List.mem_cons_of_mem _ mem)) with equal | later
          · exact absurd (equal ▸ above.1 entry mem) (Nat.lt_irrefl _)
          · exact later
      rw [tails]

theorem ext_get {first second : Table α} (same : ∀ key, first.get? key = second.get? key) :
    first = second := by
  have entries : first.entries = second.entries := by
    apply increasing_ext first.increasing second.increasing
    rintro ⟨key, value⟩
    rw [← get_eq_some, ← get_eq_some, same]
  cases first
  cases second
  cases entries
  rfl

theorem map_insert (f : α → β) (t : Table α) (key : Nat) (value : α) :
    (t.insert key value).map f = (t.map f).insert key (f value) := by
  apply ext_get
  intro other
  rw [get_map, get_insert, get_insert, get_map]
  split <;> rfl

-- Changes that do not mind each other can be made in either order.
theorem map_modify (f : α → β) (change : α → α) (after : β → β) (t : Table α) (key : Nat)
    (same : ∀ value, f (change value) = after (f value)) : (t.modify key change).map f = (t.map f).modify key after := by
  apply ext_get
  intro other
  rw [get_map, get_modify, get_modify, get_map]
  split
  · rw [Option.map_map, Option.map_map]
    exact congrArg (Option.map · (t.get? other)) (funext same)
  · rfl

theorem map_congr {f other : α → β} {t : Table α} (same : ∀ key value, t.get? key = some value → f value = other value) :
    t.map f = t.map other := by
  apply ext_get
  intro key
  rw [get_map, get_map]
  cases found : t.get? key with
  | none => rfl
  | some value => exact congrArg some (same key value found)

theorem map_map {γ : Type v} (f : α → β) (after : β → γ) (t : Table α) :
    (t.map f).map after = t.map fun value => after (f value) := by
  apply ext_get
  intro key
  rw [get_map, get_map, get_map, Option.map_map]
  rfl

theorem map_id (t : Table α) : t.map (fun value => value) = t := by
  apply ext_get
  intro key
  rw [get_map, Option.map_id']

theorem contains_iff {t : Table α} {key : Nat} :
    t.contains key = true ↔ ∃ value, t.get? key = some value := Option.isSome_iff_exists

theorem keys_nodup (t : Table α) : t.keys.Nodup :=
  List.pairwise_map.mpr (t.increasing.imp fun less => Nat.ne_of_lt less)

-- The keys begin with the least one.
theorem head_keys (t : Table α) (key : Nat) (member : key ∈ t.keys) (least : ∀ other ∈ t.keys, key ≤ other) :
    t.keys.head? = some key := by
  have ordered : t.keys.Pairwise (· < ·) := List.pairwise_map.mpr t.increasing
  cases keys : t.keys with
  | nil => simp [keys] at member
  | cons first rest =>
    rw [keys] at member ordered least
    rcases List.mem_cons.mp member with rfl | later
    · rfl
    · have below := (List.pairwise_cons.mp ordered).1 key later
      exact absurd (least first List.mem_cons_self) (Nat.not_le_of_lt below)

-- A key above all others goes to the end.
theorem insert_entry_above (key : Nat) (value : α) (entries : List (Nat × α))
    (above : ∀ entry ∈ entries, entry.1 < key) :
    insertEntry key value entries = entries ++ [(key, value)] := by
  induction entries with
  | nil => rfl
  | cons head tail ih =>
    have less := above head List.mem_cons_self
    rw [insertEntry, if_neg (Nat.not_lt_of_gt less), if_neg (Nat.ne_of_gt less),
      ih fun entry mem => above entry (List.mem_cons_of_mem _ mem)]
    rfl

theorem entries_insert_above (t : Table α) (key : Nat) (value : α)
    (above : ∀ other found, t.get? other = some found → other < key) :
    (t.insert key value).entries = t.entries ++ [(key, value)] :=
  insert_entry_above key value t.entries fun entry mem =>
    above entry.1 entry.2 (get_eq_some.mpr mem)

theorem values_insert_above (t : Table α) (key : Nat) (value : α)
    (above : ∀ other found, t.get? other = some found → other < key) :
    (t.insert key value).values = t.values ++ [value] := by
  simp only [values, entries_insert_above t key value above, List.map_append, List.map_cons,
    List.map_nil]

theorem values_length (t : Table α) : t.values.length = t.size := List.length_map _

theorem size_insert_above (t : Table α) (key : Nat) (value : α)
    (above : ∀ other found, t.get? other = some found → other < key) :
    (t.insert key value).size = t.size + 1 := by
  simp only [size, entries_insert_above t key value above, List.length_append, List.length_singleton]

theorem size_map (f : α → β) (t : Table α) : (t.map f).size = t.size := List.length_map _

theorem size_modify (t : Table α) (key : Nat) (f : α → α) : (t.modify key f).size = t.size :=
  List.length_map _

theorem size_erase (t : Table α) (key : Nat) (held : key ∈ t.keys) :
    (t.erase key).size + 1 = t.size := by
  have others : (t.erase key).keys = t.keys.erase key := by
    rw [t.keys_nodup.erase_eq_filter]
    simp only [keys, erase, List.filter_map]
    rfl
  have length : ∀ s : Table α, s.keys.length = s.size := fun s => List.length_map _
  rw [← length, ← length, others, List.length_erase_of_mem held]
  have := List.length_pos_of_mem held
  omega

end Table

end LoopDeps
