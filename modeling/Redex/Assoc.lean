/-!
# Association lists

Names with their values, in the order in which the names were first inserted. Looking up is
`List.lookup`. Main statements: what a lookup finds after an insertion, of one pair and of several,
which pairs and names there are then, and that the order of the pairs makes no difference to a lookup
where no name stands twice.
-/

namespace Redex.Assoc

variable {α : Type} {name key : String} {value : α} {entries pairs : List (String × α)}

/-- Binds `name` to `value`: in place if the name is there, at the end otherwise. -/
def insert (name : String) (value : α) : List (String × α) → List (String × α)
  | [] => [(name, value)]
  | (other, old) :: entries =>
    if other == name then (name, value) :: entries else (other, old) :: insert name value entries

def insertAll (entries pairs : List (String × α)) : List (String × α) :=
  pairs.foldl (fun acc p => insert p.1 p.2 acc) entries

/-- The association list of the given pairs; the last value of a name wins. -/
def ofList (pairs : List (String × α)) : List (String × α) :=
  insertAll [] pairs

/-- The names, in order of first insertion. -/
def names (entries : List (String × α)) : List String :=
  entries.map Prod.fst

def without (hidden : List String) (entries : List (String × α)) : List (String × α) :=
  entries.filter fun p => !hidden.contains p.1

@[simp] theorem lookup_insert_self (name : String) (value : α) (entries : List (String × α)) :
    (insert name value entries).lookup name = some value := by
  induction entries with
  | nil => simp [insert]
  | cons p entries ih =>
    obtain ⟨other, old⟩ := p
    by_cases h : other = name
    · simp [insert, h]
    · have h' : (name == other) = false := by simpa using fun e => h e.symm
      simp [insert, h, List.lookup_cons, h', ih]

theorem lookup_insert_of_ne {name key : String} (value : α) (entries : List (String × α))
    (h : key ≠ name) : (insert name value entries).lookup key = entries.lookup key := by
  have hk : (key == name) = false := by simpa using h
  induction entries with
  | nil => simp [insert, List.lookup_cons, hk]
  | cons p entries ih =>
    obtain ⟨other, old⟩ := p
    by_cases ho : other = name
    · subst ho
      simp [insert, List.lookup_cons, hk]
    · simp only [insert, beq_eq_false_iff_ne.mpr ho, Bool.false_eq_true, if_false, List.lookup_cons]
      split
      · rfl
      · exact ih

theorem mem_of_lookup (h : entries.lookup name = some value) : (name, value) ∈ entries := by
  obtain ⟨before, after, rfl, -⟩ := List.lookup_eq_some_iff.mp h
  exact List.mem_append_right _ List.mem_cons_self

theorem isSome_lookup : (entries.lookup name).isSome = true ↔ name ∈ names entries := by
  rw [List.lookup_isSome_iff]
  simp [names]

theorem lookup_without (hidden : List String) (entries : List (String × α)) (name : String) :
    (without hidden entries).lookup name =
      if name ∈ hidden then none else entries.lookup name := by
  induction entries with
  | nil => simp [without]
  | cons entry entries ih =>
    obtain ⟨other, value⟩ := entry
    have hentries : without hidden ((other, value) :: entries) =
        if other ∈ hidden then without hidden entries
        else (other, value) :: without hidden entries := by
      unfold without
      by_cases hother : other ∈ hidden
      · rw [if_pos hother, List.filter_cons_of_neg (by simpa using hother)]
      · rw [if_neg hother, List.filter_cons_of_pos (by simpa using hother)]
    rw [hentries]
    by_cases hname : name = other
    · subst hname
      by_cases hhidden : name ∈ hidden
      · rw [if_pos hhidden, ih]
        simp only [if_pos hhidden]
      · rw [if_neg hhidden, if_neg hhidden, List.lookup_cons_self, List.lookup_cons_self]
    · have hne : (name == other) = false := by simpa using hname
      split
      · rw [ih, List.lookup_cons, hne]
      · rw [List.lookup_cons, List.lookup_cons, hne, ih]

/-! ## Members -/

theorem mem_insert {b : String × α} (h : b ∈ insert name value entries) :
    b = (name, value) ∨ b ∈ entries := by
  induction entries with
  | nil => exact Or.inl (List.mem_singleton.mp h)
  | cons p entries ih =>
    obtain ⟨other, old⟩ := p
    rw [insert] at h
    split at h
    · rcases List.mem_cons.mp h with rfl | h
      · exact Or.inl rfl
      · exact Or.inr (List.mem_cons_of_mem _ h)
    · rcases List.mem_cons.mp h with rfl | h
      · exact Or.inr List.mem_cons_self
      · rcases ih h with h | h
        · exact Or.inl h
        · exact Or.inr (List.mem_cons_of_mem _ h)

theorem mem_insertAll {b : String × α} (h : b ∈ insertAll entries pairs) :
    b ∈ pairs ∨ b ∈ entries := by
  induction pairs generalizing entries with
  | nil => exact Or.inr h
  | cons p pairs ih =>
    have hsplit : b ∈ pairs ∨ b ∈ insert p.1 p.2 entries := ih h
    rcases hsplit with h | h
    · exact Or.inl (List.mem_cons_of_mem p h)
    · rcases mem_insert h with rfl | h
      · exact Or.inl List.mem_cons_self
      · exact Or.inr h

theorem mem_ofList {b : String × α} (h : b ∈ ofList pairs) : b ∈ pairs := by
  rcases mem_insertAll h with h | h
  · exact h
  · cases h

/-! ## Names -/

theorem mem_names_insert :
    name ∈ names (insert key value entries) ↔ name = key ∨ name ∈ names entries := by
  induction entries with
  | nil => simp [insert, names]
  | cons p entries ih =>
    obtain ⟨other, old⟩ := p
    unfold names at ih ⊢
    by_cases h : other = key
    · subst h
      simp [insert]
    · rw [insert, if_neg (by simpa using h), List.map_cons, List.mem_cons, ih, List.map_cons,
        List.mem_cons]
      exact or_left_comm

theorem nodup_insert (h : (names entries).Nodup) : (names (insert key value entries)).Nodup := by
  induction entries with
  | nil => simp [insert, names]
  | cons p entries ih =>
    obtain ⟨other, old⟩ := p
    obtain ⟨hother, hrest⟩ := List.nodup_cons.mp h
    by_cases heq : other = key
    · rw [insert, if_pos (by simpa using heq)]
      subst heq
      exact List.nodup_cons.mpr ⟨hother, hrest⟩
    · rw [insert, if_neg (by simpa using heq)]
      refine List.nodup_cons.mpr ⟨fun hmem => ?_, ih hrest⟩
      exact (mem_names_insert.mp hmem).elim heq hother

theorem mem_names_insertAll :
    name ∈ names (insertAll entries pairs) ↔ name ∈ names pairs ∨ name ∈ names entries := by
  induction pairs generalizing entries with
  | nil => simp [insertAll, names]
  | cons p pairs ih =>
    show name ∈ names (insertAll (insert p.1 p.2 entries) pairs) ↔ name ∈ p.1 :: names pairs ∨ _
    rw [ih, mem_names_insert, List.mem_cons, or_left_comm, or_assoc]

theorem nodup_insertAll (h : (names entries).Nodup) : (names (insertAll entries pairs)).Nodup := by
  induction pairs generalizing entries with
  | nil => exact h
  | cons p pairs ih => exact ih (nodup_insert h)

theorem mem_names_ofList : name ∈ names (ofList pairs) ↔ name ∈ names pairs := by
  rw [ofList, mem_names_insertAll]
  exact or_iff_left List.not_mem_nil

theorem nodup_ofList (pairs : List (String × α)) : (names (ofList pairs)).Nodup :=
  nodup_insertAll List.nodup_nil

theorem lookup_insertAll_of_not_mem (h : name ∉ names pairs) :
    (insertAll entries pairs).lookup name = entries.lookup name := by
  induction pairs generalizing entries with
  | nil => rfl
  | cons p pairs ih =>
    have hne : name ≠ p.1 := fun heq => h (List.mem_cons.mpr (Or.inl heq))
    have hrest : name ∉ names pairs := fun hmem => h (List.mem_cons_of_mem _ hmem)
    show (insertAll (insert p.1 p.2 entries) pairs).lookup name = _
    rw [ih hrest, lookup_insert_of_ne p.2 entries hne]

/-- Where no name stands twice, every pair is found behind the insertion. -/
theorem lookup_insertAll_of_mem (h : (names pairs).Nodup) (hmem : (name, value) ∈ pairs) :
    (insertAll entries pairs).lookup name = some value := by
  induction pairs generalizing entries with
  | nil => cases hmem
  | cons p pairs ih =>
    obtain ⟨hp, hrest⟩ := List.nodup_cons.mp h
    rcases List.mem_cons.mp hmem with rfl | hmem
    · exact (lookup_insertAll_of_not_mem hp).trans (lookup_insert_self name value entries)
    · exact ih hrest hmem

/-! ## Distinct names -/

theorem insert_of_not_mem (h : name ∉ names entries) :
    insert name value entries = entries ++ [(name, value)] := by
  induction entries with
  | nil => rfl
  | cons p entries ih =>
    obtain ⟨hp, hrest⟩ := not_or.mp (mt List.mem_cons.mpr h)
    rw [insert, if_neg (by simpa using fun heq => hp heq.symm), ih hrest]
    rfl

theorem insertAll_of_nodup (h : (names (entries ++ pairs)).Nodup) :
    insertAll entries pairs = entries ++ pairs := by
  induction pairs generalizing entries with
  | nil => exact (List.append_nil entries).symm
  | cons p pairs ih =>
    have hp : p.1 ∉ names entries := by
      unfold names at h ⊢
      rw [List.map_append, List.map_cons] at h
      exact fun hmem => (List.nodup_append.mp h).2.2 p.1 hmem p.1 List.mem_cons_self rfl
    rw [← List.singleton_append, ← List.append_assoc] at h ⊢
    rw [← ih h, ← insert_of_not_mem hp]
    rfl

/-- Pairs with distinct names are an association list as they stand. -/
theorem ofList_of_nodup (h : (names pairs).Nodup) : ofList pairs = pairs :=
  insertAll_of_nodup h

theorem lookup_of_mem (h : (names pairs).Nodup) (hmem : (name, value) ∈ pairs) :
    pairs.lookup name = some value := by
  have hfound : (ofList pairs).lookup name = some value := lookup_insertAll_of_mem h hmem
  rwa [ofList_of_nodup h] at hfound

/-- Where no name stands twice, the order of insertion makes no difference to a lookup. -/
theorem lookup_insertAll_perm {pairs' : List (String × α)} (h : (names pairs).Nodup)
    (perm : pairs.Perm pairs') (name : String) :
    (insertAll entries pairs').lookup name = (insertAll entries pairs).lookup name := by
  have hnames : (names pairs).Perm (names pairs') := perm.map Prod.fst
  by_cases hmem : name ∈ names pairs
  · obtain ⟨⟨_, value⟩, hp, rfl⟩ := List.mem_map.mp hmem
    rw [lookup_insertAll_of_mem h hp,
      lookup_insertAll_of_mem (hnames.nodup h) (perm.mem_iff.mp hp)]
  · rw [lookup_insertAll_of_not_mem hmem,
      lookup_insertAll_of_not_mem (mt hnames.mem_iff.mpr hmem)]

end Redex.Assoc
