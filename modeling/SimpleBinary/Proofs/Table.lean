import SimpleBinary.Table

/-! Tables filled in ascending order of their keys, the values of a table taken
through a function, and what a table answers: of the values given to a key, the
last one. Tables that answer alike are the same. -/
namespace SimpleBinary

section
variable {α β : Type} [BEq α] {content : α → β}
  (hcontent : ∀ a b : α, (a == b) = true ↔ content a = content b)
include hcontent

theorem option_beq_iff (a b : Option α) : (a == b) = true ↔ a.map content = b.map content := by
  cases a <;> cases b <;> simp [hcontent]

theorem list_beq_iff (a b : List α) : (a == b) = true ↔ a.map content = b.map content := by
  induction a generalizing b with
  | nil => cases b <;> simp
  | cons first rest ih =>
    cases b with
    | nil => simp
    | cons other others => simp [hcontent, ih]

end

namespace Table
variable {κ ν μ : Type} [Ord κ]

theorem ext {a b : Table κ ν} (h : a.entries = b.entries) : a = b := by
  cases a
  cases b
  cases h
  rfl

theorem mem_of_get? [BEq κ] [LawfulBEq κ] {table : Table κ ν} {key : κ} {value : ν}
    (h : table.get? key = some value) : (key, value) ∈ table.entries := by
  unfold get? at h
  generalize table.entries = entries at h ⊢
  induction entries with
  | nil => cases h
  | cons entry rest ih =>
    obtain ⟨other, kept⟩ := entry
    rw [List.lookup_cons] at h
    split at h
    · next heq =>
      cases h
      rw [eq_of_beq heq]
      exact List.mem_cons_self
    · exact List.mem_cons_of_mem _ (ih h)

def map (f : ν → μ) (table : Table κ ν) : Table κ μ :=
  ⟨table.entries.map fun entry => (entry.1, f entry.2),
    List.pairwise_map.mpr (table.sorted.imp fun h => h)⟩

@[simp] theorem entries_map (f : ν → μ) (table : Table κ ν) :
    (table.map f).entries = table.entries.map fun entry => (entry.1, f entry.2) := rfl

@[simp] theorem map_empty (f : ν → μ) : (empty : Table κ ν).map f = empty := rfl

theorem get?_map [BEq κ] (f : ν → μ) (table : Table κ ν) (key : κ) :
    (table.map f).get? key = (table.get? key).map f := by
  rw [get?, get?, entries_map]
  induction table.entries with
  | nil => rfl
  | cons head rest ih =>
    rw [List.map_cons, List.lookup_cons, List.lookup_cons]
    cases key == head.1 with
    | true => rfl
    | false => exact ih

theorem map_of_forall {f : ν → ν} {table : Table κ ν}
    (h : ∀ entry ∈ table.entries, f entry.2 = entry.2) : table.map f = table := by
  refine ext ?_
  rw [entries_map, List.map_congr_left fun entry hentry => congrArg (entry.1, ·) (h entry hentry)]
  exact List.map_id _

theorem insertEntry_map (f : ν → μ) (key : κ) (value : ν) (entries : List (κ × ν)) :
    insertEntry key (f value) (entries.map fun entry => (entry.1, f entry.2)) =
      (insertEntry key value entries).map fun entry => (entry.1, f entry.2) := by
  induction entries with
  | nil => rfl
  | cons head rest ih =>
    simp only [List.map_cons, insertEntry]
    cases compare key head.1 with
    | lt => rfl
    | eq => rfl
    | gt => exact congrArg (_ :: ·) ih

theorem map_insert [Std.TransOrd κ] (f : ν → μ) (table : Table κ ν) (key : κ) (value : ν) :
    (table.insert key value).map f = (table.map f).insert key (f value) :=
  ext (insertEntry_map f key value table.entries).symm

theorem insertEntry_of_above [Std.OrientedOrd κ] {key : κ} {entries : List (κ × ν)} (value : ν)
    (h : ∀ entry ∈ entries, compare entry.1 key = .lt) :
    insertEntry key value entries = entries ++ [(key, value)] := by
  induction entries with
  | nil => rfl
  | cons head rest ih =>
    have hhead : compare key head.1 = .gt :=
      Std.OrientedCmp.gt_of_lt (h head List.mem_cons_self)
    have hrest := ih fun entry hentry => h entry (List.mem_cons_of_mem _ hentry)
    simp only [insertEntry, hhead, hrest, List.cons_append]

theorem length_insertEntry_le (key : κ) (value : ν) (entries : List (κ × ν)) :
    (insertEntry key value entries).length ≤ entries.length + 1 := by
  induction entries with
  | nil => exact Nat.le_refl _
  | cons head rest ih =>
    unfold insertEntry
    split <;> simp only [List.length_cons] <;> omega

def addAll [Std.TransOrd κ] (table : Table κ ν) (entries : List (κ × ν)) : Table κ ν :=
  entries.foldl (fun table entry => table.insert entry.1 entry.2) table

theorem entries_addAll [Std.TransOrd κ] {table : Table κ ν} {entries : List (κ × ν)}
    (h : (table.entries ++ entries).Pairwise fun a b => compare a.1 b.1 = .lt) :
    (table.addAll entries).entries = table.entries ++ entries := by
  induction entries generalizing table with
  | nil => simp [addAll]
  | cons head rest ih =>
    have habove : ∀ entry ∈ table.entries, compare entry.1 head.1 = .lt := by
      intro entry hentry
      exact (List.pairwise_append.mp h).2.2 entry hentry head List.mem_cons_self
    have hinsert : (table.insert head.1 head.2).entries = table.entries ++ [head] :=
      insertEntry_of_above head.2 habove
    have hrest : ((table.insert head.1 head.2).addAll rest).entries =
        (table.insert head.1 head.2).entries ++ rest := by
      apply ih
      rwa [hinsert, List.append_assoc]
    rwa [hinsert, List.append_assoc] at hrest

theorem mem_addAll [Std.TransOrd κ] {table : Table κ ν} {entries : List (κ × ν)} {entry : κ × ν}
    (h : entry ∈ (table.addAll entries).entries) : entry ∈ table.entries ∨ entry ∈ entries := by
  induction entries generalizing table with
  | nil => exact .inl h
  | cons head rest ih =>
    rcases ih h with h | h
    · rcases mem_insertEntry h with rfl | h
      · exact .inr List.mem_cons_self
      · exact .inl h
    · exact .inr (List.mem_cons_of_mem _ h)

theorem size_addAll_le [Std.TransOrd κ] (table : Table κ ν) (entries : List (κ × ν)) :
    (table.addAll entries).size ≤ table.size + entries.length := by
  induction entries generalizing table with
  | nil => exact Nat.le_refl _
  | cons head rest ih =>
    have hrest := ih (table.insert head.1 head.2)
    have hhead := length_insertEntry_le head.1 head.2 table.entries
    simp only [addAll, List.foldl_cons, size, insert, List.length_cons] at hrest ⊢
    omega

theorem addAll_entries [Std.TransOrd κ] (table : Table κ ν) : empty.addAll table.entries = table :=
  ext (@entries_addAll _ _ _ _ empty _ table.sorted)

theorem ne_of_compare_lt [Std.ReflOrd κ] {a b : κ} (h : compare a b = .lt) : a ≠ b := by
  rintro rfl
  simp at h

section
variable [BEq κ] [LawfulBEq κ] [Std.LawfulEqOrd κ] {key other : κ}

theorem lookup_insertEntry_self (key : κ) (value : ν) (entries : List (κ × ν)) :
    (insertEntry key value entries).lookup key = some value := by
  induction entries with
  | nil => simp [insertEntry]
  | cons head rest ih =>
    unfold insertEntry
    split
    · simp
    · simp
    · next hgt =>
      have hne : key ≠ head.1 := by
        rintro rfl
        simp at hgt
      rw [List.lookup_cons, beq_false_of_ne hne]
      exact ih

theorem lookup_insertEntry_of_ne (hne : other ≠ key) (value : ν) (entries : List (κ × ν)) :
    (insertEntry key value entries).lookup other = entries.lookup other := by
  induction entries with
  | nil => simp [insertEntry, hne]
  | cons head rest ih =>
    unfold insertEntry
    split
    · rw [List.lookup_cons, beq_false_of_ne hne]
    · next heq =>
      have hsame : key = head.1 := Std.LawfulEqOrd.eq_of_compare heq
      rw [List.lookup_cons, List.lookup_cons, beq_false_of_ne hne, ← hsame, beq_false_of_ne hne]
    · rw [List.lookup_cons, List.lookup_cons, ih]

theorem lookup_of_above {entries : List (κ × ν)}
    (h : ∀ entry ∈ entries, compare key entry.1 = .lt) : entries.lookup key = none := by
  rw [List.lookup_eq_none_iff]
  intro entry hentry
  have hne : key ≠ entry.1 := ne_of_compare_lt (h entry hentry)
  simpa using hne

variable [Std.TransOrd κ]

@[simp] theorem get?_insert_self (table : Table κ ν) (key : κ) (value : ν) :
    (table.insert key value).get? key = some value :=
  lookup_insertEntry_self key value table.entries

theorem get?_insert_of_ne (table : Table κ ν) (hne : other ≠ key) (value : ν) :
    (table.insert key value).get? other = table.get? other :=
  lookup_insertEntry_of_ne hne value table.entries

theorem get?_insert (table : Table κ ν) (key other : κ) (value : ν) :
    (table.insert key value).get? other =
      if other == key then some value else table.get? other := by
  by_cases h : other = key
  · rw [h, get?_insert_self, if_pos (beq_self_eq_true key)]
  · rw [get?_insert_of_ne table h, beq_false_of_ne h]
    rfl

/-- Of the entries added under one key, the last one stays. -/
theorem get?_addAll (table : Table κ ν) (entries : List (κ × ν)) (key : κ) :
    (table.addAll entries).get? key =
      ((entries.filter (·.1 == key)).getLast?.map (·.2)).or (table.get? key) := by
  induction entries generalizing table with
  | nil => rfl
  | cons head rest ih =>
    have hrest := ih (table.insert head.1 head.2)
    rw [get?_insert] at hrest
    refine hrest.trans ?_
    by_cases hkey : head.1 = key
    · have hhead : (head.1 == key) = true := by simpa using hkey
      rw [List.filter_cons, if_pos hhead, List.getLast?_cons, hkey, if_pos (beq_self_eq_true key)]
      cases (rest.filter (·.1 == key)).getLast? <;> simp
    · have hhead : ¬ (head.1 == key) = true := by simpa using hkey
      have hother : ¬ (key == head.1) = true := by simpa using Ne.symm hkey
      rw [List.filter_cons, if_neg hhead, if_neg hother]

theorem get?_addAll_of_mem {entries : List (κ × ν)} (hkeys : (entries.map (·.1)).Nodup)
    {entry : κ × ν} (h : entry ∈ entries) (table : Table κ ν) :
    (table.addAll entries).get? entry.1 = some entry.2 := by
  obtain ⟨before, after, rfl⟩ := List.append_of_mem h
  have hafter : after.filter (·.1 == entry.1) = [] := by
    rw [List.map_append, List.map_cons, List.nodup_append, List.nodup_cons] at hkeys
    rw [List.filter_eq_nil_iff]
    intro other hother heq
    have hsame : other.1 = entry.1 := by simpa using heq
    exact hkeys.2.1.1 (hsame ▸ List.mem_map_of_mem hother)
  rw [get?_addAll, List.filter_append, List.filter_cons, if_pos (beq_self_eq_true entry.1), hafter,
    List.getLast?_concat]
  rfl

theorem get?_of_mem {table : Table κ ν} {entry : κ × ν} (h : entry ∈ table.entries) :
    table.get? entry.1 = some entry.2 := by
  have hkeys : (table.entries.map (·.1)).Nodup := by
    rw [List.nodup_iff_pairwise_ne, List.pairwise_map]
    exact table.sorted.imp ne_of_compare_lt
  have hget := get?_addAll_of_mem hkeys h empty
  rwa [addAll_entries] at hget

theorem lookup_of_below {head : κ × ν} {rest : List (κ × ν)}
    (hsorted : (head :: rest).Pairwise fun a b => compare a.1 b.1 = .lt)
    (h : compare key head.1 = .lt) : (head :: rest).lookup key = none := by
  refine lookup_of_above fun entry hentry => ?_
  rcases List.mem_cons.mp hentry with rfl | hentry
  · exact h
  · exact Std.TransCmp.lt_trans h ((List.pairwise_cons.mp hsorted).1 entry hentry)

theorem eq_of_lookup {first second : List (κ × ν)}
    (hfirst : first.Pairwise fun a b => compare a.1 b.1 = .lt)
    (hsecond : second.Pairwise fun a b => compare a.1 b.1 = .lt)
    (h : ∀ key, first.lookup key = second.lookup key) : first = second := by
  induction first generalizing second with
  | nil =>
    cases second with
    | nil => rfl
    | cons head rest =>
      have hhead := h head.1
      rw [List.lookup_cons_self] at hhead
      cases hhead
  | cons head rest ih =>
    cases second with
    | nil =>
      have hhead := h head.1
      rw [List.lookup_cons_self] at hhead
      cases hhead
    | cons other others =>
      obtain ⟨habove, hrest⟩ := List.pairwise_cons.mp hfirst
      obtain ⟨haboveOthers, hothers⟩ := List.pairwise_cons.mp hsecond
      have hhead : (other :: others).lookup head.1 = some head.2 := by
        rw [← h head.1, List.lookup_cons_self]
      have hother : (head :: rest).lookup other.1 = some other.2 := by
        rw [h other.1, List.lookup_cons_self]
      have hkey : head.1 = other.1 := by
        cases hcompare : compare head.1 other.1 with
        | lt =>
          rw [lookup_of_below hsecond hcompare] at hhead
          cases hhead
        | eq => exact Std.LawfulEqOrd.eq_of_compare hcompare
        | gt =>
          rw [lookup_of_below hfirst (Std.OrientedCmp.lt_of_gt hcompare)] at hother
          cases hother
      have hvalue : head.2 = other.2 := by
        rw [← hkey, List.lookup_cons_self] at hother
        exact Option.some.inj hother
      have hsame : rest = others := by
        refine ih hrest hothers fun key => ?_
        by_cases hne : key = head.1
        · rw [hne, lookup_of_above habove, hkey, lookup_of_above haboveOthers]
        · have hlookup := h key
          rwa [List.lookup_cons, List.lookup_cons, ← hkey, beq_false_of_ne hne] at hlookup
      rw [hsame, Prod.ext hkey hvalue]

theorem ext_get? {a b : Table κ ν} (h : ∀ key, a.get? key = b.get? key) : a = b :=
  ext (eq_of_lookup a.sorted b.sorted h)

theorem insert_of_get? {table : Table κ ν} {value : ν} (h : table.get? key = some value) :
    table.insert key value = table := by
  apply ext_get?
  intro other
  by_cases hother : other = key
  · rw [hother, get?_insert_self, h]
  · rw [get?_insert_of_ne table hother]

theorem addAll_of_get? {table : Table κ ν} {entries : List (κ × ν)}
    (h : ∀ entry ∈ entries, table.get? entry.1 = some entry.2) : table.addAll entries = table := by
  induction entries with
  | nil => rfl
  | cons head rest ih =>
    rw [addAll, List.foldl_cons, insert_of_get? (h head List.mem_cons_self)]
    exact ih fun entry hentry => h entry (List.mem_cons_of_mem _ hentry)

/-- Tables are compared key by key, if values are compared by their content. -/
theorem beq_iff_get? [BEq ν] {content : ν → ν}
    (hcontent : ∀ a b : ν, (a == b) = true ↔ content a = content b) (a b : Table κ ν) :
    (a.entries == b.entries) = true ↔
      ∀ key, (a.get? key).map content = (b.get? key).map content := by
  have hentry : ∀ a b : κ × ν, (a == b) = true ↔ (a.1, content a.2) = (b.1, content b.2) := by
    intro a b
    change (a.1 == b.1 && a.2 == b.2) = true ↔ _
    rw [Bool.and_eq_true, beq_iff_eq, hcontent, Prod.mk.injEq]
  rw [list_beq_iff hentry, ← entries_map, ← entries_map]
  constructor
  · intro h key
    rw [← get?_map, ← get?_map, ext h]
  · intro h
    apply congrArg Table.entries
    apply ext_get?
    intro key
    rw [get?_map, get?_map, h key]

end
end Table
end SimpleBinary
