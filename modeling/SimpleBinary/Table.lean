/-! Finite maps with their entries in ascending order of the key. Two tables
with the same entries are the same table, so equality needs no quotient. -/
namespace SimpleBinary

structure Table (κ : Type) (ν : Type) [Ord κ] where
  entries : List (κ × ν)
  sorted : entries.Pairwise fun a b => compare a.1 b.1 = .lt

namespace Table
variable {κ ν : Type} [Ord κ]

def empty : Table κ ν := ⟨[], .nil⟩

instance : Inhabited (Table κ ν) := ⟨empty⟩

instance [BEq κ] [BEq ν] : BEq (Table κ ν) := ⟨fun a b => a.entries == b.entries⟩

/-- One pass: goes before the first larger key, replaces an equal one. -/
def insertEntry (key : κ) (value : ν) : List (κ × ν) → List (κ × ν)
  | [] => [(key, value)]
  | entry :: rest =>
    match compare key entry.1 with
    | .lt => (key, value) :: entry :: rest
    | .eq => (key, value) :: rest
    | .gt => entry :: insertEntry key value rest

theorem mem_insertEntry {key : κ} {value : ν} {entry : κ × ν} {entries : List (κ × ν)}
    (member : entry ∈ insertEntry key value entries) :
    entry = (key, value) ∨ entry ∈ entries := by
  induction entries with
  | nil => simpa [insertEntry] using member
  | cons head rest ih =>
    unfold insertEntry at member
    split at member
    · simpa using member
    · rcases List.mem_cons.mp member with h | h
      · exact .inl h
      · exact .inr (List.mem_cons_of_mem _ h)
    · rcases List.mem_cons.mp member with h | h
      · exact .inr (h ▸ List.mem_cons_self)
      · exact (ih h).imp id (List.mem_cons_of_mem _)

theorem sorted_insertEntry [Std.TransOrd κ] (key : κ) (value : ν) {entries : List (κ × ν)}
    (sorted : entries.Pairwise fun a b => compare a.1 b.1 = .lt) :
    (insertEntry key value entries).Pairwise fun a b => compare a.1 b.1 = .lt := by
  induction entries with
  | nil => simp [insertEntry]
  | cons head rest ih =>
    obtain ⟨above, tail⟩ := List.pairwise_cons.mp sorted
    unfold insertEntry
    split
    · next lt =>
      refine List.pairwise_cons.mpr ⟨fun b hb => ?_, sorted⟩
      rcases List.mem_cons.mp hb with h | h
      · exact h ▸ lt
      · exact Std.TransCmp.lt_trans lt (above b h)
    · next eq =>
      exact List.pairwise_cons.mpr
        ⟨fun b hb => Std.TransCmp.lt_of_eq_of_lt eq (above b hb), tail⟩
    · next gt =>
      refine List.pairwise_cons.mpr ⟨fun b hb => ?_, ih tail⟩
      rcases mem_insertEntry hb with h | h
      · exact h ▸ Std.OrientedCmp.lt_of_gt gt
      · exact above b h

def insert [Std.TransOrd κ] (table : Table κ ν) (key : κ) (value : ν) : Table κ ν :=
  ⟨insertEntry key value table.entries, sorted_insertEntry key value table.sorted⟩

def get? [BEq κ] (table : Table κ ν) (key : κ) : Option ν :=
  table.entries.lookup key

def contains [BEq κ] (table : Table κ ν) (key : κ) : Bool :=
  (table.get? key).isSome

def keys (table : Table κ ν) : List κ := table.entries.map (·.1)

def values (table : Table κ ν) : List ν := table.entries.map (·.2)

def size (table : Table κ ν) : Nat := table.entries.length

end Table
end SimpleBinary
