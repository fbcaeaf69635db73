import SimpleBinary.Proofs.Walk.Agreement
import SimpleBinary.Proofs.Walk.Message

/-! The walk by index never leaves its run or its buffer. Whatever the tokens
say of themselves, it is the walk over lists, as long as its sums are words. -/
namespace SimpleBinary.Walk

section
variable {σ : Type} (listen : Listener σ) (buffer : List UInt8)

theorem field_cons (index : Nat) (token : Token) {stretch rest : List Token} {type : Token}
    (hinner : Token.inner stretch = type :: rest) :
    field listen index token stretch = (do
      let offset ← certain (toIndex type.offset type.name)
      walkType listen token (index + offset) (type :: rest)) := by
  rw [field, hinner]
  rfl

/-- What a dimension says, once its run is found. -/
def measured (index : Nat) (group first : Token) (run : List Token) :
    Except WalkFault Dimension := do
  let blockLength ← readMember buffer index (← member run "blockLength" group)
  let blockLength ← toLength blockLength "blockLength"
  let entries ← readMember buffer index (← member run "numInGroup" group)
  let start ← advance buffer index (← toIndex first.size first.name) group
  if buffer.length - start < entries.toUInt64.toNat * blockLength then
    throw (.groupOverrun group.name entries.toUInt64.toNat blockLength buffer.length)
  else return ⟨blockLength, entries.toUInt64.toNat, start⟩

theorem dimension_cons (index : Nat) (group : Token) {first : Token} {stretch rest : List Token}
    (hinner : Token.inner stretch = first :: rest) (hsignal : first.signal = .beginComposite) :
    dimension buffer index group stretch =
      (component (first :: rest) >>= fun parts => measured buffer index group first parts.1) := by
  rw [Walk.dimension, hinner]
  dsimp only
  rw [if_neg (fun h => h hsignal)]
  rfl

theorem certain_bind {α β : Type} (result : Except WalkFault α) (next : α → Except WalkFault β) :
    (certain (result >>= next) : Walking σ β) =
      certain result >>= fun value => certain (next value) := by
  cases result with
  | ok value => rfl
  | error fault => rfl

end

namespace Indexed
variable {σ : Type} {listen : Listener σ} {roomy : Prop}

theorem lt_of_toIndex {offset : Int32} {owner : String} {index : Nat}
    (h : toIndex offset owner = .ok index) : index < 2147483648 := by
  have := offset.toInt_lt
  unfold toIndex at h
  split at h
  · cases h
  · cases h
    omega

theorem lt_of_toLength {length : Int64} {owner : String} {n : Nat}
    (h : toLength length owner = .ok n) : n < 9223372036854775808 := by
  have := length.toInt_lt
  unfold toLength at h
  split at h
  · cases h
  · cases h
    omega

/-- An index that no walk over the run leads out of the words: a token adds less
than 2147483648 to it, and the length of a data element less than half a word. -/
def Roomy (run : List Token) (index : Nat) : Prop :=
  index + 2147483648 * run.length + 2147483648 ≤ 9223372036854775808

namespace Roomy
variable {run : List Token} {index : Nat}

theorem size_eq : UInt64.size = 9223372036854775808 + 9223372036854775808 := rfl

theorem index_le (h : Roomy run index) :
    index + 2147483648 * run.length + 2147483648 ≤ UInt64.size := by
  rw [size_eq]
  exact Nat.le_trans h (Nat.le_add_right ..)

theorem run_le (h : Roomy run index) : run.length + 2147483648 ≤ UInt64.size := by
  have := h.index_le
  omega

theorem index_lt (h : Roomy run index) {offset : Nat} (hoffset : offset < 2147483648) :
    index + offset < UInt64.size := by
  have := h.index_le
  omega

theorem mono {other : Nat} (h : Roomy run index) (hle : other ≤ index) : Roomy run other := by
  unfold Roomy at *
  omega

theorem place_lt (h : Roomy run index) {offset length : Nat} (hoffset : offset < 2147483648)
    (hlength : length < 9223372036854775808) : index + offset + length < UInt64.size := by
  unfold Roomy at h
  rw [size_eq]
  omega

end Roomy

mutual

/-- A composite of so many tokens adds at most as many offsets to its place. -/
theorem agrees_composite (field : Token) {index : Nat} {run : List Token}
    (hrun : roomy → run.length + 2147483648 ≤ UInt64.size)
    (hindex : roomy → index + 2147483648 * run.length ≤ UInt64.size) :
    Agrees listen roomy (fun _ _ => True) (composite listen field index run)
      (Walk.composite listen field index run) := by
  have hmembers := agrees_members (i := 1) hrun hindex
  rw [composite]
  cases run with
  | nil =>
    rw [Walk.composite]
    refine (Agrees.tell _).bind fun _ _ _ => ?_
    rw [members, if_neg (by simp), pure_bind]
    exact .tell _
  | cons first rest =>
    rw [Walk.composite]
    have hwindow : window (first :: rest) 1 (first :: rest).length = rest := by
      simp [window]
    rw [hwindow] at hmembers
    refine (Agrees.tell _).bind fun _ _ _ => ?_
    exact hmembers.bind fun _ _ _ => .tell _
termination_by 2 * run.length + 1

theorem agrees_members {index : Nat} {run : List Token} {i : Nat}
    (hrun : roomy → run.length + 2147483648 ≤ UInt64.size)
    (hindex : roomy → index + 2147483648 * (run.length + 1 - i) ≤ UInt64.size) :
    Agrees listen roomy (fun _ _ => True) (members listen index run i)
      (Walk.members listen index (window run i run.length)) := by
  rw [members]
  split
  · next hi =>
    have hlt : i < run.length := by omega
    rw [item_of_lt hlt, pure_bind]
    have hwindow := window_of_lt hlt (Nat.le_refl _)
    rw [window_of_lt (by omega : i + 1 < run.length) (Nat.le_refl _)] at hwindow
    generalize run.get ⟨i, hlt⟩ = token at hwindow ⊢
    rw [hwindow, members_cons_cons, ← hwindow]
    refine (Agrees.certain _).bind ?_
    rintro offset _ ⟨rfl, hoffset⟩
    have hlimit := lt_of_toIndex hoffset
    refine .sum ?_ ?_
    · intro hroom
      have := hindex hroom
      omega
    dsimp only
    split
    · refine (agrees_componentEnd hlt (Nat.le_refl _) hrun).bind ?_
      rintro next _ ⟨rfl, -⟩
      have hnext := next.property
      have hpart : (window run i next.val).length = next.val - i := by
        rw [length_window]
        omega
      have hafter : Agrees listen roomy (fun _ _ => True) (members listen index run next.val)
          (Walk.members listen index (window run next.val run.length)) := by
        refine agrees_members hrun ?_
        intro hroom
        have := hindex hroom
        omega
      rw [slice_of_le (by omega) hnext.2, pure_bind]
      dsimp only
      split
      -- The composite starts one offset further, but it lacks a token of this one.
      · refine (agrees_composite token ?_ ?_).bind fun _ _ _ => hafter
        · intro hroom
          have := hrun hroom
          omega
        · intro hroom
          have := hindex hroom
          omega
      split
      · exact (Agrees.tell _).bind fun _ _ _ => hafter
      · exact (Agrees.tell _).bind fun _ _ _ => hafter
    · have hafter : Agrees listen roomy (fun _ _ => True) (members listen index run (i + 1))
          (Walk.members listen index (window run (i + 1) run.length)) := by
        refine agrees_members hrun ?_
        intro hroom
        have := hindex hroom
        omega
      have hsum : Agrees listen roomy (fun _ _ => True)
          (sum i 1 >>= fun next => members listen index run next.val)
          (Walk.members listen index (window run (i + 1) run.length)) := by
        refine .sum ?_ hafter
        intro hroom
        have := hrun hroom
        omega
      rw [window_of_lt (by omega : i + 1 < run.length) (Nat.le_refl _)] at hsum
      split
      · exact (Agrees.tell _).bind fun _ _ _ => hsum
      · exact hsum
  · next hi =>
    have hshort : (window run i run.length).length ≤ 1 := by
      rw [length_window]
      omega
    have hmembers : Walk.members listen index (window run i run.length) = pure () := by
      cases hwindow : window run i run.length with
      | nil => rw [Walk.members]
      | cons first rest =>
        rw [hwindow, List.length_cons] at hshort
        rw [List.eq_nil_of_length_eq_zero (by omega : rest.length = 0), Walk.members]
    rw [hmembers]
    exact .pure trivial
termination_by 2 * (run.length + 1 - i)

end

theorem agrees_type (owner : Token) {index : Nat} {first : Token} {run rest : List Token}
    (hrun : run = first :: rest)
    (hindex : roomy → index + 2147483648 * run.length + 2147483648 ≤ UInt64.size) :
    Agrees listen roomy (fun _ _ => True) (type listen owner index run) (do
      let offset ← certain (toIndex first.offset first.name)
      walkType listen owner (index + offset) run) := by
  have hfirst : (item run 0 : Guarded σ Token) = pure first := by
    rw [hrun]
    rfl
  rw [type, hfirst, pure_bind]
  refine (Agrees.certain _).bind ?_
  rintro offset _ ⟨rfl, hoffset⟩
  have hlimit := lt_of_toIndex hoffset
  refine .sum ?_ ?_
  · intro hroom
    have := hindex hroom
    omega
  have hrunRoom : roomy → run.length + 2147483648 ≤ UInt64.size := by
    intro hroom
    have := hindex hroom
    omega
  have hplaceRoom : roomy → index + offset + 2147483648 * run.length ≤ UInt64.size := by
    intro hroom
    have := hindex hroom
    omega
  subst hrun
  unfold walkType
  dsimp only
  cases hsignal : first.signal <;> simp only [reduceCtorEq, if_true, if_false]
  case beginComposite => exact agrees_composite owner hrunRoom hplaceRoom
  case beginEnum | beginSet | encoding => exact .tell _
  all_goals exact .pure trivial

theorem agrees_fields {run : List Token} {limit index i : Nat} (hlimit : limit ≤ run.length)
    (hi : i ≤ limit) (hindex : roomy → Roomy run index) :
    Agrees listen roomy (fun next _ => Behind run limit .beginField i next.val)
      (fields listen index run i limit) (Walk.fields listen index (window run i limit)) := by
  rw [fields]
  refine agrees_leading (Walk.fields listen index) hlimit hi (fun hroom => (hindex hroom).run_le)
    (fun _ => fields_of_lead?_ne listen index)
    (fun _ rest hsignal => fields_cons listen index hsignal rest) id ?_
  intro token next hbehind
  have hnext := next.property
  have hinner : Token.inner (window run i next.val) = window run (i + 1) (next.val - 1) := by
    rw [Token.inner, drop_window, dropLast_window (by omega)]
  refine .sum ?_ ?_
  · intro hroom
    have := (hindex hroom).run_le
    omega
  dsimp only
  split
  · next hshort =>
    have hnil : window run (i + 1) (next.val - 1) = [] := window_eq_nil (by omega)
    rw [field, hinner, hnil]
    exact .fail _
  · next hlong =>
    have hcons := window_of_lt (by omega : i + 1 < next.val - 1)
      (by omega : next.val - 1 ≤ run.length)
    have hlength := length_window run (i + 1) (next.val - 1)
    refine .sum ?_ ?_
    · intro hroom
      have := (hindex hroom).run_le
      omega
    rw [difference_of_le (by omega), pure_bind,
      slice_of_le (by dsimp only; omega) (by dsimp only; omega), pure_bind,
      field_cons listen index _ (hinner.trans hcons), ← hcons]
    refine (agrees_type _ hcons ?_).bind ?_
    · intro hroom
      have := (hindex hroom).index_le
      omega
    intro _ _ _
    rw [← bind_pure (Walk.fields listen index _)]
    refine (agrees_fields hlimit hnext.2 hindex).bind fun last _ hlast => .pure ?_
    exact hbehind _ hlast
termination_by limit - i

section
variable {buffer : List UInt8} {run : List Token} (hbuffer : buffer.length < UInt64.size)
include hbuffer

theorem agrees_readMember {index : Nat} (hindex : roomy → Roomy run index) (token : Token) :
    Agrees listen roomy (· = ·) (readMember buffer index token)
      (certain (Walk.readMember buffer index token)) := by
  unfold readMember Walk.readMember
  cases token.encoding.primitive with
  | none => exact .fail _
  | some primitive =>
    dsimp only [require, Option.elim]
    rw [pure_bind, certain_bind]
    refine (Agrees.certain _).bind ?_
    rintro offset _ ⟨rfl, hoffset⟩
    refine .sum ?_ (agrees_readInteger hbuffer _ _ _)
    exact fun hroom => (hindex hroom).index_lt (lt_of_toIndex hoffset)

theorem agrees_advance (index length : Nat) (owner : Token) :
    Agrees listen roomy (fun place other => place = other ∧ place ≤ buffer.length)
      (advance buffer index length owner) (certain (Walk.advance buffer index length owner)) := by
  unfold advance Walk.advance
  by_cases hend : index + length ≤ buffer.length
  · rw [if_pos ⟨by omega, hend⟩, if_pos hend]
    exact .pure ⟨rfl, hend⟩
  · rw [if_neg fun h => hend h.2, if_neg hend]
    exact .fail _

theorem agrees_dimension {index : Nat} (hindex : roomy → Roomy run index) (group : Token)
    {first : Token} {part rest : List Token} (hpart : part = first :: rest) :
    Agrees listen roomy (fun size other => size = other ∧ size.start ≤ buffer.length)
      (dimension buffer index group part) (certain (measured buffer index group first part)) := by
  have hfirst : (item part 0 : Guarded σ Token) = pure first := by
    rw [hpart]
    rfl
  unfold dimension measured
  simp only [hfirst, pure_bind, certain_bind]
  refine (Agrees.certain _).bind ?_
  rintro member _ ⟨rfl, -⟩
  refine (agrees_readMember hbuffer hindex member).bind ?_
  rintro blockLength _ rfl
  refine (Agrees.certain _).bind ?_
  rintro blockLength _ ⟨rfl, -⟩
  refine (Agrees.certain _).bind ?_
  rintro member _ ⟨rfl, -⟩
  refine (agrees_readMember hbuffer hindex member).bind ?_
  rintro entries _ rfl
  refine (Agrees.certain _).bind ?_
  rintro size _ ⟨rfl, -⟩
  refine (agrees_advance hbuffer _ _ _).bind ?_
  rintro start _ ⟨rfl, hstart⟩
  rw [difference_of_le hstart, pure_bind]
  dsimp only
  by_cases hfits : entries.toUInt64.toNat * blockLength ≤ buffer.length - start
  · rw [if_pos ⟨by omega, hfits⟩, if_neg (by omega)]
    exact .pure ⟨rfl, hstart⟩
  · rw [if_neg fun h => hfits h.2, if_pos (by omega)]
    exact .fail _

/-- Both walks have come to the same place, behind the leading components that
open with a signal. -/
structure Reached (roomy : Prop) (run : List Token) (limit : Nat) (signal : Signal) (i : Nat)
    (reached : Nat × Nat) (place : Nat) : Prop where
  place_eq : reached.1 = place
  roomy_place : roomy → Roomy run place
  behind : Behind run limit signal i reached.2

theorem agrees_data {limit index i : Nat} (hlimit : limit ≤ run.length) (hi : i ≤ limit)
    (hindex : roomy → Roomy run index) (hend : roomy → Roomy run buffer.length) :
    Agrees listen roomy (Reached roomy run limit .beginVarData i)
      (data listen buffer index run i limit)
      (Walk.data listen buffer index (window run i limit)) := by
  rw [data]
  refine agrees_leading (Walk.data listen buffer index) hlimit hi
    (fun hroom => (hindex hroom).run_le) (fun _ => data_of_lead?_ne listen buffer index)
    (fun _ rest hsignal => data_cons listen buffer index hsignal rest) (⟨rfl, hindex, ·⟩) ?_
  intro token next hbehind
  have hnext := next.property
  refine .sum ?_ ?_
  · intro hroom
    have := (hindex hroom).run_le
    omega
  rw [slice_of_le (by dsimp only; omega) (by omega), pure_bind]
  simp only [drop_window, certain_bind, bind_assoc]
  refine (Agrees.certain _).bind ?_
  rintro member _ ⟨rfl, -⟩
  refine (agrees_readMember hbuffer hindex member).bind ?_
  rintro length _ rfl
  refine (Agrees.certain _).bind ?_
  rintro length _ ⟨rfl, hlength⟩
  refine (Agrees.certain _).bind ?_
  rintro content _ ⟨rfl, -⟩
  refine (Agrees.certain _).bind ?_
  rintro offset _ ⟨rfl, hoffset⟩
  have hplace := lt_of_toIndex hoffset
  refine .sum (fun hroom => (hindex hroom).index_lt hplace) ?_
  refine .sum (fun hroom => (hindex hroom).place_lt hplace (lt_of_toLength hlength)) ?_
  dsimp only
  split
  · exact .fail _
  · next hwithin =>
    refine (Agrees.tell _).bind fun _ _ _ => ?_
    have hrest : roomy → Roomy run (index + offset + length) := by
      intro hroom
      exact (hend hroom).mono (by omega)
    refine (agrees_data hlimit hnext.2 hrest hend).mono ?_
    rintro reached _ ⟨hplace, hroomy, hlast⟩
    exact ⟨hplace, hroomy, hbehind _ hlast⟩
termination_by limit - i

mutual

theorem agrees_groups {limit index i : Nat} (hlimit : limit ≤ run.length) (hi : i ≤ limit)
    (hindex : roomy → Roomy run index) (hend : roomy → Roomy run buffer.length) :
    Agrees listen roomy (Reached roomy run limit .beginGroup i)
      (groups listen buffer index run i limit)
      (Walk.groups listen buffer index (window run i limit)) := by
  rw [groups]
  refine agrees_leading (Walk.groups listen buffer index) hlimit hi
    (fun hroom => (hindex hroom).run_le) (fun _ => groups_of_lead?_ne listen buffer index)
    (fun _ rest hsignal => groups_cons listen buffer index hsignal rest) (⟨rfl, hindex, ·⟩) ?_
  intro token next hbehind
  have hnext := next.property
  have hinner : Token.inner (window run i next.val) = window run (i + 1) (next.val - 1) := by
    rw [Token.inner, drop_window, dropLast_window (by omega)]
  rw [difference_of_le (by omega), pure_bind]
  refine .sum ?_ ?_
  · intro hroom
    have := (hindex hroom).run_le
    omega
  dsimp only
  split
  · next hinside =>
    have hcons := window_of_lt hinside (by omega : next.val - 1 ≤ run.length)
    rw [item_of_lt (by omega), pure_bind]
    split
    · next hopening =>
      rw [dimension_cons buffer index _ (hinner.trans hcons) hopening, ← hcons, certain_bind,
        bind_assoc]
      refine (agrees_componentEnd hinside (by omega) fun hroom => (hindex hroom).run_le).bind ?_
      rintro start _ ⟨rfl, hdimension⟩
      have hstart := start.property
      have hbody : Token.groupBody (window run i next.val) =
          window run start.val (next.val - 1) := by
        rw [Token.groupBody, hinner, component?_of_component hdimension]
      have hpart := window_of_lt hstart.1 (by omega : start.val ≤ run.length)
      rw [slice_of_le (by omega) (by omega), pure_bind]
      refine (agrees_dimension hbuffer hindex _ hpart).bind ?_
      rintro size _ ⟨rfl, hsize⟩
      refine (Agrees.tell _).bind fun _ _ _ => ?_
      rw [hbody]
      refine (agrees_entries (by omega) hstart.2 (fun hroom => (hend hroom).mono hsize)
        hend).bind ?_
      rintro behind _ ⟨rfl, hroomy⟩
      refine .sum ?_ ?_
      · intro hroom
        have := (hindex hroom).run_le
        omega
      have hlast : next.val - 1 + 1 = next.val := by omega
      dsimp only
      rw [hlast]
      refine (agrees_groups hlimit hnext.2 hroomy hend).mono ?_
      rintro reached _ ⟨hplace, hroomy, hlast⟩
      exact ⟨hplace, hroomy, hbehind _ hlast⟩
    · next hopening =>
      rw [Walk.dimension, hinner, hcons]
      dsimp only
      rw [if_pos hopening]
      exact .fail _
  · next hinside =>
    have hnil : window run (i + 1) (next.val - 1) = [] := window_eq_nil (by omega)
    rw [Walk.dimension, hinner, hnil]
    exact .fail _
termination_by (2 * (limit - i), 0)
decreasing_by
  · exact Prod.Lex.left _ _ (by omega)
  · exact Prod.Lex.left _ _ (by omega)

theorem agrees_entries {group : Token} {first last blockLength total left index : Nat}
    (hlast : last ≤ run.length) (hfirst : first ≤ last) (hindex : roomy → Roomy run index)
    (hend : roomy → Roomy run buffer.length) :
    Agrees listen roomy (fun place other => place = other ∧ (roomy → Roomy run place))
      (entries listen buffer group run first last blockLength total left index)
      (Walk.entries listen buffer group (window run first last) blockLength total left index) := by
  rw [entries]
  cases left with
  | zero =>
    rw [if_neg (Nat.lt_irrefl 0), Walk.entries]
    exact .pure ⟨rfl, hindex⟩
  | succ left =>
    rw [if_pos (Nat.succ_pos left), Walk.entries]
    refine (Agrees.tell _).bind fun _ _ _ => ?_
    refine (agrees_fields hlast hfirst hindex).bind ?_
    intro afterFields _ hfields
    have hafter := afterFields.property
    refine (agrees_advance hbuffer _ _ _).bind ?_
    rintro next _ ⟨rfl, hnext⟩
    rw [← hfields.window_eq]
    refine (agrees_groups hlast hfields.le_limit (fun hroom => (hend hroom).mono hnext)
      hend).bind ?_
    rintro afterGroups _ ⟨rfl, hroomy, hgroups⟩
    rw [← hgroups.window_eq]
    refine (agrees_data hbuffer hlast hgroups.le_limit hroomy hend).bind ?_
    rintro behind _ ⟨rfl, hroomy, -⟩
    refine (Agrees.tell _).bind fun _ _ _ => ?_
    exact agrees_entries hlast hfirst hroomy hend
termination_by (2 * (last - first) + 1, left)
decreasing_by
  · exact Prod.Lex.left _ _ (by omega)
  · exact Prod.Lex.right _ (by omega)

end

theorem agrees_message (offset blockLength : Nat)
    (hindex : roomy → Roomy run (offset + blockLength)) (hend : roomy → Roomy run buffer.length) :
    Agrees listen roomy (· = ·) (message listen buffer offset blockLength run)
      (Walk.message listen buffer offset blockLength run) := by
  unfold message Walk.message
  cases hrun : run with
  | nil => exact .fail _
  | cons token rest =>
    have hrest : rest = window run 1 run.length := by
      rw [hrun]
      simp [window]
    have hlength : 1 ≤ run.length := by
      rw [hrun]
      exact Nat.succ_pos _
    dsimp only [List.head?_cons, Option.elim]
    rw [← hrun]
    split
    · next hsignal =>
      rw [if_neg fun h => h hsignal]
      refine (Agrees.tell _).bind fun _ _ _ => ?_
      rw [hrest]
      refine (agrees_fields (Nat.le_refl _) hlength ?_).bind ?_
      · exact fun hroom => (hindex hroom).mono (Nat.le_add_right ..)
      intro afterFields _ hfields
      refine .sum ?_ ?_
      · intro hroom
        have := (hindex hroom).index_le
        omega
      rw [← hfields.window_eq]
      refine (agrees_groups hbuffer (Nat.le_refl _) hfields.le_limit hindex hend).bind ?_
      rintro afterGroups _ ⟨rfl, hroomy, hgroups⟩
      rw [← hgroups.window_eq]
      refine (agrees_data hbuffer (Nat.le_refl _) hgroups.le_limit hroomy hend).bind ?_
      rintro behind _ ⟨rfl, -, hdata⟩
      rw [← hdata.window_eq, window, List.take_length, List.head?_drop]
      exact (Agrees.tell _).bind fun _ _ _ => .pure rfl
    · exact .fail _

/-- With room for every sum the two walks over a message are one. -/
theorem run_message {offset blockLength : Nat} (hindex : Roomy run (offset + blockLength))
    (hend : Roomy run buffer.length) (listen : Listener σ) (state : σ) :
    (message listen buffer offset blockLength run).run.run state =
      (attempt (Walk.message listen buffer offset blockLength run)).run.run state :=
  (agrees_message hbuffer offset blockLength And.left And.right).inRange.run_eq ⟨hindex, hend⟩ state

end

end Indexed

/-- Whatever the tokens of a run say, the walk over it and every value that is
read by a token keep in range. -/
theorem message_in_range {buffer : List UInt8} (hbuffer : buffer.length < UInt64.size)
    (run : List Token) (offset blockLength : Nat) {σ : Type} (listen : Listener σ) :
    Indexed.InRange listen
        (Indexed.Roomy run (offset + blockLength) ∧ Indexed.Roomy run buffer.length)
        (Indexed.message listen buffer offset blockLength run)
        (message listen buffer offset blockLength run) ∧
      ∀ (wraps : Bool) (index : Nat) (token : Token) (actingVersion : Int32),
        Indexed.InRange listen (wraps = true ∨ index + token.size.toInt.toNat < UInt64.size)
          (Indexed.readValue wraps buffer index token actingVersion)
          (certain (readValue buffer index token actingVersion)) := by
  refine ⟨(Indexed.agrees_message hbuffer offset blockLength And.left And.right).inRange, ?_⟩
  intro wraps index token actingVersion
  exact (Indexed.agrees_readValue hbuffer wraps index token actingVersion).inRange

/-- A group whose dimension claims to be longer than the whole run. -/
def overlong : List Token :=
  [{ signal := .beginMessage, name := "M", count := -1 },
    { signal := .beginGroup, name := "g", count := 3 },
    { signal := .beginComposite, name := "size", size := -1, count := 2147483647 },
    { signal := .endComposite, name := "size", offset := -1, count := 0 }]

def fourBytes : Token :=
  { signal := .encoding, name := "a", size := 4, encoding := { primitive := some .uint8 } }

theorem groups_overlong {σ : Type} (listen : Listener σ) (buffer : List UInt8) (index : Nat) :
    groups listen buffer index (overlong.drop 1) =
      throw (.walk (.badCount 2147483647 "size")) := by
  have hcomponent : component (overlong.drop 1) = .ok (overlong.drop 1, []) := rfl
  have hdimension : ∀ group, dimension buffer index group (overlong.drop 1) =
      .error (.badCount 2147483647 "size") :=
    fun _ => rfl
  change groups listen buffer index
    ({ signal := .beginGroup, name := "g", count := 3 } :: overlong.drop 2) = _
  rw [groups_cons listen buffer index rfl]
  change (certain (component (overlong.drop 1)) >>= _) = _
  rw [hcomponent, certain_ok, pure_bind, hdimension]
  rfl

theorem message_overlong {σ : Type} (listen : Listener σ) (buffer : List UInt8)
    (offset blockLength : Nat) :
    message listen buffer offset blockLength overlong = (do
      listen (.beginMessage { signal := .beginMessage, name := "M", count := -1 })
      throw (.walk (.badCount 2147483647 "size"))) := by
  have hlead : Token.lead? (overlong.drop 1) ≠ some .beginField := by decide
  change message _ _ _ _
    ({ signal := .beginMessage, name := "M", count := -1 } :: overlong.drop 1) = _
  rw [message_cons _ _ _ _ rfl, contents, fields_of_lead?_ne _ _ hlead,
    Token.skip_of_lead?_ne hlead, groups_overlong]
  rfl

/-- The walk ends with an error, and so does the reading of an array behind the
buffer: at the last index there is if the sum wraps around, and at the first
one outside if it is checked. -/
theorem message_in_range_overlong :
    (Indexed.message (fun _ => pure () : Listener Unit) [255] 0 0 overlong).run.run () =
        (.error (.error (.walk (.badCount 2147483647 "size"))), ()) ∧
      (Indexed.readValue true [255] 18446744073709551615 fourBytes 0 :
          Indexed.Guarded Unit _).run.run () =
        (.error (.error (.walk (.shortForArray "a" 18446744073709551615))), ()) ∧
      (Indexed.readValue false [255] 1 fourBytes 0 : Indexed.Guarded Unit _).run.run () =
        (.error (.error (.walk (.shortForArray "a" 1))), ()) ∧
      (Indexed.readValue false [255] 18446744073709551615 fourBytes 0 :
          Indexed.Guarded Unit _).run.run () = (.error .overflow, ()) := by
  obtain ⟨hmessage, hvalue⟩ :=
    message_in_range (by decide : [(255 : UInt8)].length < UInt64.size) overlong 0 0
      (fun _ => pure () : Listener Unit)
  refine ⟨?_, ?_, ?_, rfl⟩
  · rw [hmessage.run_eq ⟨by unfold Indexed.Roomy; decide, by unfold Indexed.Roomy; decide⟩,
      message_overlong]
    rfl
  · rw [(hvalue true _ fourBytes 0).run_eq (.inl rfl)]
    rfl
  · rw [(hvalue false 1 fourBytes 0).run_eq (.inr (by decide))]
    rfl

end SimpleBinary.Walk
