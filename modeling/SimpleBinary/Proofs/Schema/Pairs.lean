import SimpleBinary.Proofs.Schema.Offsets

/-! The siblings that are linked as a message is read. A count names a group
behind it, and a length gives the identity of a data element; each of them
points at what it names, and what is named points back at the last that names
it. -/
namespace SimpleBinary

def IsLast (p : Nat → Prop) (last : Nat) : Prop := p last ∧ ∀ i, p i → i ≤ last

/-- A relation in two tables: what each number points at, and the last that
points at it. -/
structure Noted (R : Nat → Nat → Prop) (out back : Nat → Option Nat) : Prop where
  out : ∀ i j, out i = some j ↔ R i j
  back : ∀ i j, back j = some i ↔ IsLast (R · j) i

namespace Noted
variable {R S : Nat → Nat → Prop} {out back : Nat → Option Nat} {m t : Nat}

theorem congr (h : Noted R out back) (hsame : ∀ i j, S i j ↔ R i j) : Noted S out back := by
  have heq : S = R := by
    funext i j
    exact propext (hsame i j)
  rw [heq]
  exact h

theorem empty : Noted (fun i j => i < 0 ∧ R i j) (fun _ => none) (fun _ => none) where
  out i j := by simp
  back i j := by simp [IsLast]

theorem skip (h : Noted (fun i j => i < m ∧ R i j) out back) (hnone : ∀ j, ¬ R m j) :
    Noted (fun i j => i < m + 1 ∧ R i j) out back := by
  apply h.congr
  intro i j
  constructor
  · rintro ⟨hle, hR⟩
    have hne : i ≠ m := fun heq => hnone j (heq ▸ hR)
    exact ⟨by omega, hR⟩
  · rintro ⟨hlt, hR⟩
    exact ⟨by omega, hR⟩

/-- The next number points at one other, which forgets who pointed at it
before. -/
theorem step (h : Noted (fun i j => i < m ∧ R i j) out back) (hm : R m t)
    (honly : ∀ j, R m j → j = t) :
    Noted (fun i j => i < m + 1 ∧ R i j) (fun i => if i = m then some t else out i)
      (fun j => if j = t then some m else back j) where
  out i j := by
    by_cases hi : i = m
    · subst hi
      simp only [if_pos]
      constructor
      · intro heq
        cases heq
        exact ⟨by omega, hm⟩
      · rintro ⟨-, hR⟩
        rw [honly j hR]
    · simp only [if_neg hi]
      rw [h.out]
      constructor
      · rintro ⟨hlt, hR⟩
        exact ⟨by omega, hR⟩
      · rintro ⟨hlt, hR⟩
        exact ⟨by omega, hR⟩
  back i j := by
    by_cases hj : j = t
    · subst hj
      simp only [if_pos]
      constructor
      · intro heq
        cases heq
        exact ⟨⟨by omega, hm⟩, fun k hk => by omega⟩
      · rintro ⟨⟨hlt, -⟩, hlast⟩
        have hle := hlast m ⟨by omega, hm⟩
        exact congrArg some (by omega)
    · simp only [if_neg hj]
      rw [h.back]
      have hother : ∀ k, k < m + 1 ∧ R k j ↔ k < m ∧ R k j := by
        intro k
        constructor
        · rintro ⟨hlt, hR⟩
          have hne : k ≠ m := fun heq => hj (honly j (heq ▸ hR))
          exact ⟨by omega, hR⟩
        · rintro ⟨hlt, hR⟩
          exact ⟨by omega, hR⟩
      simp only [IsLast, hother]

end Noted

namespace Field

/-- A field counts the entries of a group behind it if it names the group. -/
def Counts (level : List Field) (i j : Nat) : Prop :=
  i < j ∧ ∃ count group, level[i]? = some count ∧ level[j]? = some group ∧
    group.isGroup = true ∧ count.info.groupName = some group.name

/-- A field gives the length of a data element if it refers to its identity. -/
def Gives (level : List Field) (i j : Nat) : Prop :=
  ∃ length data, level[i]? = some length ∧ level[j]? = some data ∧ data.isData = true ∧
    length.info.refId ≠ invalidId ∧ data.info.id = length.info.refId

def slot (get : FieldInfo → Option Nat) (level : List Field) (place : Nat) : Option Nat :=
  level[place]?.bind fun field => get field.info

/-- Fields side by side with all their links. -/
structure Linked (level : List Field) : Prop where
  counts : Noted (Counts level) (slot (·.groupField) level) (slot (·.entryCountField) level)
  gives : Noted (Gives level) (slot (·.dataField) level) (slot (·.lengthField) level)

/-- What is declared of a field, but for its type and what is in it. -/
def sketch (field : Field) : Nat × FieldInfo := (field.rank, field.info.declared)

section
variable {a b level : List Field} {i j k : Nat} {x y : Field}

theorem exists_sketch (h : a.map sketch = b.map sketch) (hx : b[i]? = some x) :
    ∃ y, a[i]? = some y ∧ y.sketch = x.sketch := by
  have hmap := congrArg (·[i]?) h
  simp only [List.getElem?_map, hx, Option.map_some] at hmap
  exact Option.map_eq_some_iff.mp hmap

theorem isGroup_iff : x.isGroup = true ↔ x.rank = 1 := by
  cases x <;> simp [isGroup, rank]

theorem isData_iff : x.isData = true ↔ x.rank = 2 := by
  cases x <;> simp [isData, rank]

theorem declared_of_sketch (h : y.sketch = x.sketch) : y.info.declared = x.info.declared :=
  congrArg Prod.snd h

theorem rank_of_sketch (h : y.sketch = x.sketch) : y.rank = x.rank := congrArg Prod.fst h

theorem name_of_sketch (h : y.sketch = x.sketch) : y.name = x.name := by
  have hname : y.info.declared.name = x.info.declared.name := by rw [declared_of_sketch h]
  exact hname

theorem Counts.bounds (h : Counts level i j) : i < level.length ∧ j < level.length := by
  obtain ⟨-, count, group, hcount, hgroup, -⟩ := h
  exact ⟨(List.getElem?_eq_some_iff.mp hcount).1, (List.getElem?_eq_some_iff.mp hgroup).1⟩

theorem Gives.bounds (h : Gives level i j) : i < level.length ∧ j < level.length := by
  obtain ⟨length, data, hlength, hdata, -⟩ := h
  exact ⟨(List.getElem?_eq_some_iff.mp hlength).1, (List.getElem?_eq_some_iff.mp hdata).1⟩

theorem Counts.of_sketch (hsame : a.map sketch = b.map sketch) (h : Counts b i j) :
    Counts a i j := by
  obtain ⟨hlt, count, group, hcount, hgroup, hkind, hname⟩ := h
  obtain ⟨count', hcount', heq⟩ := exists_sketch hsame hcount
  obtain ⟨group', hgroup', heq'⟩ := exists_sketch hsame hgroup
  refine ⟨hlt, count', group', hcount', hgroup', ?_, ?_⟩
  · rw [isGroup_iff] at hkind ⊢
    rw [rank_of_sketch heq', hkind]
  · have hdeclared := congrArg FieldInfo.groupName (declared_of_sketch heq)
    rw [name_of_sketch heq']
    exact hdeclared.trans hname

theorem Gives.of_sketch (hsame : a.map sketch = b.map sketch) (h : Gives b i j) :
    Gives a i j := by
  obtain ⟨length, data, hlength, hdata, hkind, hvalid, hid⟩ := h
  obtain ⟨length', hlength', heq⟩ := exists_sketch hsame hlength
  obtain ⟨data', hdata', heq'⟩ := exists_sketch hsame hdata
  have href : length'.info.declared.refId = length.info.declared.refId := by
    rw [declared_of_sketch heq]
  have hid' : data'.info.declared.id = data.info.declared.id := by rw [declared_of_sketch heq']
  simp only [FieldInfo.declared] at href hid'
  refine ⟨length', data', hlength', hdata', ?_, ?_, ?_⟩
  · rw [isData_iff] at hkind ⊢
    rw [rank_of_sketch heq', hkind]
  · rwa [href]
  · rw [hid', href, hid]

theorem Siblings.place_of_name (h : Siblings level) (hx : level[i]? = some x)
    (hy : level[j]? = some y) (hname : x.name = y.name) : i = j := by
  have hnames : (level.map name).Nodup := by
    rw [List.nodup_iff_pairwise_ne, List.pairwise_map]
    exact (List.pairwise_map.mp h).imp fun hpair => hpair.2.1
  have hlt : i < (level.map name).length := by
    rw [List.length_map]
    exact (List.getElem?_eq_some_iff.mp hx).1
  apply (List.getElem?_inj hlt hnames).mp
  rw [List.getElem?_map, List.getElem?_map, hx, hy, Option.map_some, Option.map_some, hname]

theorem Siblings.place_of_id (h : Siblings level) (hx : level[i]? = some x)
    (hy : level[j]? = some y) (hvalid : x.info.id ≠ invalidId) (hid : x.info.id = y.info.id) :
    i = j := by
  obtain ⟨hi, rfl⟩ := List.getElem?_eq_some_iff.mp hx
  obtain ⟨hj, rfl⟩ := List.getElem?_eq_some_iff.mp hy
  have hpairs := List.pairwise_iff_getElem.mp (List.pairwise_map.mp h)
  rcases Nat.lt_trichotomy i j with hlt | heq | hgt
  · exact absurd hid ((hpairs i j hi hj hlt).2.2 hvalid)
  · exact heq
  · rw [hid] at hvalid
    exact absurd hid.symm ((hpairs j i hj hi hgt).2.2 hvalid)

theorem Counts.unique (hsiblings : Siblings level) (hj : Counts level i j) (hk : Counts level i k) :
    k = j := by
  obtain ⟨-, count, group, hcount, hgroup, -, hname⟩ := hj
  obtain ⟨-, count', group', hcount', hgroup', -, hname'⟩ := hk
  rw [hcount] at hcount'
  cases hcount'
  rw [hname] at hname'
  exact hsiblings.place_of_name hgroup' hgroup (Option.some.inj hname').symm

theorem Gives.unique (hsiblings : Siblings level) (hj : Gives level i j) (hk : Gives level i k) :
    k = j := by
  obtain ⟨length, data, hlength, hdata, -, hvalid, hid⟩ := hj
  obtain ⟨length', data', hlength', hdata', -, -, hid'⟩ := hk
  rw [hlength] at hlength'
  cases hlength'
  exact hsiblings.place_of_id hdata' hdata (hid' ▸ hvalid) (hid'.trans hid.symm)

end

section
variable {fields : List Field} {get : FieldInfo → Option Nat} {change : FieldInfo → FieldInfo}

theorem slot_modify_other (hget : ∀ info, get (change info) = get info) (index : Nat) :
    slot get (fields.modify index (·.mapInfo change)) = slot get fields := by
  funext place
  simp only [slot, List.getElem?_modify]
  cases fields[place]? with
  | none => rfl
  | some field =>
    simp only [Option.map_eq_map, Option.map_some, Option.bind_some]
    split
    · rw [info_mapInfo, hget]
    · rfl

theorem slot_modify_self {value index : Nat} (hget : ∀ info, get (change info) = some value)
    (hindex : index < fields.length) :
    slot get (fields.modify index (·.mapInfo change)) =
      fun place => if place = index then some value else slot get fields place := by
  funext place
  simp only [slot, List.getElem?_modify]
  by_cases hplace : place = index
  · subst hplace
    simp only [if_pos, List.getElem?_eq_getElem hindex, Option.map_eq_map, Option.map_some,
      Option.bind_some, info_mapInfo, hget]
  · have hother : index ≠ place := fun heq => hplace heq.symm
    simp only [if_neg hplace, if_neg hother]
    cases fields[place]? with
    | none => rfl
    | some field => rfl

theorem Noted.join {R : Nat → Nat → Prop} {m t : Nat} {out back : FieldInfo → Option Nat}
    {setOut setBack : FieldInfo → FieldInfo}
    (h : Noted (fun i j => i < m ∧ R i j) (slot out fields) (slot back fields))
    (hbound : m < fields.length ∧ t < fields.length) (hm : R m t) (honly : ∀ j, R m j → j = t)
    (hout : ∀ info, out (setOut info) = some t ∧ out (setBack info) = out info)
    (hback : ∀ info, back (setBack info) = some m ∧ back (setOut info) = back info) :
    Noted (fun i j => i < m + 1 ∧ R i j)
      (slot out ((fields.modify m (·.mapInfo setOut)).modify t (·.mapInfo setBack)))
      (slot back ((fields.modify m (·.mapInfo setOut)).modify t (·.mapInfo setBack))) := by
  have ht : t < (fields.modify m (·.mapInfo setOut)).length := by
    rw [List.length_modify]
    exact hbound.2
  rw [slot_modify_other fun info => (hout info).2, slot_modify_self (fun info => (hout info).1)
    hbound.1, slot_modify_self (fun info => (hback info).1) ht,
    slot_modify_other fun info => (hback info).2]
  exact h.step hm honly

end

def bare (field : Field) : Field := field.mapInfo FieldInfo.declared

theorem bare_mapInfo {change : FieldInfo → FieldInfo}
    (hchange : ∀ info, (change info).declared = info.declared) (field : Field) :
    (field.mapInfo change).bare = field.bare := by
  cases field <;> simp only [bare, mapInfo, hchange]

theorem sketch_bare (field : Field) : field.bare.sketch = field.sketch := by
  cases field <;> rfl

theorem map_sketch_of_bare {a b : List Field} (h : a.map bare = b.map bare) :
    a.map sketch = b.map sketch := by
  have hsketch : sketch = sketch ∘ bare := funext fun field => (sketch_bare field).symm
  rw [hsketch, ← List.map_map, h, List.map_map]

end Field

namespace MessageReader
open Check (Yields)
open SimpleBinary.Field (Counts Gives Linked Siblings slot bare)

section
variable {fields : List Field} {first target : Nat} {accepts : Field → Bool}

theorem indexOf?_eq_some (h : indexOf? fields first accepts = some target) :
    first ≤ target ∧ ∃ field, fields[target]? = some field ∧ accepts field = true := by
  have hfound := List.find?_some h
  rw [Bool.and_eq_true, decide_eq_true_eq, Option.any_eq_true] at hfound
  exact hfound

theorem indexOf?_eq_none (h : indexOf? fields first accepts = none) {field : Field}
    (hfirst : first ≤ target) (hfield : fields[target]? = some field) : accepts field = false := by
  have hlt := (List.getElem?_eq_some_iff.mp hfield).1
  have hnone := List.find?_eq_none.mp h target (List.mem_range.mpr hlt)
  simpa [hfirst, hfield] using hnone

end

/-- The links made so far: those of the counts in front of one place, and those
of the lengths in front of another. -/
structure LinkedTo (fields : List Field) (m n : Nat) (linked : List Field) : Prop where
  bare : linked.map Field.bare = fields.map Field.bare
  counts : Noted (fun i j => i < m ∧ Counts fields i j) (slot (·.groupField) linked)
    (slot (·.entryCountField) linked)
  gives : Noted (fun i j => i < n ∧ Gives fields i j) (slot (·.dataField) linked)
    (slot (·.lengthField) linked)

section
variable {fields linked : List Field} {m n : Nat} {info : FieldInfo}

theorem LinkedTo.counts_iff (h : LinkedTo fields m n linked) {i j : Nat} :
    Counts linked i j ↔ Counts fields i j :=
  have hsame := Field.map_sketch_of_bare h.bare
  ⟨.of_sketch hsame.symm, .of_sketch hsame⟩

theorem LinkedTo.gives_iff (h : LinkedTo fields m n linked) {i j : Nat} :
    Gives linked i j ↔ Gives fields i j :=
  have hsame := Field.map_sketch_of_bare h.bare
  ⟨.of_sketch hsame.symm, .of_sketch hsame⟩

theorem yields_linkGroup_linked (hsiblings : Siblings fields) :
    Yields (linkGroup linked m info) fun result => ∀ n current, LinkedTo fields m n linked →
      linked[m]? = some current → current.info.groupName = info.groupName →
      LinkedTo fields (m + 1) n result := by
  unfold linkGroup
  cases hname : info.groupName with
  | none =>
    refine .pure fun _ current h hcurrent hgroup => ⟨h.bare, h.counts.skip ?_, h.gives⟩
    intro j hcounts
    obtain ⟨-, count, group, hcount, -, -, hnamed⟩ := h.counts_iff.mpr hcounts
    rw [hcurrent] at hcount
    cases hcount
    rw [hgroup] at hnamed
    cases hnamed
  | some group =>
    dsimp only
    split
    · next target htarget =>
      refine .pure fun _ current h hcurrent hgroup => ?_
      obtain ⟨hlt, found, hfound, haccepted⟩ := indexOf?_eq_some htarget
      rw [Bool.and_eq_true, decide_eq_true_eq] at haccepted
      have hcounts : Counts fields m target := by
        rw [← h.counts_iff]
        refine ⟨hlt, current, found, hcurrent, hfound, haccepted.1, ?_⟩
        rw [hgroup, haccepted.2]
      have hbound := And.intro (List.getElem?_eq_some_iff.mp hcurrent).1
        (List.getElem?_eq_some_iff.mp hfound).1
      constructor
      · rw [Field.map_modify (Field.bare_mapInfo fun _ => by rfl),
          Field.map_modify (Field.bare_mapInfo fun _ => by rfl), h.bare]
      · exact Field.Noted.join h.counts hbound hcounts (fun j hj => hcounts.unique hsiblings hj)
          (fun _ => ⟨rfl, rfl⟩) (fun _ => ⟨rfl, rfl⟩)
      · have hslots := h.gives
        rwa [Field.slot_modify_other fun _ => by rfl, Field.slot_modify_other fun _ => by rfl,
          Field.slot_modify_other fun _ => by rfl, Field.slot_modify_other fun _ => by rfl]
    · next hnone =>
      refine .bind (.warning _) fun _ => .pure fun _ _ current h hcurrent hgroup => ?_
      refine ⟨h.bare, h.counts.skip ?_, h.gives⟩
      intro j hcounts
      obtain ⟨hlt, count, found, hcount, hfound, hkind, hnamed⟩ := h.counts_iff.mpr hcounts
      rw [hcurrent] at hcount
      cases hcount
      rw [hgroup] at hnamed
      have hrefused := indexOf?_eq_none hnone hlt hfound
      simp [hkind, Option.some.inj hnamed] at hrefused

theorem yields_linkData_linked (hsiblings : Siblings fields) :
    Yields (linkData linked n info) fun result => ∀ m current, LinkedTo fields m n linked →
      linked[n]? = some current → current.info.refId = info.refId →
      LinkedTo fields m (n + 1) result := by
  unfold linkData
  split
  · next hinvalid =>
    refine .pure fun _ current h hcurrent href => ⟨h.bare, h.counts, h.gives.skip ?_⟩
    intro j hgives
    obtain ⟨length, data, hlength, -, -, hvalid, -⟩ := h.gives_iff.mpr hgives
    rw [hcurrent] at hlength
    cases hlength
    exact hvalid (href.trans hinvalid)
  · next hvalid =>
    split
    · next target htarget =>
      refine .pure fun _ current h hcurrent href => ?_
      obtain ⟨-, found, hfound, haccepted⟩ := indexOf?_eq_some htarget
      rw [Bool.and_eq_true, decide_eq_true_eq] at haccepted
      rw [← href] at hvalid haccepted
      have hgives : Gives fields n target :=
        h.gives_iff.mp ⟨current, found, hcurrent, hfound, haccepted.1, hvalid, haccepted.2⟩
      have hbound := And.intro (List.getElem?_eq_some_iff.mp hcurrent).1
        (List.getElem?_eq_some_iff.mp hfound).1
      constructor
      · rw [Field.map_modify (Field.bare_mapInfo fun _ => by rfl),
          Field.map_modify (Field.bare_mapInfo fun _ => by rfl), h.bare]
      · have hslots := h.counts
        rwa [Field.slot_modify_other fun _ => by rfl, Field.slot_modify_other fun _ => by rfl,
          Field.slot_modify_other fun _ => by rfl, Field.slot_modify_other fun _ => by rfl]
      · exact Field.Noted.join h.gives hbound hgives (fun j hj => hgives.unique hsiblings hj)
          (fun _ => ⟨rfl, rfl⟩) (fun _ => ⟨rfl, rfl⟩)
    · next hnone =>
      refine .bind (.warning _) fun _ => .pure fun _ _ current h hcurrent href => ?_
      refine ⟨h.bare, h.counts, h.gives.skip ?_⟩
      intro j hgives
      obtain ⟨length, found, hlength, hfound, hkind, -, hid⟩ := h.gives_iff.mpr hgives
      rw [hcurrent] at hlength
      cases hlength
      rw [href] at hid
      have hrefused := indexOf?_eq_none hnone (Nat.zero_le j) hfound
      simp [hkind, hid] at hrefused

end

section
variable {fields linked : List Field}

theorem slot_eq_none {get : FieldInfo → Option Nat}
    (hget : ∀ info : FieldInfo, get info.declared = none)
    (hfields : ∀ field ∈ fields, field.info.declared = field.info) :
    slot get fields = fun _ => none := by
  funext place
  rw [slot, Option.bind_eq_none_iff]
  intro field hfield
  rw [← hfields field (List.mem_of_getElem? hfield), hget]

theorem linkedTo_zero (hfields : ∀ field ∈ fields, field.info.declared = field.info) :
    LinkedTo fields 0 0 fields := by
  constructor
  · rfl
  · rw [slot_eq_none (fun _ => rfl) hfields, slot_eq_none (fun _ => rfl) hfields]
    exact .empty
  · rw [slot_eq_none (fun _ => rfl) hfields, slot_eq_none (fun _ => rfl) hfields]
    exact .empty

theorem LinkedTo.complete (h : LinkedTo fields fields.length fields.length linked) :
    Linked linked where
  counts := by
    apply h.counts.congr
    intro i j
    rw [h.counts_iff]
    exact ⟨fun hcounts => ⟨hcounts.bounds.1, hcounts⟩, And.right⟩
  gives := by
    apply h.gives.congr
    intro i j
    rw [h.gives_iff]
    exact ⟨fun hgives => ⟨hgives.bounds.1, hgives⟩, And.right⟩

/-- Fields that have no links yet are linked, one place after the other. -/
theorem yields_linkFields_linked (hsiblings : Siblings fields)
    (hfields : ∀ field ∈ fields, field.info.declared = field.info) :
    Yields (linkFields fields) fun linked =>
      linked.map bare = fields.map bare ∧ Linked linked := by
  unfold linkFields
  have hresult : ∀ linked, (LinkedTo fields 0 0 fields →
      LinkedTo fields fields.length fields.length linked) →
      linked.map bare = fields.map bare ∧ Linked linked := by
    intro linked h
    have hlinked := h (linkedTo_zero hfields)
    exact ⟨hlinked.bare, hlinked.complete⟩
  refine (Yields.foldlM_range (fun index => LinkedTo fields index index)
    (fun index hindex linked => ?_) fields).mono hresult
  split
  · next hnone =>
    refine .pure fun h => ?_
    have hlength := congrArg List.length h.bare
    rw [List.length_map, List.length_map] at hlength
    rw [List.getElem?_eq_none_iff, hlength] at hnone
    exact absurd hindex (Nat.not_lt.mpr hnone)
  · next field hfield =>
    refine .bind (yields_linkGroup_linked hsiblings) fun grouped => ?_
    refine (yields_linkData_linked hsiblings).mono fun result hresult hgrouped h => ?_
    have hgrouped := hgrouped index field h hfield rfl
    have hsame := Field.map_sketch_of_bare (hgrouped.bare.trans h.bare.symm)
    obtain ⟨current, hcurrent, heq⟩ := Field.exists_sketch hsame hfield
    have href : current.info.declared.refId = field.info.declared.refId := by
      rw [Field.declared_of_sketch heq]
    exact hresult _ current hgrouped hcurrent href

end
end MessageReader

namespace Field

/-- Every list of fields side by side is linked, at any depth. -/
def Joined (fields : List Field) : Prop := ∀ level, Level fields level → Linked level

section
variable {fields level : List Field}

theorem Level.cases_group (h : Level fields level) :
    level = fields ∨ ∃ info dimension blockLength inner,
      .group info dimension blockLength inner ∈ fields ∧ Level inner level := by
  induction h with
  | top => exact .inl rfl
  | @group info dimension blockLength _ inner _ hgroup ih =>
    right
    rcases ih with rfl | ⟨info', dimension', blockLength', outer, houter, hlevel⟩
    · exact ⟨info, dimension, blockLength, inner, hgroup, .top⟩
    · exact ⟨info', dimension', blockLength', outer, houter, .group hlevel hgroup⟩

theorem allUnplaced_eq_map (fields : List Field) : allUnplaced fields = fields.map unplaced := by
  induction fields with
  | nil => rw [allUnplaced, List.map_nil]
  | cons field rest ih => rw [allUnplaced, List.map_cons, ih]

theorem Level.unplaced (h : Level fields level) :
    Level (allUnplaced fields) (allUnplaced level) := by
  induction h with
  | top => exact .top
  | group _ hgroup ih =>
    have hmem := List.mem_map_of_mem (f := Field.unplaced) hgroup
    rw [← allUnplaced_eq_map, Field.unplaced] at hmem
    exact .group ih hmem

theorem Level.of_unplaced (h : Level (allUnplaced fields) level) :
    ∃ source, Level fields source ∧ level = allUnplaced source := by
  induction h with
  | top => exact ⟨fields, .top, rfl⟩
  | group _ hgroup ih =>
    obtain ⟨source, hsource, rfl⟩ := ih
    rw [allUnplaced_eq_map] at hgroup
    obtain ⟨field, hfield, heq⟩ := List.mem_map.mp hgroup
    cases field with
    | plain => cases heq
    | data => cases heq
    | group info dimension blockLength inner =>
      rw [Field.unplaced] at heq
      cases heq
      exact ⟨inner, .group hsource hfield, rfl⟩

theorem sketch_unplaced (field : Field) : field.unplaced.sketch = field.sketch := by
  cases field <;> rfl

theorem map_sketch_unplaced (fields : List Field) :
    (allUnplaced fields).map sketch = fields.map sketch := by
  rw [allUnplaced_eq_map, List.map_map]
  exact List.map_congr_left fun field _ => sketch_unplaced field

theorem slot_unplaced {get : FieldInfo → Option Nat}
    (hget : ∀ info : FieldInfo,
      get { info with computedOffset := 0, computedBlockLength := 0 } = get info) :
    slot get (allUnplaced level) = slot get level := by
  funext place
  rw [slot, slot, allUnplaced_eq_map, List.getElem?_map]
  cases level[place]? with
  | none => rfl
  | some field =>
    rw [Option.map_some, Option.bind_some, Option.bind_some, ← hget field.info]
    cases field <;> rfl

/-- Places make no difference to links. -/
theorem linked_unplaced_iff : Linked (allUnplaced level) ↔ Linked level := by
  have hsame := map_sketch_unplaced level
  have hcounts : Counts (allUnplaced level) = Counts level := by
    funext i j
    exact propext ⟨.of_sketch hsame.symm, .of_sketch hsame⟩
  have hgives : Gives (allUnplaced level) = Gives level := by
    funext i j
    exact propext ⟨.of_sketch hsame.symm, .of_sketch hsame⟩
  have hslot : ∀ get : FieldInfo → Option Nat, (∀ info : FieldInfo,
      get { info with computedOffset := 0, computedBlockLength := 0 } = get info) →
      slot get (allUnplaced level) = slot get level := fun get hget => slot_unplaced hget
  constructor
  · rintro ⟨hfirst, hsecond⟩
    rw [hcounts, hslot _ fun _ => rfl, hslot _ fun _ => rfl] at hfirst
    rw [hgives, hslot _ fun _ => rfl, hslot _ fun _ => rfl] at hsecond
    exact ⟨hfirst, hsecond⟩
  · rintro ⟨hfirst, hsecond⟩
    constructor
    · rwa [hcounts, hslot _ fun _ => rfl, hslot _ fun _ => rfl]
    · rwa [hgives, hslot _ fun _ => rfl, hslot _ fun _ => rfl]

theorem Laid.joined {hint : Int} {layout last : Layout} {placed : List Field}
    (h : Laid hint layout fields placed last) (hjoined : Joined fields) : Joined placed := by
  intro level hlevel
  have hunplaced := hlevel.unplaced
  rw [h.allUnplaced_eq] at hunplaced
  obtain ⟨source, hsource, heq⟩ := hunplaced.of_unplaced
  rw [← linked_unplaced_iff, heq, linked_unplaced_iff]
  exact hjoined source hsource

theorem joined_of_bare {linked : List Field} (hsame : linked.map bare = fields.map bare)
    (hlinked : Linked linked) (hinner : ∀ info dimension blockLength inner,
      .group info dimension blockLength inner ∈ fields → Joined inner) : Joined linked := by
  intro level hlevel
  rcases hlevel.cases_group with rfl | ⟨info, dimension, blockLength, inner, hgroup, hlevel⟩
  · exact hlinked
  · have hmem := List.mem_map_of_mem (f := bare) hgroup
    rw [hsame] at hmem
    obtain ⟨field, hfield, heq⟩ := List.mem_map.mp hmem
    cases field with
    | plain => cases heq
    | data => cases heq
    | group info' dimension' blockLength' inner' =>
      simp only [bare, mapInfo, Field.group.injEq] at heq
      obtain ⟨-, -, -, rfl⟩ := heq
      exact hinner _ _ _ _ hfield level hlevel

end
end Field

namespace MessageReader

/-- Fields are read without links, and linked once the last of them is there. -/
theorem readAs_joined (vocabulary : Vocabulary) :
    ReadAs vocabulary (fun field => field.info.declared = field.info ∧
        ∀ info dimension blockLength inner, field = .group info dimension blockLength inner →
          Field.Joined inner)
      Field.Joined where
  plain info type hinfo := ⟨hinfo, fun _ _ _ _ heq => by cases heq⟩
  data info type hinfo := ⟨hinfo, fun _ _ _ _ heq => by cases heq⟩
  group info dimension blockLength fields hinfo hfields := by
    refine ⟨hinfo, fun _ _ _ _ heq => ?_⟩
    cases heq
    exact hfields
  link fields hrow hfields := by
    refine (yields_linkFields_linked hrow.siblings
      fun field hfield => (hfields field hfield).1).mono ?_
    rintro linked ⟨hsame, hlinked⟩
    apply Field.joined_of_bare hsame hlinked
    intro info dimension blockLength inner hgroup
    exact (hfields _ hgroup).2 _ _ _ _ rfl

end MessageReader

namespace Schema

theorem joined_of_parse {document : String} {policy : Policy} {schema : Schema}
    (h : parse document policy = .ok schema) :
    ∀ message ∈ schema.messages.values, Field.Joined message.fields := by
  intro message hmessage
  obtain ⟨declared, hjoined, harranged⟩ :=
    exists_declared_of_parse h (MessageReader.readAs_joined _) hmessage
  obtain ⟨last, hlaid⟩ := harranged.laid
  exact hlaid.joined hjoined

end Schema
end SimpleBinary
