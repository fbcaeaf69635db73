import SimpleBinary.Proofs.Ir.Links
import SimpleBinary.Proofs.Schema.Pairs
import SimpleBinary.Proofs.Walk.Header

/-! Which linked siblings point at each other. A field has up to four links and
its token only one, so a field that is paired with two others leaves one of
them pointing at it in vain; without such fields all links are mutual. -/
namespace SimpleBinary

theorem exists_isLast {p : Nat → Prop} {bound i : Nat} (hbound : ∀ k, p k → k < bound)
    (hi : p i) : ∃ last, IsLast p last := by
  induction bound generalizing i with
  | zero => exact absurd (hbound i hi) (Nat.not_lt_zero i)
  | succ bound ih =>
    by_cases hlast : p bound
    · exact ⟨bound, hlast, fun k hk => Nat.le_of_lt_succ (hbound k hk)⟩
    · apply ih _ hi
      intro k hk
      have hne : k ≠ bound := fun heq => hlast (heq ▸ hk)
      have hlt := hbound k hk
      omega

namespace Noted
variable {R : Nat → Nat → Prop} {out back : Nat → Option Nat} (h : Noted R out back)
include h

theorem out_eq_none {i : Nat} (hnone : out i = none) (j : Nat) : ¬ R i j := by
  rw [← h.out, hnone]
  simp

theorem back_eq_none {bound j : Nat} (hbound : ∀ k, R k j → k < bound) (hnone : back j = none)
    (i : Nat) : ¬ R i j := by
  intro hR
  obtain ⟨last, hlast⟩ := exists_isLast hbound hR
  rw [← h.back, hnone] at hlast
  cases hlast

end Noted

namespace Field

def Names (level : List Field) (i j : Nat) : Prop := Counts level i j ∨ Gives level i j

def Paired (level : List Field) (i j : Nat) : Prop := Names level i j ∨ Names level j i

/-- Of all it is paired with, a field points at the last that names it; if none
does, at the group that it names, and else at the data element. -/
def Chosen (level : List Field) (i j : Nat) : Prop :=
  IsLast (Names level · i) j ∨ (∀ k, ¬ Names level k i) ∧
    (Counts level i j ∨ (∀ k, ¬ Counts level i k) ∧ Gives level i j)

/-- No field is paired with two. -/
def Single (level : List Field) : Prop :=
  ∀ i j k, Paired level i j → Paired level i k → j = k

section
variable {level : List Field} {i j k : Nat} {field : Field}

theorem Names.bounds (h : Names level i j) : i < level.length ∧ j < level.length :=
  h.elim Counts.bounds Gives.bounds

theorem Paired.symm (h : Paired level i j) : Paired level j i := Or.symm h

theorem Paired.bounds (h : Paired level i j) : i < level.length ∧ j < level.length :=
  h.elim Names.bounds fun h => h.bounds.symm

theorem Chosen.paired (h : Chosen level i j) : Paired level i j := by
  rcases h with hlast | ⟨-, hcounts | ⟨-, hgives⟩⟩
  · exact .inr hlast.1
  · exact .inl (.inl hcounts)
  · exact .inl (.inr hgives)

/-- What is counted is a group, and a group has no length. -/
theorem Counts.not_gives (h : Counts level i j) : ¬ Gives level k j := by
  rintro ⟨-, data, -, hdata, hkind, -⟩
  obtain ⟨-, -, group, -, hgroup, hgroupKind, -⟩ := h
  rw [hdata] at hgroup
  cases hgroup
  rw [isData_iff] at hkind
  rw [isGroup_iff, hkind] at hgroupKind
  cases hgroupKind

theorem slot_eq (get : FieldInfo → Option Nat) (hfield : level[i]? = some field) :
    slot get level i = get field.info := by
  rw [slot, hfield, Option.bind_some]

theorem Linked.isLast_of_counts (h : Linked level)
    (hback : slot (·.entryCountField) level i = some j) : IsLast (Names level · i) j := by
  obtain ⟨hcounts, hlast⟩ := (h.counts.back j i).mp hback
  refine ⟨.inl hcounts, fun k hk => ?_⟩
  rcases hk with hk | hk
  · exact hlast k hk
  · exact absurd hk hcounts.not_gives

theorem Linked.isLast_of_gives (h : Linked level)
    (hback : slot (·.lengthField) level i = some j) : IsLast (Names level · i) j := by
  obtain ⟨hgives, hlast⟩ := (h.gives.back j i).mp hback
  refine ⟨.inr hgives, fun k hk => ?_⟩
  rcases hk with hk | hk
  · exact absurd hgives hk.not_gives
  · exact hlast k hk

theorem Linked.not_names (h : Linked level) (hcounts : slot (·.entryCountField) level i = none)
    (hgives : slot (·.lengthField) level i = none) (k : Nat) : ¬ Names level k i := by
  rintro (hk | hk)
  · exact h.counts.back_eq_none (fun _ hcounts => hcounts.bounds.1) hcounts k hk
  · exact h.gives.back_eq_none (fun _ hgives => hgives.bounds.1) hgives k hk

/-- The first link that a field has is the one that it chooses. -/
theorem Linked.chosen_of_link (h : Linked level) (hfield : level[i]? = some field)
    (hlink : Generate.link field.info = some j) : Chosen level i j := by
  rw [Generate.link] at hlink
  cases hentry : field.info.entryCountField with
  | some first =>
    rw [hentry] at hlink
    have hfirst : first = j := Option.some.inj hlink
    rw [← slot_eq (·.entryCountField) hfield, hfirst] at hentry
    exact .inl (h.isLast_of_counts hentry)
  | none =>
  cases hlength : field.info.lengthField with
  | some first =>
    rw [hentry, hlength] at hlink
    have hfirst : first = j := Option.some.inj hlink
    rw [← slot_eq (·.lengthField) hfield, hfirst] at hlength
    exact .inl (h.isLast_of_gives hlength)
  | none =>
  rw [hentry, hlength] at hlink
  rw [← slot_eq (·.entryCountField) hfield] at hentry
  rw [← slot_eq (·.lengthField) hfield] at hlength
  refine .inr ⟨h.not_names hentry hlength, ?_⟩
  cases hgroup : field.info.groupField with
  | some first =>
    rw [hgroup] at hlink
    have hfirst : first = j := Option.some.inj hlink
    rw [← slot_eq (·.groupField) hfield, hfirst] at hgroup
    exact .inl ((h.counts.out i j).mp hgroup)
  | none =>
    rw [hgroup] at hlink
    have hdata : slot (·.dataField) level i = some j := (slot_eq (·.dataField) hfield).trans hlink
    rw [← slot_eq (·.groupField) hfield] at hgroup
    exact .inr ⟨h.counts.out_eq_none hgroup, (h.gives.out i j).mp hdata⟩

theorem Linked.not_paired (h : Linked level) (hfield : level[i]? = some field)
    (hlink : Generate.link field.info = none) (j : Nat) : ¬ Paired level i j := by
  simp only [Generate.link, Option.orElse_eq_orElse, Option.orElse_eq_or,
    Option.or_eq_none_iff] at hlink
  simp only [← slot_eq (·.entryCountField) hfield,
    ← slot_eq (·.lengthField) hfield] at hlink
  obtain ⟨hentry, hlength, hgroup, hdata⟩ := hlink
  rintro (hnames | hnames)
  · rw [← slot_eq (·.groupField) hfield] at hgroup
    rw [← slot_eq (·.dataField) hfield] at hdata
    exact hnames.elim (h.counts.out_eq_none hgroup j) (h.gives.out_eq_none hdata j)
  · exact h.not_names hentry hlength j hnames

end
end Field

namespace Token

theorem lt_behind (run : List Token) (index : Nat) : index < behind run index := by
  unfold behind findEnd
  split
  · exact Nat.lt_succ_self index
  · split
    · exact Nat.lt_succ_self index
    · next closing _ =>
      cases closeAt _ closing 1 _ with
      | none => exact Nat.lt_succ_self index
      | some distance =>
        simp only [Option.map_some, Option.getD_some]
        omega

theorem le_of_mem_row {run : List Token} {first count index : Nat}
    (h : index ∈ row run first count) : first ≤ index := by
  induction count generalizing first with
  | zero => cases h
  | succ count ih =>
    rcases List.mem_cons.mp h with rfl | h
    · exact Nat.le_refl index
    · exact Nat.le_of_lt (Nat.lt_of_lt_of_le (lt_behind run first) (ih h))

theorem nodup_row (run : List Token) (first count : Nat) : (row run first count).Nodup := by
  induction count generalizing first with
  | zero => exact .nil
  | succ count ih =>
    rw [row, List.nodup_cons]
    refine ⟨fun hmem => ?_, ih _⟩
    exact Nat.not_lt.mpr (le_of_mem_row hmem) (lt_behind run first)

theorem place_of_row {run : List Token} {first count i j index : Nat}
    (hi : (row run first count)[i]? = some index) (hj : (row run first count)[j]? = some index) :
    i = j :=
  (List.getElem?_inj (List.getElem?_eq_some_iff.mp hi).1 (nodup_row run first count)).mp
    (hi.trans hj.symm)

theorem exists_row {run : List Token} {first count i : Nat} (h : i < count) :
    ∃ index, (row run first count)[i]? = some index :=
  ⟨_, List.getElem?_eq_getElem (by rwa [length_row])⟩

end Token

namespace Generate
open SimpleBinary.Field (Joined Level Linked Paired Chosen Single Standing)
open Token (row findEnd maxCount)

def Beside (run : List Token) (fields : List Field) (a b : Nat) : Prop :=
  ∃ first level, Standing run fields first level ∧ a ∈ row run first level.length ∧
    b ∈ row run first level.length

/-- Whatever a begin points at is a sibling that points back, and fields that
are paired point at each other. -/
structure Mutual (run : List Token) (fields : List Field) : Prop where
  returned : ∀ {b : Nat} {token : Token}, run[b]? = some token → token.signal.isBegin = true →
    token.refId ≠ invalidId → ∃ (r : Nat) (sibling : Token), token.refId.toInt = r ∧
      run[r]? = some sibling ∧ sibling.refId.toInt = b ∧ Beside run fields b r
  paired : ∀ {first i j a b : Nat} {level : List Field} {token : Token},
    Standing run fields first level → Paired level i j →
    (row run first level.length)[i]? = some a → (row run first level.length)[j]? = some b →
    run[a]? = some token → token.refId.toInt = b

structure CrossLinked (run : List Token) (fields : List Field) : Prop where
  elements : ∀ {k : Nat} {token : Token}, run[k]? = some token → token.refId ≠ invalidId →
    EndsElement run fields k
  chosen : ∀ {first i a : Nat} {level : List Field} {token : Token},
    Standing run fields first level → (row run first level.length)[i]? = some a →
    run[a]? = some token →
    (token.refId = invalidId ∧ ∀ j, ¬ Paired level i j) ∨
      ∃ j b, Chosen level i j ∧ (row run first level.length)[j]? = some b ∧
        token.refId.toInt = b
  mutual_iff : Mutual run fields ↔ ∀ level, Level fields level → Single level

section
variable {run : List Token} {fields level : List Field} {first : Nat}

theorem level_of_standing (h : Standing run fields first level) : Level fields level := by
  induction h with
  | message => exact .top
  | group _ hgroup _ ih => exact .group ih (List.mem_of_getElem? hgroup)

theorem Referenced.exists_standing (h : Referenced run fields) (hlevel : Level fields level) :
    ∃ first, Standing run fields first level := by
  induction hlevel with
  | top => exact ⟨1, .message⟩
  | group _ hgroup ih =>
    obtain ⟨first, hstanding⟩ := ih
    obtain ⟨place, hplace⟩ := List.mem_iff_getElem?.mp hgroup
    obtain ⟨index, _, _, hindex, -⟩ := h.around hstanding hplace
    exact ⟨_, .group hstanding hplace hindex⟩

theorem Referenced.exists_token (h : Referenced run fields)
    (hstanding : Standing run fields first level) {i a : Nat}
    (hrow : (row run first level.length)[i]? = some a) :
    ∃ field last token, level[i]? = some field ∧ Around run field a last token := by
  have hlt := (List.getElem?_eq_some_iff.mp hrow).1
  rw [Token.length_row] at hlt
  have hfield := List.getElem?_eq_getElem hlt
  obtain ⟨index, last, token, hindex, haround⟩ := h.around hstanding hfield
  rw [hrow] at hindex
  cases hindex
  exact ⟨_, last, token, hfield, haround⟩

theorem Referenced.chosen (h : Referenced run fields) (hjoined : Joined fields)
    (hmax : run.length ≤ maxCount) (hstanding : Standing run fields first level) {i a : Nat}
    {token : Token} (hrow : (row run first level.length)[i]? = some a)
    (htoken : run[a]? = some token) :
    (token.refId = invalidId ∧ ∀ j, ¬ Paired level i j) ∨
      ∃ j b, Chosen level i j ∧ (row run first level.length)[j]? = some b ∧
        token.refId.toInt = b := by
  have hlinked := hjoined level (level_of_standing hstanding)
  obtain ⟨field, -, -, hfield, -⟩ := h.exists_token hstanding hrow
  cases hlink : link field.info with
  | none =>
    refine .inl ⟨h.unlinked hstanding hfield hrow htoken ?_, hlinked.not_paired hfield hlink⟩
    intro other hother
    rw [hlink] at hother
    cases hother
  | some j =>
    have hchosen := hlinked.chosen_of_link hfield hlink
    have hlt := hchosen.paired.bounds.2
    obtain ⟨b, hb⟩ := Token.exists_row hlt
    refine .inr ⟨j, b, hchosen, hb, ?_⟩
    exact (h.linked hstanding hfield hrow htoken hlink (List.getElem?_eq_getElem hlt) hb).2.2 hmax

section
variable (h : Referenced run fields) (hjoined : Joined fields) (hmax : run.length ≤ maxCount)
include h

theorem Referenced.single_of_mutual (hmutual : Mutual run fields) (hlevel : Level fields level) :
    Single level := by
  intro i j k hj hk
  obtain ⟨first, hstanding⟩ := h.exists_standing hlevel
  obtain ⟨a, ha⟩ := Token.exists_row hj.bounds.1
  obtain ⟨b, hb⟩ := Token.exists_row hj.bounds.2
  obtain ⟨c, hc⟩ := Token.exists_row hk.bounds.2
  obtain ⟨field, last, token, -, haround⟩ := h.exists_token hstanding ha
  have hrefb := hmutual.paired hstanding hj ha hb haround.begins
  have hrefc := hmutual.paired hstanding hk ha hc haround.begins
  have heq : b = c := by omega
  rw [heq] at hb
  exact Token.place_of_row hb hc

include hjoined hmax

theorem Referenced.points_of_single (hsingle : Single level)
    (hstanding : Standing run fields first level) {i j a b : Nat} {token : Token}
    (hpaired : Paired level i j) (ha : (row run first level.length)[i]? = some a)
    (hb : (row run first level.length)[j]? = some b) (htoken : run[a]? = some token) :
    token.refId.toInt = b := by
  rcases h.chosen hjoined hmax hstanding ha htoken with ⟨-, halone⟩ | ⟨k, c, hchosen, hc, href⟩
  · exact absurd hpaired (halone j)
  · have heq : k = j := hsingle i k j hchosen.paired hpaired
    rw [heq, hb] at hc
    cases hc
    exact href

theorem Referenced.mutual_of_single (hsingle : ∀ level, Level fields level → Single level) :
    Mutual run fields where
  returned := by
    intro b token htoken hbegin hlinked
    obtain ⟨first, i, a, level, field, hstanding, hfield, hrow, hends⟩ := h.others htoken hlinked
    obtain ⟨field', last, opening, hfield', haround⟩ := h.exists_token hstanding hrow
    rcases hends with rfl | hend
    · rcases h.chosen hjoined hmax hstanding hrow htoken with ⟨hnone, -⟩ | ⟨j, r, hchosen, hr, href⟩
      · exact absurd hnone hlinked
      · obtain ⟨sibling, _, opening', -, hsibling⟩ := h.exists_token hstanding hr
        refine ⟨r, opening', href, hsibling.begins, ?_, first, level, hstanding,
          List.mem_of_getElem? hrow, List.mem_of_getElem? hr⟩
        exact h.points_of_single hjoined hmax (hsingle level (level_of_standing hstanding))
          hstanding
          hchosen.paired.symm hr hrow hsibling.begins
    · -- the end of an element is no begin
      rw [haround.closed] at hend
      cases hend
      rw [haround.ends] at htoken
      cases htoken
      cases field' <;> cases hbegin
  paired := by
    intro first i j a b level token hstanding hpaired ha hb htoken
    exact h.points_of_single hjoined hmax (hsingle level (level_of_standing hstanding)) hstanding
      hpaired ha hb htoken

theorem Referenced.crossLinked : CrossLinked run fields where
  elements := h.others
  chosen := fun hstanding => h.chosen hjoined hmax hstanding
  mutual_iff := ⟨fun hmutual _ hlevel => h.single_of_mutual hmutual hlevel,
    h.mutual_of_single hjoined hmax⟩

end
end
end Generate

namespace Schema
open Generate (CrossLinked)

/-- In the runs of an accepted document every link leads to a sibling that names
the field or is named by it, by a fixed choice; all links of a run are mutual
just when no field is paired with two others. -/
theorem crossLinked_of_parse {document : String} {policy : Policy} {schema : Schema}
    (h : parse document policy = .ok schema) (namespaceName : Option String) :
    schema.Compiles namespaceName fun ir =>
      ∀ entry ∈ ir.messages.entries, entry.2.length ≤ Token.maxCount →
        ∃ message ∈ schema.messages.values, entry.1 = message.id ∧
          CrossLinked entry.2 message.fields := by
  obtain ⟨_, _, -, -, hcompiles⟩ := (valid_of_parse h).compiles namespaceName
  refine hcompiles.imp fun ir hcompile _ => ?_
  obtain ⟨info, members, start, -, hcreate, rfl⟩ := compile_eq_ok hcompile
  intro entry hentry hmax
  obtain ⟨source, hsource, rfl⟩ := List.mem_map.mp (Record.mem_entries_addAll hcreate hentry)
  have hmessage : source.2 ∈ schema.messages.values := List.mem_map_of_mem hsource
  refine ⟨source.2, hmessage, rfl, ?_⟩
  have hreferenced := Generate.referenced_messageTokens schema.byteOrder source.2
  exact hreferenced.crossLinked (joined_of_parse h source.2 hmessage) hmax

/-- In the group `g` one field counts the entries of `h` and gives the length
of `d`; in the message a field and a group are linked with each other. -/
def rivals : String :=
  withHeader "<messageSchema package='p' id='7'><types>"
    "<composite name='groupSizeEncoding'>
    <type name='blockLength' primitiveType='uint16'/><type name='numInGroup' primitiveType='uint8'/>
    </composite><composite name='text'><type name='length' primitiveType='uint8'/>
    <type name='varData' primitiveType='uint8'/></composite></types>
    <message name='M' id='1'><field name='m' id='2' type='uint8' groupName='g'/>
    <group name='g' id='3'><field name='n' id='4' type='uint8' groupName='h' refId='6'/>
    <group name='h' id='5'/><data name='d' id='6' type='text'/></group></message></messageSchema>"

def pointers (schema : Schema) : List (Signal × Int) :=
  ((schema.compile none).toOption.bind (·.messages.entries.head?)).elim [] fun entry =>
    entry.2.map fun token => (token.signal, token.refId.toInt)

theorem pointers_rivals : (parse rivals {}).toOption.map pointers = some
    [(.beginMessage, 2147483647), (.beginField, 4), (.encoding, 2147483647), (.endField, 4),
      (.beginGroup, 1), (.beginComposite, 2147483647), (.encoding, 2147483647),
      (.encoding, 2147483647), (.endComposite, 2147483647), (.beginField, 12),
      (.encoding, 2147483647), (.endField, 12), (.beginGroup, 9), (.beginComposite, 2147483647),
      (.encoding, 2147483647), (.encoding, 2147483647), (.endComposite, 2147483647), (.endGroup, 9),
      (.beginVarData, 9), (.beginComposite, 2147483647), (.encoding, 2147483647),
      (.encoding, 2147483647), (.endComposite, 2147483647), (.endVarData, 9), (.endGroup, 1),
      (.endMessage, 2147483647)] := by
  rw [rivals, parse_withHeader String.toList_ofList String.toList_ofList]
  decide +kernel

theorem exists_entry_of_pointers {schema : Schema} {view : List (Signal × Int)}
    (h : pointers schema = view) (hsome : view ≠ []) :
    ∃ ir, schema.compile none = .ok ir ∧ ∃ entry ∈ ir.messages.entries,
      entry.2.map (fun token => (token.signal, token.refId.toInt)) = view := by
  rw [pointers] at h
  cases hrun : (schema.compile none).toOption.bind (·.messages.entries.head?) with
  | none =>
    rw [hrun] at h
    exact absurd h.symm hsome
  | some entry =>
    rw [hrun] at h
    obtain ⟨ir, hir, hhead⟩ := Option.bind_eq_some_iff.mp hrun
    exact ⟨ir, eq_ok_of_toOption hir, entry, List.mem_of_mem_head? hhead, h⟩

theorem crossLinked_rivals :
    ∃ schema ir, parse rivals {} = .ok schema ∧ schema.compile none = .ok ir ∧
      ∃ entry ∈ ir.messages.entries, entry.2.length ≤ Token.maxCount ∧
        ∃ message ∈ schema.messages.values, entry.1 = message.id ∧
          CrossLinked entry.2 message.fields := by
  obtain ⟨schema, hparse, hview⟩ := exists_of_parse pointers_rivals
  obtain ⟨ir, hcompile, entry, hentry, hpointers⟩ := exists_entry_of_pointers hview (by simp)
  have hlinked := (crossLinked_of_parse hparse none).of_compile hcompile
  have hlength : entry.2.length ≤ Token.maxCount := by
    have hcount := congrArg List.length hpointers
    rw [List.length_map] at hcount
    rw [hcount]
    decide
  exact ⟨schema, ir, hparse, hcompile, entry, hentry, hlength, hlinked entry hentry hlength⟩

/-- A data element points at a field that points elsewhere. -/
theorem unreturned_rivals :
    ∃ schema ir, parse rivals {} = .ok schema ∧ schema.compile none = .ok ir ∧
      ∃ entry ∈ ir.messages.entries, ∃ token sibling,
        entry.2[18]? = some token ∧ (token.signal, token.refId.toInt) = (.beginVarData, 9) ∧
        entry.2[9]? = some sibling ∧
        (sibling.signal, sibling.refId.toInt) = (.beginField, 12) := by
  obtain ⟨schema, hparse, hview⟩ := exists_of_parse pointers_rivals
  obtain ⟨ir, hcompile, entry, hentry, hpointers⟩ := exists_entry_of_pointers hview (by simp)
  have htoken := congrArg (·[18]?) hpointers
  have hsibling := congrArg (·[9]?) hpointers
  rw [List.getElem?_map] at htoken hsibling
  obtain ⟨token, htoken, hpoints⟩ := Option.map_eq_some_iff.mp htoken
  obtain ⟨sibling, hsibling, hreturns⟩ := Option.map_eq_some_iff.mp hsibling
  exact ⟨schema, ir, hparse, hcompile, entry, hentry, token, sibling, htoken, hpoints, hsibling,
    hreturns⟩

end Schema
end SimpleBinary
