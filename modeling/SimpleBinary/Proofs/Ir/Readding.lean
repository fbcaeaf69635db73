import SimpleBinary.Proofs.Ir.Described
import SimpleBinary.Proofs.Ir.Index
import SimpleBinary.Proofs.Walk.Header

/-! What becomes of a compiled schema when messages that it has are added to it
again. The messages stay, and so do the names in the index of types; but a type
that is used in several messages is indexed as it stands in the one added last,
so adding is without effect, in any order, just when messages use the types of
one name alike. -/
namespace SimpleBinary

namespace Token

/-- Runs that have types of one name have them alike. -/
def Agree (runs : List (List Token)) : Prop :=
  ∀ a ∈ runs, ∀ b ∈ runs, ∀ name first second, LastIn a name first → LastIn b name second →
    (first == second) = true

theorem run_beq_iff (a b : List Token) : (a == b) = true ↔ a.map content = b.map content :=
  list_beq_iff beq_iff_content a b

variable {name : String} {stretch : List Token}

theorem LastIn.introduces {run : List Token} (h : LastIn run name stretch) :
    ∃ token ∈ run, Introduces name token := by
  obtain ⟨front, opening, tail, rfl, hname, -⟩ := h
  exact ⟨opening, by simp, hname⟩

theorem LastAmong.exists_lastIn {runs : List (List Token)} (h : LastAmong runs name stretch) :
    ∃ run ∈ runs, LastIn run name stretch := by
  obtain ⟨before, run, after, rfl, hlast, -⟩ := h
  exact ⟨run, by simp, hlast⟩

theorem lastAmong_concat {run : List Token} (runs : List (List Token))
    (h : LastIn run name stretch) : LastAmong (runs ++ [run]) name stretch :=
  ⟨runs, run, [], rfl, h, fun _ hother => (List.not_mem_nil hother).elim⟩

end Token

namespace Ir
open Token (Closing Introduces LastIn LastAmong Agree)

/-- A compiled schema as it was built up: its index is that of the header and
the messages. -/
structure Indexed (ir : Ir) : Prop where
  closing : ∀ run ∈ ir.header.tokens :: ir.messages.values, Closing run
  types : ir.types = indexOf ir.header.tokens ir.messages.values

def Stores (ir : Ir) (entries : List (Int32 × List Token)) : Prop :=
  ∀ entry ∈ entries, ir.messages.get? entry.1 = some entry.2

theorem Stores.of_perm {ir : Ir} {entries other : List (Int32 × List Token)}
    (h : ir.Stores entries) (hperm : other.Perm entries) : ir.Stores other :=
  fun entry hentry => h entry (hperm.mem_iff.mp hentry)

theorem captureTypes_captureTypes {run : List Token} (hclosing : Closing run)
    (types : Table String (List Token)) :
    captureTypes (captureTypes types run) run = captureTypes types run := by
  apply Table.ext_get?
  intro name
  apply Option.ext
  intro stretch
  rw [get?_captureTypes hclosing, get?_captureTypes hclosing]
  constructor
  · rintro (hlast | ⟨hnone, hlast | ⟨-, hget⟩⟩)
    · exact .inl hlast
    · exact .inl hlast
    · exact .inr ⟨hnone, hget⟩
  · rintro (hlast | ⟨hnone, hget⟩)
    · exact .inl hlast
    · exact .inr ⟨hnone, .inr ⟨hnone, hget⟩⟩

theorem get?_foldl_other {runs : List (List Token)} (hclosing : ∀ run ∈ runs, Closing run)
    (types : Table String (List Token)) {name : String}
    (hnone : ¬ ∃ run ∈ runs, ∃ token ∈ run, Introduces name token) :
    (runs.foldl captureTypes types).get? name = types.get? name := by
  apply Option.ext
  intro stretch
  rw [get?_foldl_captureTypes hclosing]
  constructor
  · rintro (hlast | ⟨-, hget⟩)
    · obtain ⟨run, hrun, hlast⟩ := hlast.exists_lastIn
      exact absurd ⟨run, hrun, hlast.introduces⟩ hnone
    · exact hget
  · intro hget
    refine .inr ⟨fun run hrun token htoken hname => hnone ⟨run, hrun, token, htoken, hname⟩, hget⟩

theorem get?_captureTypes_other {run : List Token} (hclosing : Closing run)
    (types : Table String (List Token)) {name : String}
    (hnone : ¬ ∃ token ∈ run, Introduces name token) :
    (captureTypes types run).get? name = types.get? name := by
  apply @get?_foldl_other [run]
  · simpa using hclosing
  · simpa using hnone

section
variable {ir : Ir} {entries : List (Int32 × List Token)}

theorem addAll_stored (h : ir.Stores entries) :
    ir.addAll entries = { ir with types := (entries.map (·.2)).foldl captureTypes ir.types } := by
  rw [addAll_eq, Table.addAll_of_get? h]

theorem addMessage_stored {id : Int32} {run : List Token} (h : ir.messages.get? id = some run) :
    ir.addMessage id run = { ir with types := captureTypes ir.types run } := by
  rw [addMessage, Table.insert_of_get? h]

/-- Compiled schemas that differ in the index alone are compared name by name. -/
theorem types_beq_iff (a b : Table String (List Token)) :
    (({ ir with types := a } : Ir) == { ir with types := b }) = true ↔
      ∀ name, (a.get? name).map (List.map Token.content) =
        (b.get? name).map (List.map Token.content) := by
  rw [beq_iff, ← Table.beq_iff_get? Token.run_beq_iff]
  simp [HeaderStructure.beq_iff]

end

namespace Indexed
variable {ir : Ir} (h : ir.Indexed) {entries : List (Int32 × List Token)} {run : List Token}
include h

theorem closing_of_mem (hrun : run ∈ ir.messages.values) : Closing run :=
  h.closing run (List.mem_cons_of_mem _ hrun)

theorem closing_of_stores (hentries : ir.Stores entries) :
    ∀ run ∈ entries.map (·.2), Closing run := by
  intro run hrun
  obtain ⟨entry, hentry, rfl⟩ := List.mem_map.mp hrun
  have hmem := Table.mem_of_get? (hentries entry hentry)
  exact h.closing_of_mem (List.mem_map.mpr ⟨_, hmem, rfl⟩)

theorem exists_indexed (hrun : run ∈ ir.messages.values) {name : String}
    (hname : ∃ token ∈ run, Introduces name token) :
    ∃ indexed, ir.types.get? name = some indexed ∧
      ∃ other ∈ ir.messages.values, LastIn other name indexed := by
  have hruns : ∃ other ∈ ir.messages.values, ∃ token ∈ other, Introduces name token :=
    ⟨run, hrun, hname⟩
  obtain ⟨indexed, hlast⟩ := Token.exists_lastAmong (fun other => h.closing_of_mem) hruns
  have hamong : LastAmong (ir.header.tokens :: ir.messages.values) name indexed :=
    Token.lastAmong_cons.mpr (.inl hlast)
  refine ⟨indexed, ?_, hlast.exists_lastIn⟩
  rw [h.types, get?_indexOf h.closing]
  exact hamong

theorem isSome_captureTypes (hrun : run ∈ ir.messages.values) (name : String) :
    ((captureTypes ir.types run).get? name).isSome = (ir.types.get? name).isSome := by
  have hclosing := h.closing_of_mem hrun
  by_cases hname : ∃ token ∈ run, Introduces name token
  · obtain ⟨stretch, hlast⟩ := Token.exists_lastIn hclosing hname
    obtain ⟨indexed, hindexed, -⟩ := h.exists_indexed hrun hname
    rw [(get?_captureTypes hclosing ir.types name stretch).mpr (.inl hlast), hindexed]
    rfl
  · rw [get?_captureTypes_other hclosing ir.types hname]

/-- A message is without effect if its types are indexed as it has them. -/
theorem addMessage_beq_iff {id : Int32} (hrun : ir.messages.get? id = some run) :
    (ir.addMessage id run == ir) = true ↔ ∀ name stretch, LastIn run name stretch →
      ∃ indexed, ir.types.get? name = some indexed ∧ (stretch == indexed) = true := by
  have hclosing := h.closing_of_mem (List.mem_map.mpr ⟨_, Table.mem_of_get? hrun, rfl⟩)
  have hget : ∀ {name stretch}, LastIn run name stretch →
      (captureTypes ir.types run).get? name = some stretch :=
    fun hlast => (get?_captureTypes hclosing ir.types _ _).mpr (.inl hlast)
  rw [addMessage_stored hrun]
  refine Iff.trans (types_beq_iff _ _) ?_
  constructor
  · intro hsame name stretch hlast
    have hname := hsame name
    rw [hget hlast, Option.map_some] at hname
    obtain ⟨indexed, hindexed, heq⟩ := Option.map_eq_some_iff.mp hname.symm
    exact ⟨indexed, hindexed, (Token.run_beq_iff _ _).mpr heq.symm⟩
  · intro hsame name
    by_cases hname : ∃ token ∈ run, Introduces name token
    · obtain ⟨stretch, hlast⟩ := Token.exists_lastIn hclosing hname
      obtain ⟨indexed, hindexed, heq⟩ := hsame name stretch hlast
      rw [hget hlast, hindexed, Option.map_some, Option.map_some, (Token.run_beq_iff _ _).mp heq]
    · rw [get?_captureTypes_other hclosing ir.types hname]

theorem all_beq_iff :
    (∀ id run, ir.messages.get? id = some run → (ir.addMessage id run == ir) = true) ↔
      Agree ir.messages.values := by
  constructor
  · intro hsame a ha b hb name first second hfirst hsecond
    have hindexed : ∀ run ∈ ir.messages.values, ∀ stretch, LastIn run name stretch →
        ∃ indexed, ir.types.get? name = some indexed ∧ (stretch == indexed) = true := by
      intro run hrun stretch hlast
      obtain ⟨entry, hentry, rfl⟩ := List.mem_map.mp hrun
      have hget := Table.get?_of_mem hentry
      exact (h.addMessage_beq_iff hget).mp (hsame entry.1 entry.2 hget) name stretch hlast
    obtain ⟨indexed, hget, heq⟩ := hindexed a ha first hfirst
    obtain ⟨indexed', hget', heq'⟩ := hindexed b hb second hsecond
    cases hget.symm.trans hget'
    rw [Token.run_beq_iff] at heq heq' ⊢
    exact heq.trans heq'.symm
  · intro hagree id run hrun
    have hmem : run ∈ ir.messages.values := List.mem_map.mpr ⟨_, Table.mem_of_get? hrun, rfl⟩
    rw [h.addMessage_beq_iff hrun]
    intro name stretch hlast
    obtain ⟨indexed, hget, other, hother, hindexed⟩ := h.exists_indexed hmem hlast.introduces
    exact ⟨indexed, hget, hagree run hmem other hother name stretch indexed hlast hindexed⟩

theorem addMessage_last {entry : Int32 × List Token}
    (hlast : ir.messages.entries.getLast? = some entry) : ir.addMessage entry.1 entry.2 = ir := by
  obtain ⟨before, hentries⟩ := List.getLast?_eq_some_iff.mp hlast
  have hmem : entry ∈ ir.messages.entries := by
    rw [hentries]
    exact List.mem_append_right _ List.mem_cons_self
  have hclosing := h.closing_of_mem (List.mem_map.mpr ⟨entry, hmem, rfl⟩)
  have htypes : captureTypes ir.types entry.2 = ir.types := by
    rw [h.types, Table.values, hentries, List.map_append, indexOf, List.foldl_append]
    exact captureTypes_captureTypes hclosing _
  rw [addMessage_stored (Table.get?_of_mem hmem), htypes]

/-- The types of a message are indexed as it has them if it is added last. -/
theorem exists_ending (hentries : ir.Stores entries) (hrun : run ∈ entries.map (·.2))
    {name : String} {stretch : List Token} (hlast : LastIn run name stretch) :
    ∃ other : List (Int32 × List Token), other.Perm entries ∧
      ((other.map (·.2)).foldl captureTypes ir.types).get? name = some stretch := by
  obtain ⟨entry, hentry, rfl⟩ := List.mem_map.mp hrun
  obtain ⟨before, after, rfl⟩ := List.append_of_mem hentry
  have hperm : (before ++ after ++ [entry]).Perm (before ++ entry :: after) :=
    (List.perm_append_singleton entry _).trans List.perm_middle.symm
  have hclosing := h.closing_of_stores (hentries.of_perm hperm)
  refine ⟨_, hperm, (get?_foldl_captureTypes hclosing ir.types name stretch).mpr (.inl ?_)⟩
  rw [List.map_append]
  exact Token.lastAmong_concat _ hlast

/-- In whatever order messages are added, a type that some of them have is
indexed as one of them has it. -/
theorem exists_found (hentries : ir.Stores entries) {name : String}
    (hname : ∃ run ∈ entries.map (·.2), ∃ token ∈ run, Introduces name token)
    {other : List (Int32 × List Token)} (hperm : other.Perm entries) :
    ∃ run ∈ entries.map (·.2), ∃ stretch, LastIn run name stretch ∧
      ((other.map (·.2)).foldl captureTypes ir.types).get? name = some stretch := by
  have hruns : ∀ run, run ∈ other.map (·.2) ↔ run ∈ entries.map (·.2) :=
    fun run => (hperm.map (·.2)).mem_iff
  have hclosing := h.closing_of_stores (hentries.of_perm hperm)
  obtain ⟨stretch, hlast⟩ := Token.exists_lastAmong hclosing (by simpa only [hruns] using hname)
  obtain ⟨run, hrun, hstretch⟩ := hlast.exists_lastIn
  refine ⟨run, (hruns run).mp hrun, stretch, hstretch, ?_⟩
  exact (get?_foldl_captureTypes hclosing ir.types name stretch).mpr (.inl hlast)

/-- Messages may be added in any order if they agree, and only then. -/
theorem order_iff (hentries : ir.Stores entries) :
    (∀ first second : List (Int32 × List Token), first.Perm entries → second.Perm entries →
      (ir.addAll first == ir.addAll second) = true) ↔ Agree (entries.map (·.2)) := by
  constructor
  · intro hsame a ha b hb name first second hfirst hsecond
    obtain ⟨x, hx, hgetx⟩ := h.exists_ending hentries ha hfirst
    obtain ⟨y, hy, hgety⟩ := h.exists_ending hentries hb hsecond
    have heq := hsame x y hx hy
    rw [addAll_stored (hentries.of_perm hx), addAll_stored (hentries.of_perm hy)] at heq
    have hname := (types_beq_iff _ _).mp heq name
    rw [hgetx, hgety, Option.map_some, Option.map_some] at hname
    exact (Token.run_beq_iff _ _).mpr (Option.some.inj hname)
  · intro hagree x y hx hy
    rw [addAll_stored (hentries.of_perm hx), addAll_stored (hentries.of_perm hy)]
    refine (types_beq_iff _ _).mpr fun name => ?_
    by_cases hname : ∃ run ∈ entries.map (·.2), ∃ token ∈ run, Introduces name token
    · obtain ⟨a, ha, first, hfirst, hgetx⟩ := h.exists_found hentries hname hx
      obtain ⟨b, hb, second, hsecond, hgety⟩ := h.exists_found hentries hname hy
      have heq := hagree a ha b hb name first second hfirst hsecond
      rw [hgetx, hgety, Option.map_some, Option.map_some, (Token.run_beq_iff _ _).mp heq]
    · have hother : ∀ other : List (Int32 × List Token), other.Perm entries →
          ((other.map (·.2)).foldl captureTypes ir.types).get? name = ir.types.get? name := by
        intro other hperm
        apply get?_foldl_other (h.closing_of_stores (hentries.of_perm hperm))
        simpa only [(hperm.map (·.2)).mem_iff] using hname
      rw [hother x hx, hother y hy]

end Indexed

structure Readds (ir : Ir) : Prop where
  messages : ∀ {id : Int32} {run : List Token}, ir.messages.get? id = some run →
    ir.addMessage id run = { ir with types := (ir.addMessage id run).types }
  types : ∀ {id : Int32} {run : List Token}, ir.messages.get? id = some run →
    ∀ name stretch, (ir.addMessage id run).types.get? name = some stretch ↔
      LastIn run name stretch ∨
        (∀ token ∈ run, ¬ Introduces name token) ∧ ir.types.get? name = some stretch
  names : ∀ {id : Int32} {run : List Token}, ir.messages.get? id = some run →
    ∀ name, ((ir.addMessage id run).types.get? name).isSome = (ir.types.get? name).isSome
  again : ∀ {id : Int32} {run : List Token}, ir.messages.get? id = some run →
    (ir.addMessage id run).addMessage id run = ir.addMessage id run
  last : ∀ {entry : Int32 × List Token}, ir.messages.entries.getLast? = some entry →
    ir.addMessage entry.1 entry.2 = ir
  same_iff : ∀ {id : Int32} {run : List Token}, ir.messages.get? id = some run →
    ((ir.addMessage id run == ir) = true ↔ ∀ name stretch, LastIn run name stretch →
      ∃ indexed, ir.types.get? name = some indexed ∧ (stretch == indexed) = true)
  all_same_iff :
    (∀ id run, ir.messages.get? id = some run → (ir.addMessage id run == ir) = true) ↔
      Agree ir.messages.values
  order_iff : ∀ {entries : List (Int32 × List Token)}, ir.Stores entries →
    ((∀ first second : List (Int32 × List Token), first.Perm entries → second.Perm entries →
      (ir.addAll first == ir.addAll second) = true) ↔ Agree (entries.map (·.2)))

theorem Indexed.readds {ir : Ir} (h : ir.Indexed) : ir.Readds := by
  have hclosing : ∀ {id run}, ir.messages.get? id = some run → run ∈ ir.messages.values :=
    fun hrun => List.mem_map.mpr ⟨_, Table.mem_of_get? hrun, rfl⟩
  exact {
    messages := fun hrun => by rw [addMessage_stored hrun]
    types := fun hrun => get?_captureTypes (h.closing_of_mem (hclosing hrun)) ir.types
    names := fun hrun => h.isSome_captureTypes (hclosing hrun)
    again := by
      intro id run hrun
      have hagain := captureTypes_captureTypes (h.closing_of_mem (hclosing hrun)) ir.types
      simp only [addMessage, Table.insert_of_get? hrun, hagain]
    last := h.addMessage_last
    same_iff := h.addMessage_beq_iff
    all_same_iff := h.all_beq_iff
    order_iff := h.order_iff }

end Ir

namespace Schema
open Generate

theorem Valid.indexed_of_compile {schema : Schema} (hvalid : schema.Valid)
    {namespaceName : Option String} {ir : Ir} (h : schema.compile namespaceName = .ok ir) :
    ir.Indexed := by
  obtain ⟨info, members, start, -, hcreate, rfl⟩ := compile_eq_ok h
  constructor
  · rw [(Record.header_addAll schema.runs hcreate).2, List.forall_mem_cons]
    constructor
    · exact (selfDescribing_headerTokens schema.byteOrder info members).nested.closing_run
    · intro run hrun
      obtain ⟨entry, hentry, rfl⟩ := List.mem_map.mp hrun
      obtain ⟨source, -, rfl⟩ := List.mem_map.mp (Record.mem_entries_addAll hcreate hentry)
      exact (selfDescribing_messageTokens schema.byteOrder source.2).nested.closing_run
  · exact Record.types_addAll hcreate hvalid.runs_ascending

/-- Adding a message of a compiled document again leaves its messages and the
names of its types; it has no effect at all, for every message and in any order,
just when the messages have the types of one name alike. -/
theorem readds_of_parse {document : String} {policy : Policy} {schema : Schema}
    (h : parse document policy = .ok schema) (namespaceName : Option String) :
    schema.Compiles namespaceName fun ir => ir.Readds := by
  have hvalid := valid_of_parse h
  obtain ⟨_, _, -, -, hcompiles⟩ := hvalid.compiles namespaceName
  exact hcompiles.imp fun ir hcompile _ => (hvalid.indexed_of_compile hcompile).readds

/-- Two messages with an enum at different offsets. -/
def displaced : String :=
  withHeader "<messageSchema package='p' id='7'><types>"
    "<enum name='Side' encodingType='char'><validValue name='Buy'>B</validValue>
    <validValue name='Sell'>S</validValue></enum></types>
    <message name='A' id='1'><field name='s' id='2' type='Side'/></message>
    <message name='B' id='2'><field name='n' id='3' type='uint8'/>
    <field name='s' id='2' type='Side'/></message></messageSchema>"

/-- For each message whether adding it again is without effect, and whether all
of them may be added in either direction. -/
structure Repeats where
  same : List Bool
  reversible : Bool
  deriving DecidableEq

def repeats (schema : Schema) : Option Repeats :=
  (schema.compile none).toOption.map fun ir =>
    { same := ir.messages.entries.map fun entry => ir.addMessage entry.1 entry.2 == ir
      reversible := ir.addAll ir.messages.entries == ir.addAll ir.messages.entries.reverse }

theorem repeats_displaced : (parse displaced {}).toOption.map repeats =
    some (some { same := [false, true], reversible := false }) := by
  rw [displaced, parse_withHeader String.toList_ofList String.toList_ofList]
  decide +kernel

theorem exists_displaced :
    ∃ schema ir, parse displaced {} = .ok schema ∧ schema.compile none = .ok ir ∧
      ir.messages.entries.map (fun entry => ir.addMessage entry.1 entry.2 == ir) = [false, true] ∧
      (ir.addAll ir.messages.entries == ir.addAll ir.messages.entries.reverse) = false := by
  obtain ⟨schema, hparse, hview⟩ := exists_of_parse repeats_displaced
  obtain ⟨ir, hcompile, hrepeats⟩ := exists_of_toOption hview
  obtain ⟨hsame, hreversible⟩ := Repeats.mk.inj hrepeats
  exact ⟨schema, ir, hparse, hcompile, hsame, hreversible⟩

theorem readds_displaced :
    ∃ schema ir, parse displaced {} = .ok schema ∧ schema.compile none = .ok ir ∧
      ir.messages.size = 2 ∧ ir.Readds := by
  obtain ⟨schema, ir, hparse, hcompile, hsame, -⟩ := exists_displaced
  have hsize := congrArg List.length hsame
  rw [List.length_map] at hsize
  exact ⟨schema, ir, hparse, hcompile, hsize, (readds_of_parse hparse none).of_compile hcompile⟩

/-- The first message moves the enum back to its own offset, so the order in
which both are added is seen. -/
theorem reordered_displaced :
    ∃ schema ir, parse displaced {} = .ok schema ∧ schema.compile none = .ok ir ∧
      (∃ id run, ir.messages.get? id = some run ∧ (ir.addMessage id run == ir) = false) ∧
      (ir.addAll ir.messages.entries == ir.addAll ir.messages.entries.reverse) = false := by
  obtain ⟨schema, ir, hparse, hcompile, hsame, hreversible⟩ := exists_displaced
  have hfalse : false ∈ ir.messages.entries.map fun entry =>
      ir.addMessage entry.1 entry.2 == ir := by
    rw [hsame]
    exact List.mem_cons_self
  obtain ⟨entry, hentry, hchanged⟩ := List.mem_map.mp hfalse
  exact ⟨schema, ir, hparse, hcompile, ⟨entry.1, entry.2, Table.get?_of_mem hentry, hchanged⟩,
    hreversible⟩

end Schema
end SimpleBinary
