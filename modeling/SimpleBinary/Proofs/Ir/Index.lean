import SimpleBinary.Proofs.Ir.Build
import SimpleBinary.Proofs.Ir.Generated
import SimpleBinary.Proofs.Token.Nesting

/-! The index of types. Runs are added in any order, under any identities, and
types of one name may come again and again: the index holds the last of them,
from its begin to its end, and whatever is inside it is in the index too. -/
namespace SimpleBinary

theorem Signal.isBegin_of_opensType {signal : Signal} (h : signal.opensType = true) :
    signal.isBegin = true := by
  cases signal <;> first | rfl | cases h

namespace Token

def Introduces (name : String) (token : Token) : Prop :=
  token.signal.opensType = true ∧ token.name = name

instance (name : String) (token : Token) : Decidable (Introduces name token) :=
  inferInstanceAs (Decidable (_ ∧ _))

/-- The stretch from a begin to its end, with whole brackets between them. -/
def Spans (opening : Token) (tail stretch : List Token) : Prop :=
  ∃ inner closing rest, tail = inner ++ closing :: rest ∧
    opening.signal.closing? = some closing.signal ∧ Nested inner ∧
    stretch = opening :: inner ++ [closing]

/-- The stretch of the last type of a name in a run: no other type of the name
opens behind its begin. -/
def LastIn (run : List Token) (name : String) (stretch : List Token) : Prop :=
  ∃ front opening tail, run = front ++ opening :: tail ∧ Introduces name opening ∧
    Spans opening tail stretch ∧ ∀ token ∈ tail, ¬ Introduces name token

def LastAmong (runs : List (List Token)) (name : String) (stretch : List Token) : Prop :=
  ∃ before run after, runs = before ++ run :: after ∧ LastIn run name stretch ∧
    ∀ other ∈ after, ∀ token ∈ other, ¬ Introduces name token

/-- Every begin of a run has its end in the run. This is what nesting leaves of
itself in the tails of a run, where an end may come first that closes nothing. -/
def Closing : List Token → Prop
  | [] => True
  | token :: rest =>
    (token.signal.isBegin = true → ∃ stretch, Spans token rest stretch) ∧ Closing rest

variable {name : String} {opening : Token} {tail stretch : List Token}

namespace Spans

theorem append (h : Spans opening tail stretch) (more : List Token) :
    Spans opening (tail ++ more) stretch := by
  obtain ⟨inner, closing, rest, rfl, h⟩ := h
  exact ⟨inner, closing, rest ++ more, by simp, h⟩

theorem head?_eq (h : Spans opening tail stretch) : stretch.head? = some opening := by
  obtain ⟨inner, closing, rest, -, -, -, rfl⟩ := h
  rfl

theorem findEnd_eq (h : Spans opening tail stretch) :
    findEnd (opening :: tail) 0 = some (stretch.length - 1) := by
  obtain ⟨inner, closing, rest, rfl, hclosing, hinner, rfl⟩ := h
  rw [findEnd_bracket hclosing hinner rfl]
  simp

theorem take_eq (h : Spans opening tail stretch) :
    (opening :: tail).take (stretch.length - 1 + 1) = stretch := by
  obtain ⟨inner, closing, rest, rfl, -, -, rfl⟩ := h
  have hsplit : opening :: (inner ++ closing :: rest) =
      (opening :: inner ++ [closing]) ++ rest := by simp
  rw [hsplit, List.take_left' (by simp)]

theorem closed (h : Spans opening tail stretch) :
    findEnd stretch 0 = some (stretch.length - 1) := by
  obtain ⟨inner, closing, rest, -, hclosing, hinner, rfl⟩ := h
  exact (bracketed_of_nested hclosing hinner).2

end Spans

theorem Closing.append {a b : List Token} (ha : Closing a) (hb : Closing b) : Closing (a ++ b) := by
  induction a with
  | nil => exact hb
  | cons token rest ih =>
    refine ⟨fun hbegin => ?_, ih ha.2⟩
    obtain ⟨stretch, hstretch⟩ := ha.1 hbegin
    exact ⟨stretch, hstretch.append b⟩

theorem Nested.closing_run {run : List Token} (h : Nested run) : Closing run := by
  induction h with
  | nil => trivial
  | leaf hbegin _ _ ih =>
    refine ⟨fun h => ?_, ih⟩
    rw [hbegin] at h
    cases h
  | @bracket opening closing inner rest hclosing hinner _ ihInner ihRest =>
    refine ⟨fun _ => ⟨_, inner, closing, rest, rfl, hclosing, hinner, rfl⟩,
      ihInner.append ⟨fun h => ?_, ihRest⟩⟩
    rw [(Signal.isEnd_of_closing? hclosing).2] at h
    cases h

theorem lastIn_cons {token : Token} {rest : List Token} :
    LastIn (token :: rest) name stretch ↔ LastIn rest name stretch ∨
      (∀ other ∈ rest, ¬ Introduces name other) ∧ Introduces name token ∧
        Spans token rest stretch := by
  constructor
  · rintro ⟨front, opening, tail, hrun, hname, hspans, hlast⟩
    cases front with
    | nil =>
      cases hrun
      exact .inr ⟨hlast, hname, hspans⟩
    | cons first front =>
      cases hrun
      exact .inl ⟨front, opening, tail, rfl, hname, hspans, hlast⟩
  · rintro (⟨front, opening, tail, rfl, h⟩ | ⟨hlast, hname, hspans⟩)
    · exact ⟨token :: front, opening, tail, rfl, h⟩
    · exact ⟨[], token, rest, rfl, hname, hspans, hlast⟩

theorem lastAmong_cons {run : List Token} {rest : List (List Token)} :
    LastAmong (run :: rest) name stretch ↔ LastAmong rest name stretch ∨
      (∀ other ∈ rest, ∀ token ∈ other, ¬ Introduces name token) ∧ LastIn run name stretch := by
  constructor
  · rintro ⟨before, found, after, hruns, hfound, hlast⟩
    cases before with
    | nil =>
      cases hruns
      exact .inr ⟨hlast, hfound⟩
    | cons first before =>
      cases hruns
      exact .inl ⟨before, found, after, rfl, hfound, hlast⟩
  · rintro (⟨before, found, after, rfl, h⟩ | ⟨hlast, hfound⟩)
    · exact ⟨run :: before, found, after, rfl, h⟩
    · exact ⟨[], run, rest, rfl, hfound, hlast⟩

theorem exists_lastIn {run : List Token} (hclosing : Closing run)
    (h : ∃ token ∈ run, Introduces name token) : ∃ stretch, LastIn run name stretch := by
  induction run with
  | nil => simp at h
  | cons token rest ih =>
    by_cases hrest : ∃ other ∈ rest, Introduces name other
    · obtain ⟨stretch, hstretch⟩ := ih hclosing.2 hrest
      exact ⟨stretch, lastIn_cons.mpr (.inl hstretch)⟩
    · have htoken : Introduces name token := by
        obtain ⟨other, hmem, hother⟩ := h
        rcases List.mem_cons.mp hmem with rfl | hmem
        · exact hother
        · exact absurd ⟨other, hmem, hother⟩ hrest
      obtain ⟨stretch, hspans⟩ := hclosing.1 (Signal.isBegin_of_opensType htoken.1)
      exact ⟨stretch, lastIn_cons.mpr (.inr ⟨fun other hmem hother => hrest ⟨other, hmem, hother⟩,
        htoken, hspans⟩)⟩

theorem exists_lastAmong {runs : List (List Token)} (hclosing : ∀ run ∈ runs, Closing run)
    (h : ∃ run ∈ runs, ∃ token ∈ run, Introduces name token) :
    ∃ stretch, LastAmong runs name stretch := by
  induction runs with
  | nil => simp at h
  | cons run rest ih =>
    obtain ⟨hrun, hothers⟩ := List.forall_mem_cons.mp hclosing
    by_cases hrest : ∃ other ∈ rest, ∃ token ∈ other, Introduces name token
    · obtain ⟨stretch, hstretch⟩ := ih hothers hrest
      exact ⟨stretch, lastAmong_cons.mpr (.inl hstretch)⟩
    · have hhere : ∃ token ∈ run, Introduces name token := by
        obtain ⟨other, hmem, hother⟩ := h
        rcases List.mem_cons.mp hmem with rfl | hmem
        · exact hother
        · exact absurd ⟨other, hmem, hother⟩ hrest
      obtain ⟨stretch, hlast⟩ := exists_lastIn hrun hhere
      exact ⟨stretch, lastAmong_cons.mpr (.inr ⟨fun other hmem token htoken hname =>
        hrest ⟨other, hmem, token, htoken, hname⟩, hlast⟩)⟩

theorem LastAmong.exists_spans {runs : List (List Token)} (h : LastAmong runs name stretch) :
    ∃ run ∈ runs, ∃ front opening tail, run = front ++ opening :: tail ∧
      Introduces name opening ∧ Spans opening tail stretch := by
  obtain ⟨before, run, after, rfl, ⟨front, opening, tail, rfl, hname, hspans, -⟩, -⟩ := h
  exact ⟨_, by simp, front, opening, tail, rfl, hname, hspans⟩

end Token

namespace Ir
open Token (Nested Closing Introduces Spans LastIn LastAmong lastIn_cons lastAmong_cons)

theorem captureTypes_other {token : Token} (h : token.signal.opensType = false)
    (types : Table String (List Token)) (rest : List Token) :
    captureTypes types (token :: rest) = captureTypes types rest := by
  simp [captureTypes, h]

theorem captureTypes_spans {token : Token} {rest stretch : List Token}
    (hopens : token.signal.opensType = true) (hspans : Spans token rest stretch)
    (types : Table String (List Token)) :
    captureTypes types (token :: rest) =
      captureTypes (types.insert token.name stretch) rest := by
  simp only [captureTypes, hopens, if_true, hspans.findEnd_eq, hspans.take_eq]

theorem get?_captureTypes {run : List Token} (hclosing : Closing run)
    (types : Table String (List Token)) (name : String) (stretch : List Token) :
    (captureTypes types run).get? name = some stretch ↔ LastIn run name stretch ∨
      (∀ token ∈ run, ¬ Introduces name token) ∧ types.get? name = some stretch := by
  induction run generalizing types with
  | nil => simp [captureTypes, LastIn]
  | cons token rest ih =>
    rw [lastIn_cons, List.forall_mem_cons]
    by_cases hopens : token.signal.opensType = true
    · obtain ⟨whole, hwhole⟩ := hclosing.1 (Signal.isBegin_of_opensType hopens)
      have hspans : Spans token rest stretch ↔ whole = stretch := by
        constructor
        · intro h
          have hlength := Option.some.inj (hwhole.findEnd_eq.symm.trans h.findEnd_eq)
          rw [← hwhole.take_eq, hlength, h.take_eq]
        · rintro rfl
          exact hwhole
      rw [captureTypes_spans hopens hwhole, ih hclosing.2]
      by_cases hname : token.name = name
      · have hhere : Introduces name token := ⟨hopens, hname⟩
        rw [← hname, Table.get?_insert_self, hname, Option.some.injEq, ← hspans]
        simp [hhere]
      · have hother : ¬ Introduces name token := fun h => hname h.2
        rw [Table.get?_insert_of_ne _ (Ne.symm hname)]
        simp [hother]
    · have hother : ¬ Introduces name token := fun h => hopens h.1
      rw [captureTypes_other (by simpa using hopens), ih hclosing.2]
      simp [hother]

/-- Run after run, the last type of a name stays. -/
theorem get?_foldl_captureTypes {runs : List (List Token)} (hclosing : ∀ run ∈ runs, Closing run)
    (types : Table String (List Token)) (name : String) (stretch : List Token) :
    (runs.foldl captureTypes types).get? name = some stretch ↔ LastAmong runs name stretch ∨
      (∀ run ∈ runs, ∀ token ∈ run, ¬ Introduces name token) ∧
        types.get? name = some stretch := by
  induction runs generalizing types with
  | nil => simp [LastAmong]
  | cons run rest ih =>
    obtain ⟨hrun, hrest⟩ := List.forall_mem_cons.mp hclosing
    rw [List.foldl_cons, ih hrest, get?_captureTypes hrun, lastAmong_cons, List.forall_mem_cons]
    constructor
    · rintro (h | ⟨hnone, h | ⟨hhere, h⟩⟩)
      · exact .inl (.inl h)
      · exact .inl (.inr ⟨hnone, h⟩)
      · exact .inr ⟨⟨hhere, hnone⟩, h⟩
    · rintro ((h | ⟨hnone, h⟩) | ⟨⟨hhere, hnone⟩, h⟩)
      · exact .inl h
      · exact .inr ⟨hnone, .inl h⟩
      · exact .inr ⟨hnone, .inr ⟨hhere, h⟩⟩

theorem get?_indexOf {header : List Token} {runs : List (List Token)}
    (hclosing : ∀ run ∈ header :: runs, Closing run) (name : String) (stretch : List Token) :
    (indexOf header runs).get? name = some stretch ↔
      LastAmong (header :: runs) name stretch := by
  have hfold := get?_foldl_captureTypes hclosing .empty name stretch
  have hempty : (Table.empty : Table String (List Token)).get? name = none := rfl
  rw [hempty] at hfold
  simpa [indexOf] using hfold

theorem isSome_indexOf {header : List Token} {runs : List (List Token)}
    (hclosing : ∀ run ∈ header :: runs, Closing run) (name : String) :
    ((indexOf header runs).get? name).isSome = true ↔
      ∃ run ∈ header :: runs, ∃ token ∈ run, Introduces name token := by
  rw [Option.isSome_iff_exists]
  simp only [get?_indexOf hclosing]
  constructor
  · rintro ⟨stretch, hlast⟩
    obtain ⟨run, hrun, front, opening, tail, rfl, hname, -⟩ := hlast.exists_spans
    exact ⟨_, hrun, opening, by simp, hname⟩
  · exact Token.exists_lastAmong hclosing

/-- All runs that are kept: that of the header, of the messages and of the types. -/
def stored (ir : Ir) : List (List Token) :=
  ir.header.tokens :: ir.messages.entries.map (·.2) ++ ir.types.entries.map (·.2)

/-- What is kept of a header and of the runs added after it. -/
structure Indexes (ir : Ir) (header : List Token) (runs : List (Int32 × List Token)) : Prop where
  tokens : ir.header.tokens = header
  messages : ∀ id, ir.messages.get? id = (runs.filter (·.1 == id)).getLast?.map (·.2)
  types : ∀ name stretch, ir.types.get? name = some stretch ↔
    LastAmong (header :: runs.map (·.2)) name stretch
  names : ∀ name, (ir.types.get? name).isSome = true ↔
    ∃ run ∈ header :: runs.map (·.2), ∃ token ∈ run, Introduces name token
  closed : ∀ name stretch, ir.types.get? name = some stretch →
    stretch.head?.map (·.name) = some name ∧ Token.findEnd stretch 0 = some (stretch.length - 1)
  complete : ∀ run ∈ ir.stored, ∀ token ∈ run, token.signal.opensType = true →
    (ir.types.get? token.name).isSome = true

theorem exists_mem_of_stored {ir : Ir} {runs : List (Int32 × List Token)}
    (hmessages : ir.messages = Table.empty.addAll runs)
    (htypes : ir.types = indexOf ir.header.tokens (runs.map (·.2))) {run : List Token}
    (hrun : run ∈ ir.stored) {token : Token} (htoken : token ∈ run) :
    ∃ given ∈ ir.header.tokens :: runs.map (·.2), token ∈ given := by
  rcases List.mem_append.mp hrun with hrun | hrun
  · refine ⟨run, ?_, htoken⟩
    rcases List.mem_cons.mp hrun with rfl | hrun
    · exact List.mem_cons_self
    · obtain ⟨entry, hentry, rfl⟩ := List.mem_map.mp hrun
      rw [hmessages] at hentry
      rcases Table.mem_addAll hentry with hentry | hentry
      · cases hentry
      · exact List.mem_cons_of_mem _ (List.mem_map_of_mem hentry)
  · obtain ⟨entry, hentry, rfl⟩ := List.mem_map.mp hrun
    rw [htypes] at hentry
    have hmem := mem_of_indexOf hentry token htoken
    rw [← List.flatten_cons] at hmem
    exact List.mem_flatten.mp hmem

/-- However messages are added, all types that were ever given are indexed, each
name with its last one. -/
theorem indexes_addAll {packageName : String} {namespaceName : Option String} {id version : Int32}
    {semanticVersion : Option String} {byteOrder : ByteOrder} {header : List Token} {start : Ir}
    (hcreate : create packageName namespaceName id version semanticVersion byteOrder header =
      .ok start)
    (hheader : Nested header) {runs : List (Int32 × List Token)}
    (hruns : ∀ run ∈ runs, Nested run.2) : (start.addAll runs).Indexes header runs := by
  obtain ⟨layout, hlayout, rfl⟩ := create_eq_ok.mp hcreate
  have htokens := (ofTokens_eq_ok.mp hlayout).1
  have hclosing : ∀ run ∈ header :: runs.map (·.2), Closing run := by
    rw [List.forall_mem_cons, List.forall_mem_map]
    exact ⟨hheader.closing_run, fun run hrun => (hruns run hrun).closing_run⟩
  rw [addAll_eq]
  exact {
    tokens := htokens
    messages := by
      intro id
      rw [Table.get?_addAll]
      exact Option.or_none
    types := get?_indexOf hclosing
    names := isSome_indexOf hclosing
    closed := by
      intro name stretch hget
      obtain ⟨run, -, front, opening, tail, -, hname, hspans⟩ :=
        ((get?_indexOf hclosing name stretch).mp hget).exists_spans
      rw [hspans.head?_eq]
      exact ⟨congrArg some hname.2, hspans.closed⟩
    complete := by
      intro run hrun token htoken hopens
      obtain ⟨given, hgiven, hmem⟩ :=
        exists_mem_of_stored rfl (by rw [htokens]; rfl) hrun htoken
      rw [htokens] at hgiven
      exact (isSome_indexOf hclosing token.name).mpr ⟨given, hgiven, token, hmem, hopens, rfl⟩ }

open Generate (bracketed nested_bracketed)

def messageOf (type : List Token) : List Token :=
  bracketed { signal := .beginMessage, name := "Order" } .endMessage <|
    bracketed { signal := .beginField, name := "leg" } .endField type

def side : List Token :=
  bracketed { signal := .beginEnum, name := "Side" } .endEnum
    [{ signal := .validValue, name := "BUY" }]

def flags : List Token := bracketed { signal := .beginSet, name := "Pair" } .endSet []

def pairOf (inner : List Token) : List Token :=
  bracketed { signal := .beginComposite, name := "Pair" } .endComposite inner

theorem nested_plainHeader : Nested plainHeader :=
  nested_bracketed rfl
    (.leaf rfl rfl (.leaf rfl rfl (.leaf rfl rfl (.leaf rfl rfl .nil))))

theorem nested_messageOf {inner : List Token} (h : Nested inner) :
    Nested (messageOf (pairOf inner)) :=
  nested_bracketed rfl (nested_bracketed rfl (nested_bracketed rfl h))

/-- The second run takes the place of the first, whose enum stays; in the last a
set has the name of the composite around it. -/
def exchange : List (Int32 × List Token) :=
  [(7, messageOf (pairOf side)), (7, messageOf (pairOf [])), (-1, messageOf (pairOf flags))]

theorem indexes_exchange : ∃ start, create "p" none 1 0 none .little plainHeader = .ok start ∧
    Nested plainHeader ∧ (∀ run ∈ exchange, Nested run.2) ∧
    (start.addAll exchange).Indexes plainHeader exchange ∧
    (start.addAll exchange).types.get? "Pair" = some flags ∧
    ((start.addAll exchange).types.get? "Side").isSome = true := by
  have hruns : ∀ run ∈ exchange, Nested run.2 := by
    rw [exchange, List.forall_mem_cons, List.forall_mem_cons, List.forall_mem_singleton]
    exact ⟨nested_messageOf (nested_bracketed rfl (.leaf rfl rfl .nil)), nested_messageOf .nil,
      nested_messageOf (nested_bracketed rfl .nil)⟩
  exact ⟨_, rfl, nested_plainHeader, hruns, indexes_addAll rfl nested_plainHeader hruns,
    by decide +kernel⟩

end Ir
end SimpleBinary
