import SimpleBinary.Proofs.Schema.TypeScripts
import SimpleBinary.Proofs.Schema.Types

/-! Checks without an error. Under the default policy warnings have no say, and
what was logged before has none either as long as it holds no error; so a check
comes to the same result wherever it passes. -/
namespace SimpleBinary

theorem Log.clean_append {policy : Policy} {before more : List Diagnostic} :
    Log.Clean ⟨policy, before ++ more⟩ ↔ Log.Clean ⟨policy, before⟩ ∧ Log.Clean ⟨policy, more⟩ :=
  List.forall_mem_append

namespace Check
variable {α β : Type} {endless : Bool}

/-- The check finds no error and comes to this value, from any log that holds
none. -/
def Passes (check : Check α) (value : α) : Prop :=
  ∀ before, Log.Clean ⟨{}, before⟩ →
    ∃ after, check.run ⟨{}, before⟩ = (.ok value, ⟨{}, after⟩) ∧ Log.Clean ⟨{}, after⟩

namespace Passes

theorem pure (value : α) : Passes (Pure.pure value) value :=
  fun before hbefore => ⟨before, rfl, hbefore⟩

theorem bind {check : Check α} {next : α → Check β} {value : α} {result : β}
    (h : Passes check value) (hnext : Passes (next value) result) :
    Passes (check >>= next) result := by
  intro before hbefore
  obtain ⟨between, hrun, hbetween⟩ := h before hbefore
  obtain ⟨after, hresult, hafter⟩ := hnext between hbetween
  exact ⟨after, (run_bind_ok hrun).trans hresult, hafter⟩

theorem map {check : Check α} {value : α} (f : α → β) (h : Passes check value) :
    Passes (f <$> check) (f value) := by
  rw [map_eq_pure_bind]
  exact h.bind (.pure _)

theorem warning (finding : Finding) : Passes (Check.warning finding) () := by
  intro before hbefore
  have hrun := run_report_eq {} before ⟨.warning, finding⟩
  refine ⟨before ++ [⟨.warning, finding⟩], hrun.trans rfl, ?_⟩
  rw [Log.clean_append]
  refine ⟨hbefore, fun diagnostic hmem => ?_⟩
  rw [List.mem_singleton.mp hmem]
  nofun

end Passes

theorem Script.passes (script : Script α) {log after : Log} {value : α}
    (h : script.play.run log = (.ok value, after)) (hafter : after.Clean) :
    log.Clean ∧ Passes script.play value := by
  obtain ⟨policy, before⟩ := log
  induction script generalizing before with
  | done outcome =>
    obtain ⟨rfl, rfl⟩ := Prod.mk.inj h
    exact ⟨hafter, .pure value⟩
  | found diagnostic rest ih =>
    cases hstops : stops policy diagnostic with
    | true =>
      rw [run_found_stop rest hstops] at h
      cases h
    | false =>
      rw [run_found_go rest hstops] at h
      obtain ⟨hlog, hrest⟩ := ih _ h
      rw [Log.clean_append] at hlog
      refine ⟨hlog.1, fun start hstart => ?_⟩
      rw [run_found_go rest rfl]
      exact hrest _ (Log.clean_append.mpr ⟨hstart, hlog.2⟩)
  | checkpoint rest ih =>
    cases hrefuses : refuses policy before with
    | true =>
      rw [run_checkpoint_stop rest hrefuses] at h
      cases h
    | false =>
      rw [run_checkpoint_go rest hrefuses] at h
      obtain ⟨hlog, hrest⟩ := ih _ h
      refine ⟨hlog, fun start hstart => ?_⟩
      have hgo : refuses {} start = false := by
        rw [refuses, List.any_eq_false]
        intro diagnostic hmem
        cases hseverity : diagnostic.severity with
        | error => exact absurd hseverity (hstart diagnostic hmem)
        | warning => exact Bool.false_ne_true
      rw [run_checkpoint_go rest hgo]
      exact hrest start hstart

def result? (check : Check α) : Option α :=
  if (check.run {}).2.errorCount = 0 then (check.run {}).1.toOption else none

theorem result?_eq_some {check : Check α} {value : α} :
    check.result? = some value ↔ ∃ after, check.run {} = (.ok value, after) ∧ after.Clean := by
  have hclean : ∀ log : Log, log.Clean ↔ log.errorCount = 0 := by
    intro log
    simp [Log.Clean, Log.errorCount, Diagnostic.count, List.countP_eq_zero]
  unfold result?
  constructor
  · intro h
    split at h
    · next hcount =>
      refine ⟨(check.run {}).2, ?_, (hclean _).mpr hcount⟩
      rcases hrun : check.run {} with ⟨error | other, after⟩
      · rw [hrun] at h
        cases h
      · rw [hrun] at h
        cases h
        rfl
    · cases h
  · rintro ⟨after, hrun, hafter⟩
    rw [hrun, if_pos ((hclean after).mp hafter)]
    rfl

namespace Scripted
variable {check : Check α}

theorem passes_iff (h : Scripted check endless) {value : α} :
    Passes check value ↔ check.result? = some value := by
  rw [result?_eq_some]
  constructor
  · intro hpasses
    obtain ⟨after, hrun, hafter⟩ := hpasses [] nofun
    exact ⟨_, hrun, hafter⟩
  · rintro ⟨after, hrun, hafter⟩
    obtain ⟨script, rfl, -⟩ := h
    exact (script.passes hrun hafter).2

theorem yields (h : Scripted check endless) : Yields check (Passes check) := by
  obtain ⟨script, rfl, -⟩ := h
  exact fun log value after hrun hclean => script.passes hrun hclean

theorem yields_result? (h : Scripted check endless) :
    Yields check fun value => check.result? = some value :=
  h.yields.mono fun _ => h.passes_iff.mp

end Scripted

end Check

namespace TypeReader
open Check (Passes)
variable {α β : Type} {names : List String}

/-- With these names open, the reading finds no error and comes to this value,
and no other names are open behind it. -/
def Reads (names : List String) (reading : Reading α) (value : α) : Prop :=
  ∃ left, left ⊆ names ∧ Passes (reading.run names) (value, left)

namespace Reads
variable {reading : Reading α} {value : α}

theorem pure (value : α) : Reads names (Pure.pure value) value :=
  ⟨names, fun _ h => h, .pure _⟩

theorem lift {check : Check α} (h : Passes check value) : Reads names (liftM check) value :=
  ⟨names, fun _ h => h, h.bind (.pure (value, names))⟩

theorem bind_lift {check : Check α} {next : α → Reading β} {result : β} (h : Passes check value)
    (hnext : Reads names (next value) result) : Reads names (liftM check >>= next) result := by
  obtain ⟨left, hleft, hresult⟩ := hnext
  refine ⟨left, hleft, ?_⟩
  rw [StateT.run_bind]
  exact (h.bind (.pure (value, names))).bind hresult

theorem bind {next : α → Reading β} {result : β} (h : Reads names reading value)
    (hnext : ∀ left, left ⊆ names → Reads left (next value) result) :
    Reads names (reading >>= next) result := by
  obtain ⟨left, hleft, hvalue⟩ := h
  obtain ⟨less, hless, hresult⟩ := hnext left hleft
  refine ⟨less, fun _ h => hleft (hless h), ?_⟩
  rw [StateT.run_bind]
  exact hvalue.bind hresult

theorem opened {name : String} {next : α → Reading β} {result : β}
    (h : Reads (name :: names) reading value)
    (hnext : ∀ left, left ⊆ names → Reads left (next value) result) :
    Reads names (do
      modify (name :: ·)
      let value ← reading
      modify (·.filter (· ≠ name))
      next value) result := by
  obtain ⟨left, hleft, hvalue⟩ := h
  have hclosed : left.filter (· ≠ name) ⊆ names := by
    intro other hother
    obtain ⟨hmem, hne⟩ := List.mem_filter.mp hother
    exact (List.mem_cons.mp (hleft hmem)).resolve_left (of_decide_eq_true hne)
  obtain ⟨less, hless, hresult⟩ := hnext _ hclosed
  refine ⟨less, fun _ h => hclosed (hless h), ?_⟩
  change Passes (reading.run (name :: names) >>= fun pair =>
    (next pair.1).run (pair.2.filter fun other => decide (other ≠ name))) _
  exact hvalue.bind hresult

theorem run' (h : Reads names reading value) : Passes (reading.run' names) value := by
  obtain ⟨left, -, hvalue⟩ := h
  exact hvalue.map Prod.fst

end Reads
end TypeReader
end SimpleBinary
