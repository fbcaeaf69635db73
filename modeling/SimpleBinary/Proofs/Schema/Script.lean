import SimpleBinary.Proofs.Schema.Yields

/-! What a check owes to its policy. A check follows a script of findings and
checkpoints that no policy has a part in; a policy only says at which of them
the check ends. -/
namespace SimpleBinary

namespace Check
variable {α β : Type}

/-- The points at which a policy may end a check, in their order, and the
outcome if it ends the check at none of them. -/
inductive Script (α : Type) where
  | done (outcome : Except Error α)
  | found (diagnostic : Diagnostic) (rest : Script α)
  | checkpoint (rest : Script α)

def Script.play : Script α → Check α
  | .done outcome => ExceptT.mk (pure outcome)
  | .found diagnostic rest => do
    report diagnostic.severity diagnostic.finding
    rest.play
  | .checkpoint rest => do
    Check.checkpoint
    rest.play

def Script.Ends : Script α → Prop
  | .done outcome => outcome ≠ .error .endlessReferences
  | .found _ rest => rest.Ends
  | .checkpoint rest => rest.Ends

/-- A check that is nothing but its script, and one that ends unless the check
may be endless. -/
def Scripted (check : Check α) (endless : Bool := false) : Prop :=
  ∃ script : Script α, check = script.play ∧ (endless = false → script.Ends)

namespace Scripted
variable {endless : Bool}

theorem pure (value : α) : Scripted (Pure.pure value) endless :=
  ⟨.done (.ok value), rfl, fun _ h => nomatch h⟩

theorem throw (error : Error) (h : error ≠ .endlessReferences := by simp) :
    Scripted (MonadExcept.throw error : Check α) endless :=
  ⟨.done (.error error), rfl, fun _ herror => h (Except.error.inj herror)⟩

theorem without_end : Scripted (MonadExcept.throw .endlessReferences : Check α) true :=
  ⟨.done (.error .endlessReferences), rfl, nofun⟩

theorem weaken {check : Check α} (h : Scripted check) : Scripted check endless := by
  obtain ⟨script, hscript, hends⟩ := h
  exact ⟨script, hscript, fun _ => hends rfl⟩

theorem report (severity : Severity) (finding : Finding) :
    Scripted (Check.report severity finding) endless :=
  ⟨.found ⟨severity, finding⟩ (.done (.ok ())), (bind_pure_unit).symm, fun _ h => nomatch h⟩

theorem error (finding : Finding) : Scripted (Check.error finding) endless := report _ _

theorem warning (finding : Finding) : Scripted (Check.warning finding) endless := report _ _

theorem checkpoint : Scripted Check.checkpoint endless :=
  ⟨.checkpoint (.done (.ok ())), (bind_pure_unit).symm, fun _ h => nomatch h⟩

/-- Behind the first script comes that of the check which its outcome leads to. -/
theorem bind {check : Check α} {next : α → Check β} (h : Scripted check endless)
    (hnext : ∀ value, Scripted (next value) endless) : Scripted (check >>= next) endless := by
  obtain ⟨script, rfl, hends⟩ := h
  induction script with
  | done outcome =>
    cases outcome with
    | error error =>
      refine ⟨.done (.error error), rfl, fun hendless herror => hends hendless ?_⟩
      rw [Except.error.inj herror]
    | ok value => exact hnext value
  | found diagnostic rest ih =>
    obtain ⟨script, hscript, hrest⟩ := ih hends
    refine ⟨.found diagnostic script, ?_, hrest⟩
    simp only [Script.play, bind_assoc, hscript]
  | checkpoint rest ih =>
    obtain ⟨script, hscript, hrest⟩ := ih hends
    refine ⟨.checkpoint script, ?_, hrest⟩
    simp only [Script.play, bind_assoc, hscript]

theorem map {check : Check α} (f : α → β) (h : Scripted check endless) :
    Scripted (f <$> check) endless := by
  rw [map_eq_pure_bind]
  exact bind h fun value => pure (f value)

theorem ite {c : Prop} [Decidable c] {first second : Check α} (hfirst : Scripted first endless)
    (hsecond : Scripted second endless) : Scripted (if c then first else second) endless := by
  split
  · exact hfirst
  · exact hsecond

theorem guard {c : Prop} [Decidable c] {check : Check Unit} {rest : Check α}
    (hcheck : Scripted check endless) (hrest : Scripted rest endless) :
    Scripted (if c then check >>= fun _ => rest else rest) endless :=
  ite (bind hcheck fun _ => hrest) hrest

theorem foldlM {step : β → α → Check β} (hstep : ∀ acc item, Scripted (step acc item) endless)
    (items : List α) (init : β) : Scripted (items.foldlM step init) endless := by
  induction items generalizing init with
  | nil => exact pure init
  | cons item rest ih =>
    rw [List.foldlM_cons]
    exact bind (hstep init item) ih

end Scripted

theorem run_bind_ok {check : Check α} {next : α → Check β} {log after : Log} {value : α}
    (h : check.run log = (.ok value, after)) :
    (check >>= next).run log = (next value).run after := by
  change ExceptT.bindCont next (check.run log).1 (check.run log).2 = _
  rw [h]
  rfl

theorem run_bind_error {check : Check α} {next : α → Check β} {log after : Log} {error : Error}
    (h : check.run log = (.error error, after)) :
    (check >>= next).run log = (.error error, after) := by
  change ExceptT.bindCont next (check.run log).1 (check.run log).2 = _
  rw [h]
  rfl

def stops (policy : Policy) (diagnostic : Diagnostic) : Bool :=
  policy.stopOnError && Log.isFatal policy diagnostic.severity

def refuses (policy : Policy) (before : List Diagnostic) : Bool :=
  before.any fun diagnostic => Log.isFatal policy diagnostic.severity

theorem run_report_eq (policy : Policy) (before : List Diagnostic) (diagnostic : Diagnostic) :
    (report diagnostic.severity diagnostic.finding).run ⟨policy, before⟩ =
      (if stops policy diagnostic then .error (.schema diagnostic.finding) else .ok (),
        ⟨policy, before ++ [diagnostic]⟩) := by
  change (if stops policy diagnostic then throw (.schema diagnostic.finding) else pure () :
    Check Unit).run ⟨policy, before ++ [diagnostic]⟩ = _
  split <;> rfl

theorem run_checkpoint_eq (policy : Policy) (before : List Diagnostic) :
    Check.checkpoint.run ⟨policy, before⟩ =
      (if refuses policy before then .error (.invalid before) else .ok (), ⟨policy, before⟩) := by
  change (if refuses policy before then throw (.invalid before) else pure () :
    Check Unit).run ⟨policy, before⟩ = _
  split <;> rfl

theorem passes_of_run_checkpoint {log after : Log} {result : Unit}
    (h : Check.checkpoint.run log = (.ok result, after)) :
    refuses after.policy after.diagnostics = false := by
  rw [show Check.checkpoint.run log = _ from run_checkpoint_eq log.policy log.diagnostics] at h
  cases hrefuses : refuses log.policy log.diagnostics with
  | true =>
    rw [hrefuses] at h
    cases h
  | false =>
    rw [hrefuses] at h
    cases h
    exact hrefuses

namespace Script
variable {policy other : Policy} {before : List Diagnostic} {diagnostic : Diagnostic}

theorem run_found_stop (rest : Script α) (h : stops policy diagnostic = true) :
    (found diagnostic rest).play.run ⟨policy, before⟩ =
      (.error (.schema diagnostic.finding), ⟨policy, before ++ [diagnostic]⟩) := by
  apply run_bind_error
  rw [run_report_eq, if_pos h]

theorem run_found_go (rest : Script α) (h : stops policy diagnostic = false) :
    (found diagnostic rest).play.run ⟨policy, before⟩ =
      rest.play.run ⟨policy, before ++ [diagnostic]⟩ := by
  have hreport : (report diagnostic.severity diagnostic.finding).run ⟨policy, before⟩ =
      (.ok (), ⟨policy, before ++ [diagnostic]⟩) := by
    rw [run_report_eq, h]
    rfl
  exact run_bind_ok hreport

theorem run_checkpoint_stop (rest : Script α) (h : refuses policy before = true) :
    (checkpoint rest).play.run ⟨policy, before⟩ = (.error (.invalid before), ⟨policy, before⟩) := by
  apply run_bind_error
  rw [run_checkpoint_eq, if_pos h]

theorem run_checkpoint_go (rest : Script α) (h : refuses policy before = false) :
    (checkpoint rest).play.run ⟨policy, before⟩ = rest.play.run ⟨policy, before⟩ := by
  have hpass : Check.checkpoint.run ⟨policy, before⟩ = (.ok (), ⟨policy, before⟩) := by
    rw [run_checkpoint_eq, h]
    rfl
  exact run_bind_ok hpass

/-- No policy makes a check endless. -/
theorem run_ne_endless {script : Script α} (h : script.Ends) (policy : Policy)
    (before : List Diagnostic) :
    (script.play.run ⟨policy, before⟩).1 ≠ .error .endlessReferences := by
  induction script generalizing before with
  | done outcome => exact h
  | found diagnostic rest ih =>
    cases hstops : stops policy diagnostic with
    | true =>
      rw [run_found_stop rest hstops]
      nofun
    | false =>
      rw [run_found_go rest hstops]
      exact ih h (before ++ [diagnostic])
  | checkpoint rest ih =>
    cases hrefuses : refuses policy before with
    | true =>
      rw [run_checkpoint_stop rest hrefuses]
      nofun
    | false =>
      rw [run_checkpoint_go rest hrefuses]
      exact ih h before

theorem exists_found (script : Script α) (policy : Policy) (before : List Diagnostic) :
    ∃ more, (script.play.run ⟨policy, before⟩).2 = ⟨policy, before ++ more⟩ := by
  induction script generalizing before with
  | done outcome => exact ⟨[], by rw [List.append_nil]; rfl⟩
  | found diagnostic rest ih =>
    cases h : stops policy diagnostic with
    | true => exact ⟨[diagnostic], by rw [run_found_stop rest h]⟩
    | false =>
      obtain ⟨more, hmore⟩ := ih (before ++ [diagnostic])
      exact ⟨diagnostic :: more, by rw [run_found_go rest h, hmore, List.append_assoc]; rfl⟩
  | checkpoint rest ih =>
    cases h : refuses policy before with
    | true => exact ⟨[], by rw [run_checkpoint_stop rest h, List.append_nil]⟩
    | false =>
      rw [run_checkpoint_go rest h]
      exact ih before

theorem mem_found (script : Script α) (policy : Policy) (h : diagnostic ∈ before) :
    diagnostic ∈ (script.play.run ⟨policy, before⟩).2.diagnostics := by
  obtain ⟨more, hmore⟩ := script.exists_found policy before
  rw [hmore]
  exact List.mem_append_left more h

/-- Two policies to which a diagnostic is the same. -/
def Alike (policy other : Policy) (diagnostic : Diagnostic) : Prop :=
  Log.isFatal policy diagnostic.severity = Log.isFatal other diagnostic.severity ∧
    stops policy diagnostic = stops other diagnostic

theorem alike_of_harmless (h : Log.isFatal policy diagnostic.severity = false)
    (hother : Log.isFatal other diagnostic.severity = false) : Alike policy other diagnostic := by
  simp [Alike, stops, h, hother]

/-- Policies tell runs apart only by a diagnostic that is not the same to them. -/
theorem run_alike (script : Script α)
    (h : ∀ diagnostic ∈ (script.play.run ⟨policy, before⟩).2.diagnostics,
      Alike policy other diagnostic) :
    script.play.run ⟨other, before⟩ = ((script.play.run ⟨policy, before⟩).1,
      ⟨other, (script.play.run ⟨policy, before⟩).2.diagnostics⟩) := by
  induction script generalizing before with
  | done outcome => rfl
  | found diagnostic rest ih =>
    cases hstops : stops policy diagnostic with
    | true =>
      rw [run_found_stop rest hstops] at h ⊢
      have halike := h diagnostic (by simp)
      rw [run_found_stop rest (halike.2 ▸ hstops)]
    | false =>
      rw [run_found_go rest hstops] at h ⊢
      have halike := h diagnostic (rest.mem_found policy (by simp))
      rw [run_found_go rest (halike.2 ▸ hstops), ih h]
  | checkpoint rest ih =>
    have hrefuses : refuses policy before = refuses other before := by
      rw [Bool.eq_iff_iff]
      simp only [refuses, List.any_eq_true]
      refine exists_congr fun diagnostic => and_congr_right fun hmem => ?_
      rw [(h diagnostic ((checkpoint rest).mem_found policy hmem)).1]
    cases hpolicy : refuses policy before with
    | true =>
      rw [run_checkpoint_stop rest hpolicy, run_checkpoint_stop rest (hrefuses ▸ hpolicy)]
    | false =>
      rw [run_checkpoint_go rest hpolicy] at h ⊢
      rw [run_checkpoint_go rest (hrefuses ▸ hpolicy), ih h]

theorem first_unique {fatal : Diagnostic → Bool} {a b c d : List Diagnostic} {x y : Diagnostic}
    (h : a ++ x :: c = b ++ y :: d) (ha : ∀ e ∈ a, fatal e = false) (hx : fatal x = true)
    (hb : ∀ e ∈ b, fatal e = false) (hy : fatal y = true) : a = b ∧ x = y := by
  have hclean : ∀ (l m : List Diagnostic) (z : Diagnostic), (∀ e ∈ l, fatal e = false) →
      fatal z = true → (l ++ z :: m).takeWhile (fun e => !fatal e) = l := by
    intro l m z hl hz
    rw [List.takeWhile_append_of_pos (by simpa using hl),
      List.takeWhile_cons_of_neg (by simp [hz]), List.append_nil]
  have heq : a = b := by rw [← hclean a c x ha hx, h, hclean b d y hb hy]
  subst heq
  exact ⟨rfl, (List.cons.inj (List.append_cancel_left h)).1⟩

/-- A policy that stops ends a check at the first diagnostic which is fatal in
the run that goes on. -/
theorem run_first (script : Script α) {clean after : List Diagnostic}
    (hbefore : ∀ e ∈ before, Log.isFatal policy e.severity = false)
    (hfound : (script.play.run ⟨{ policy with stopOnError := false }, before⟩).2.diagnostics =
      clean ++ diagnostic :: after)
    (hclean : ∀ e ∈ clean, Log.isFatal policy e.severity = false)
    (hfatal : Log.isFatal policy diagnostic.severity = true) :
    script.play.run ⟨{ policy with stopOnError := true }, before⟩ =
      (.error (.schema diagnostic.finding),
        ⟨{ policy with stopOnError := true }, clean ++ [diagnostic]⟩) := by
  have hsame : ∀ stop severity, Log.isFatal { policy with stopOnError := stop } severity =
      Log.isFatal policy severity := by
    intro stop severity
    cases severity <;> rfl
  induction script generalizing before with
  | done outcome =>
    have hmem : diagnostic ∈ before := by
      have heq : before = clean ++ diagnostic :: after := hfound
      rw [heq]
      simp
    rw [hbefore diagnostic hmem] at hfatal
    cases hfatal
  | found first rest ih =>
    rw [run_found_go rest (by rfl)] at hfound
    cases hfirst : Log.isFatal policy first.severity with
    | true =>
      obtain ⟨more, hmore⟩ :=
        rest.exists_found { policy with stopOnError := false } (before ++ [first])
      rw [hmore, List.append_assoc] at hfound
      obtain ⟨rfl, rfl⟩ := first_unique hfound hbefore hfirst hclean hfatal
      exact run_found_stop rest ((hsame true _).trans hfatal)
    | false =>
      have hgo : stops { policy with stopOnError := true } first = false :=
        (hsame true _).trans hfirst
      rw [run_found_go rest hgo]
      refine ih (fun e he => ?_) hfound
      rcases List.mem_append.mp he with he | he
      · exact hbefore e he
      · rw [List.mem_singleton.mp he, hfirst]
  | checkpoint rest ih =>
    have hgo : ∀ stop, refuses { policy with stopOnError := stop } before = false := by
      intro stop
      simpa [refuses, hsame] using hbefore
    rw [run_checkpoint_go rest (hgo false)] at hfound
    rw [run_checkpoint_go rest (hgo true)]
    exact ih hbefore hfound

end Script

theorem scripted_name (text : String) : Scripted (name text) :=
  .ite (.pure ()) (.error _)

end Check

namespace Xml.Element
open Check (Scripted)
variable (element : Element) (key : String)

theorem scripted_required : Scripted (element.required key) := by
  unfold required
  split
  · exact .pure _
  · exact .throw _

theorem scripted_word (default : Int32) : Scripted (element.word key default) := by
  unfold word
  split
  · exact .pure _
  · split
    · exact .pure _
    · exact .throw _

theorem scripted_word? : Scripted (element.word? key) := by
  unfold word?
  split
  · exact .pure _
  · exact .map some (element.scripted_word key 0)

theorem scripted_requiredWord : Scripted (element.requiredWord key) := by
  apply Scripted.bind (element.scripted_required key)
  exact fun _ => element.scripted_word key 0

theorem scripted_flag (default : Bool) : Scripted (element.flag key default) := by
  unfold flag
  split
  · exact .pure _
  · exact .pure _
  · exact .pure _
  · exact .throw _

theorem scripted_presence? : Scripted element.presence? := by
  unfold presence?
  split
  · exact .pure _
  · split
    · exact .pure _
    · exact .throw _

end Xml.Element
end SimpleBinary
