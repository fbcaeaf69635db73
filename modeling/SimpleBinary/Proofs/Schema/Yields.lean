import SimpleBinary.Schema.Attribute

/-! What a check that ends well says about its result. Errors stay in the log
up to the next checkpoint, so a result counts only if the log behind it holds
no error; then there was none before it either, and every rule that reports an
error otherwise has been kept. -/
namespace SimpleBinary

def Log.Clean (log : Log) : Prop := ∀ diagnostic ∈ log.diagnostics, diagnostic.severity ≠ .error

namespace Check
variable {α β : Type}

/-- A result in front of a clean log is as `post` says, and the log was clean
before. -/
def Yields (check : Check α) (post : α → Prop) : Prop :=
  ∀ log value after, check.run log = (.ok value, after) → after.Clean → log.Clean ∧ post value

namespace Yields
variable {check : Check α} {next : α → Check β} {mid : α → Prop} {post : β → Prop}

theorem run_bind_eq_ok {log after : Log} {result : β}
    (h : (check >>= next).run log = (.ok result, after)) :
    ∃ value between, check.run log = (.ok value, between) ∧
      (next value).run between = (.ok result, after) := by
  have hbind : (check >>= next).run log =
      match check.run log with
      | (.ok value, between) => (next value).run between
      | (.error error, between) => (.error error, between) := by
    change ExceptT.bindCont next (check.run log).1 (check.run log).2 = _
    rcases check.run log with ⟨_ | _, _⟩ <;> rfl
  rw [hbind] at h
  rcases hcheck : check.run log with ⟨error | value, between⟩
  · rw [hcheck] at h
    cases h
  · rw [hcheck] at h
    exact ⟨value, between, rfl, h⟩

/-- A fact about the first result is at hand where the last one is given. -/
theorem bind (h : Yields check mid)
    (hnext : ∀ value, Yields (next value) fun result => mid value → post result) :
    Yields (check >>= next) post := by
  intro log result after hrun hclean
  obtain ⟨value, between, hvalue, hresult⟩ := run_bind_eq_ok hrun
  obtain ⟨hbetween, hpost⟩ := hnext value between result after hresult hclean
  obtain ⟨hlog, hmid⟩ := h log value between hvalue hbetween
  exact ⟨hlog, hpost hmid⟩

theorem mono {post : α → Prop} (h : Yields check mid) (himp : ∀ value, mid value → post value) :
    Yields check post := by
  intro log value after hrun hclean
  obtain ⟨hlog, hmid⟩ := h log value after hrun hclean
  exact ⟨hlog, himp value hmid⟩

theorem pure {value : α} {post : α → Prop} (h : post value) :
    Yields (Pure.pure value) post := by
  intro log result after hrun hclean
  cases hrun
  exact ⟨hclean, h⟩

theorem and {first second : α → Prop} (hfirst : Yields check first)
    (hsecond : Yields check second) :
    Yields check fun value => first value ∧ second value := by
  intro log value after hrun hclean
  obtain ⟨hlog, hvalue⟩ := hfirst log value after hrun hclean
  exact ⟨hlog, hvalue, (hsecond log value after hrun hclean).2⟩

theorem throw (error : Error) (post : α → Prop) : Yields (MonadExcept.throw error) post := by
  intro log result after hrun
  cases hrun

theorem map {f : α → β} (h : Yields check mid) (hpost : ∀ value, mid value → post (f value)) :
    Yields (f <$> check) post := by
  rw [map_eq_pure_bind]
  exact bind h fun value => pure (hpost value)

theorem run_report {severity : Severity} {finding : Finding} {log after : Log} {result : Unit}
    (h : (report severity finding).run log = (.ok result, after)) :
    after.diagnostics = log.diagnostics ++ [⟨severity, finding⟩] := by
  obtain ⟨_, written, hwritten, h⟩ := run_bind_eq_ok h
  obtain ⟨_, read, hread, h⟩ := run_bind_eq_ok h
  cases hwritten
  cases hread
  dsimp only at h
  split at h
  · cases h
  · cases h
    rfl

theorem error (finding : Finding) : Yields (Check.error finding) fun _ => False := by
  intro log result after hrun hclean
  have hlast := hclean ⟨.error, finding⟩ (by rw [run_report hrun]; simp)
  exact absurd rfl hlast

theorem warning (finding : Finding) : Yields (Check.warning finding) fun _ => True := by
  intro log result after hrun hclean
  refine ⟨fun diagnostic hmem => hclean diagnostic ?_, trivial⟩
  rw [run_report hrun]
  exact List.mem_append_left _ hmem

theorem run_checkpoint {log after : Log} {result : Unit}
    (h : Check.checkpoint.run log = (.ok result, after)) : after = log ∧ log.Clean := by
  obtain ⟨_, read, hread, h⟩ := run_bind_eq_ok h
  cases hread
  split at h
  · cases h
  · next hfatal =>
    cases h
    refine ⟨rfl, fun diagnostic hmem herror => hfatal ?_⟩
    exact List.any_eq_true.mpr ⟨diagnostic, hmem, by rw [herror]; rfl⟩

/-- What is reported as an error does not hold in front of a clean log. -/
theorem refuse {c : Prop} [Decidable c] {finding : Finding} {rest : Check β}
    (h : Yields rest fun result => ¬ c → post result) :
    Yields (if c then Check.error finding >>= fun _ => rest else rest) post := by
  split
  · exact bind (error finding) fun _ => h.mono fun _ _ hfalse => hfalse.elim
  · next hc => exact h.mono fun _ hpost => hpost hc

theorem guard {c : Prop} [Decidable c] {finding : Finding} {rest : Check β} (h : Yields rest post) :
    Yields (if c then Check.error finding >>= fun _ => rest else rest) post :=
  refuse (h.mono fun _ hpost _ => hpost)

theorem warn {c : Prop} [Decidable c] {finding : Finding} {rest : Check β} (h : Yields rest post) :
    Yields (if c then Check.warning finding >>= fun _ => rest else rest) post := by
  split
  · exact bind (warning finding) fun _ => h.mono fun _ hpost _ => hpost
  · exact h

theorem foldlM {step : β → α → Check β} {inv : β → Prop} {items : List α}
    (hstep : ∀ item ∈ items, ∀ acc, Yields (step acc item) fun next => inv acc → inv next)
    (init : β) : Yields (items.foldlM step init) fun result => inv init → inv result := by
  induction items generalizing init with
  | nil => exact pure id
  | cons item rest ih =>
    rw [List.foldlM_cons]
    refine bind (hstep item List.mem_cons_self init) fun acc => ?_
    refine (ih (fun other hother => hstep other (List.mem_cons_of_mem _ hother)) acc).mono ?_
    intro result hresult hacc hinit
    exact hresult (hacc hinit)

theorem foldlM_range {step : β → Nat → Check β} (inv : Nat → β → Prop) {count : Nat}
    (hstep : ∀ index < count, ∀ acc,
      Yields (step acc index) fun next => inv index acc → inv (index + 1) next)
    (init : β) : Yields ((List.range count).foldlM step init) fun result =>
      inv 0 init → inv count result := by
  induction count with
  | zero => exact pure id
  | succ count ih =>
    rw [List.range_succ, List.foldlM_append]
    refine bind (ih fun index hindex => hstep index (Nat.lt_succ_of_lt hindex)) fun acc => ?_
    rw [List.foldlM_cons]
    refine bind (hstep count (Nat.lt_succ_self count) acc) fun next => pure ?_
    exact fun hnext hacc hinit => hnext (hacc hinit)

end Yields

theorem yields_name (text : String) : Yields (name text) fun _ => Text.isName text = true := by
  unfold name
  split
  · next h => exact .pure h
  · exact (Yields.error _).mono fun _ h => h.elim

end Check

namespace Xml.Element
open Check (Yields)
variable (element : Element) (key : String)

theorem attribute?_ne_empty : element.attribute? key ≠ some "" := by
  intro h
  obtain ⟨pair, -, h⟩ := Option.bind_eq_some_iff.mp h
  unfold Text.trimmed? at h
  split at h
  · cases h
  · next chars hchars =>
    refine hchars ?_
    simpa using congrArg String.toList (Option.some.inj h)

theorem yields_required : Yields (element.required key) fun value =>
    element.attribute? key = some value := by
  unfold required
  split
  · next h => exact .pure h
  · exact .throw _ _

theorem yields_word (default : Int32) : Yields (element.word key default) fun _ => True := by
  unfold word
  split
  · exact .pure trivial
  · split
    · exact .pure trivial
    · exact .throw _ _

theorem yields_word? : Yields (element.word? key) fun _ => True := by
  unfold word?
  split
  · exact .pure trivial
  · exact .map (element.yields_word key 0) fun _ _ => trivial

theorem yields_requiredWord : Yields (element.requiredWord key) fun _ => True := by
  unfold requiredWord
  refine .bind (element.yields_required key) fun _ => ?_
  exact (element.yields_word key 0).mono fun _ _ _ => trivial

theorem yields_flag (default : Bool) : Yields (element.flag key default) fun _ => True := by
  unfold flag
  split
  · exact .pure trivial
  · exact .pure trivial
  · exact .pure trivial
  · exact .throw _ _

theorem yields_presence? : Yields element.presence? fun _ => True := by
  unfold presence?
  split
  · exact .pure trivial
  · split
    · exact .pure trivial
    · exact .throw _ _

end Xml.Element
end SimpleBinary
