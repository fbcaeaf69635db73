import SimpleBinary.Proofs.Walk.Course
import SimpleBinary.Proofs.Walk.Reports

/-! Walks over one buffer for every size. Where the bytes of a buffer follow from
its size, a walk either fails in all of these buffers, or it comes to one and
the same end in all that are large enough. -/
namespace SimpleBinary.Walk
variable {ε α β : Type}

/-- A result for every size of a buffer: none at any size, or one and the same
from some size on. -/
inductive Resolves (result : Nat → Except ε α) : Option α → Prop where
  | never : (∀ size, ∃ error, result size = .error error) → Resolves result none
  | settles {value : α} (least : Nat) :
      (∀ size, result size = .ok value ∨ size < least ∧ ∃ error, result size = .error error) →
      Resolves result (some value)

namespace Resolves
variable {result : Nat → Except ε α} {outcome : Option α}

theorem pure (value : α) : Resolves (fun _ => (.ok value : Except ε α)) (some value) :=
  .settles 0 fun _ => .inl rfl

theorem room (bound : Nat) {value : α} {error : Nat → ε} :
    Resolves (fun size => if bound ≤ size then .ok value else .error (error size))
      (some value) := by
  refine .settles bound fun size => ?_
  by_cases h : bound ≤ size
  · exact .inl (if_pos h)
  · exact .inr ⟨by omega, _, if_neg h⟩

theorem eq_some (h : Resolves result outcome) {size : Nat} {value : α}
    (hok : result size = .ok value) : outcome = some value := by
  cases h with
  | never h =>
    obtain ⟨error, herror⟩ := h size
    rw [herror] at hok
    cases hok
  | settles least h =>
    rcases h size with hvalue | ⟨-, error, herror⟩
    · cases hok.symm.trans hvalue
      rfl
    · rw [herror] at hok
      cases hok

theorem mapError {ε' : Type} (f : ε → ε') (h : Resolves result outcome) :
    Resolves (fun size => (result size).mapError f) outcome := by
  cases h with
  | never h =>
    refine .never fun size => ?_
    obtain ⟨error, herror⟩ := h size
    exact ⟨f error, by rw [herror]; rfl⟩
  | settles least h =>
    refine .settles least fun size => ?_
    rcases h size with hok | ⟨hshort, error, herror⟩
    · exact .inl (by rw [hok]; rfl)
    · exact .inr ⟨hshort, f error, by rw [herror]; rfl⟩

theorem bind {next : Nat → α → Except ε β} {last : α → Option β} (h : Resolves result outcome)
    (hnext : ∀ value, outcome = some value → Resolves (fun size => next size value) (last value)) :
    Resolves (fun size => result size >>= next size) (outcome.bind last) := by
  cases h with
  | never h =>
    refine .never fun size => ?_
    obtain ⟨error, herror⟩ := h size
    exact ⟨error, by rw [herror]; rfl⟩
  | @settles value least h =>
    rw [Option.bind_some]
    have hvalue := hnext value rfl
    generalize last value = final at hvalue
    cases hvalue with
    | never hnever =>
      refine .never fun size => ?_
      rcases h size with hok | ⟨-, error, herror⟩
      · obtain ⟨error, herror⟩ := hnever size
        exact ⟨error, by rw [hok]; exact herror⟩
      · exact ⟨error, by rw [herror]; rfl⟩
    | @settles other more hmore =>
      refine .settles (max least more) fun size => ?_
      rcases h size with hok | ⟨hshort, error, herror⟩
      · rcases hmore size with hlast | ⟨hless, error, herror⟩
        · exact .inl (by rw [hok]; exact hlast)
        · exact .inr ⟨by omega, error, by rw [hok]; exact herror⟩
      · exact .inr ⟨by omega, error, by rw [herror]; rfl⟩

theorem bind_some {next : Nat → α → Except ε β} {value : α} {last : Option β}
    (h : Resolves result (some value)) (hnext : Resolves (fun size => next size value) last) :
    Resolves (fun size => result size >>= next size) last := by
  have hlast : Resolves (fun size => result size >>= next size)
      (Option.bind (some value) fun _ => last) :=
    h.bind fun _ hvalue => Option.some.inj hvalue ▸ hnext
  exact hlast

/-- A result that is there under a condition, and what comes of it. -/
theorem bind_ite {next : Nat → α → Except ε β} {there : Bool} {value : α} {last : Option β}
    (h : Resolves result (if there then some value else none))
    (hnext : Resolves (fun size => next size value) last) :
    Resolves (fun size => result size >>= next size) (if there then last else none) := by
  cases there with
  | true => exact h.bind_some hnext
  | false =>
    have hnone : Resolves (fun size => result size >>= next size)
        (Option.bind none fun _ : α => last) :=
      h.bind fun _ hnone => absurd hnone (Option.not_mem_none _)
    exact hnone

theorem behind (bound : Nat) {error : Nat → ε} (h : Resolves result outcome) :
    Resolves (fun size => if size < bound then .error (error size) else result size) outcome := by
  cases h with
  | never h =>
    refine .never fun size => ?_
    by_cases hshort : size < bound
    · exact ⟨error size, if_pos hshort⟩
    · rw [if_neg hshort]
      exact h size
  | settles least h =>
    refine .settles (max least bound) fun size => ?_
    by_cases hshort : size < bound
    · exact .inr ⟨by omega, error size, if_pos hshort⟩
    · rw [if_neg hshort]
      rcases h size with hok | ⟨hless, herror⟩
      · exact .inl hok
      · exact .inr ⟨by omega, herror⟩

end Resolves

/-- A walk takes a course in a buffer of every size, and its outcome resolves. -/
def Completes (walk : Nat → ∀ σ : Type, Listener σ → Walking σ α) (outcome : Option α) : Prop :=
  ∃ course : Nat → Course α, (∀ size, Takes (walk size) (course size)) ∧
    Resolves (fun size => (course size).outcome) outcome

/-- A walk that comes to an end in every buffer from some size on, or in none. -/
def Ends (walk : Nat → ∀ σ : Type, Listener σ → Walking σ α) (ends : Bool) : Prop :=
  ∃ outcome, outcome.isSome = ends ∧ Completes walk outcome

theorem Course.outcome_andThen (course : Course α) (next : α → Course β) :
    (course.andThen next).outcome = course.outcome >>= fun value => (next value).outcome := by
  cases houtcome : course.outcome with
  | ok value => rw [andThen_ok houtcome]; rfl
  | error error => rw [andThen_error houtcome]; rfl

/-- A listener that refuses nothing has no part in how a walk ends. -/
theorem Willing.outcome_play {σ : Type} {listen : Listener σ} (h : Willing listen)
    (course : Course α) (state : σ) : ((course.play listen).run.run state).1 = course.outcome := by
  obtain ⟨notices, outcome⟩ := course
  induction notices generalizing state with
  | nil => rfl
  | cons notice others ih =>
    have hanswer := h notice state
    have hplay : (⟨notice :: others, outcome⟩ : Course α).play listen =
        (do listen notice; (⟨others, outcome⟩ : Course α).play listen) := by
      simp only [Course.play, List.forM_cons, bind_assoc]
    rw [hplay]
    simp only [ExceptT.run_bind, StateT.run_bind]
    rcases hrun : (listen notice).run.run state with ⟨answer, after⟩
    rw [hrun] at hanswer
    cases hanswer
    exact ih after

section
variable {f : Nat → ∀ σ : Type, Listener σ → Walking σ α}
  {g : α → Nat → ∀ σ : Type, Listener σ → Walking σ β} {outcome : Option α} {ends more : Bool}

theorem Completes.bind {last : Option β} (h : Completes f outcome)
    (hnext : ∀ value, outcome = some value → Completes (g value) last) :
    Completes (fun size σ listen => f size σ listen >>= fun value => g value size σ listen)
      (outcome.bind fun _ => last) := by
  obtain ⟨course, htakes, hresolves⟩ := h
  -- the course behind is that of the one value that can be met, if any
  obtain ⟨next, hnextTakes, hnextResolves⟩ : ∃ next : Nat → Course β,
      (∀ value, outcome = some value → ∀ size, Takes (g value size) (next size)) ∧
      ∀ value, outcome = some value → Resolves (fun size => (next size).outcome) last := by
    cases outcome with
    | none =>
      exact ⟨fun _ => ⟨[], .error .tooLarge⟩, fun _ hnone => absurd hnone (Option.not_mem_none _),
        fun _ hnone => absurd hnone (Option.not_mem_none _)⟩
    | some value =>
      obtain ⟨next, hnextTakes, hnextResolves⟩ := hnext value rfl
      exact ⟨next, fun _ hsome => Option.some.inj hsome ▸ hnextTakes, fun _ _ => hnextResolves⟩
  refine ⟨fun size => (course size).andThen fun _ => next size, fun size => ?_, ?_⟩
  · exact (htakes size).bind fun value hok => hnextTakes value (hresolves.eq_some hok) size
  · simp only [Course.outcome_andThen]
    exact hresolves.bind hnextResolves

theorem completes_certain {result : Nat → Except WalkFault α} (h : Resolves result outcome) :
    Completes (fun size _ _ => certain (result size)) outcome :=
  ⟨fun size => ⟨[], (result size).mapError .walk⟩, fun size => .certain (result size),
    h.mapError Error.walk⟩

namespace Ends

theorem congr {walk : Nat → ∀ σ : Type, Listener σ → Walking σ α}
    (heq : ∀ (size : Nat) (σ : Type) (listen : Listener σ), walk size σ listen = f size σ listen)
    (h : Ends f ends) : Ends walk ends := by
  obtain ⟨outcome, hends, course, htakes, hresolves⟩ := h
  exact ⟨outcome, hends, course, fun size => (htakes size).congr (heq size), hresolves⟩

theorem bind_completes (h : Completes f outcome)
    (hnext : ∀ value, outcome = some value → Ends (g value) more) :
    Ends (fun size σ listen => f size σ listen >>= fun value => g value size σ listen)
      (outcome.isSome && more) := by
  cases outcome with
  | none =>
    have hnone : Completes
        (fun size σ listen => f size σ listen >>= fun value => g value size σ listen)
        (Option.bind none fun _ : α => none) :=
      h.bind fun _ hnone => absurd hnone (Option.not_mem_none _)
    exact ⟨none, rfl, hnone⟩
  | some value =>
    obtain ⟨last, hlast, hvalue⟩ := hnext value rfl
    refine ⟨last, hlast.trans (Bool.true_and more).symm, h.bind fun other hother => ?_⟩
    cases hother
    exact hvalue

theorem bind (h : Ends f ends) (hnext : ∀ value, Ends (g value) more) :
    Ends (fun size σ listen => f size σ listen >>= fun value => g value size σ listen)
      (ends && more) := by
  obtain ⟨outcome, rfl, hfirst⟩ := h
  exact bind_completes hfirst fun value _ => hnext value

theorem certain_some {result : Nat → Except WalkFault α} {value : α}
    (h : Resolves result (some value)) (hnext : Ends (g value) more) :
    Ends (fun size σ listen => certain (result size) >>= fun value => g value size σ listen)
      more :=
  bind_completes (completes_certain h) fun _ hvalue => Option.some.inj hvalue ▸ hnext

theorem certain_ite {result : Nat → Except WalkFault α} {there : Bool} {value : α}
    (h : Resolves result (if there then some value else none)) (hnext : Ends (g value) more) :
    Ends (fun size σ listen => certain (result size) >>= fun value => g value size σ listen)
      (there && more) := by
  cases there with
  | true => exact certain_some h hnext
  | false =>
    exact bind_completes (completes_certain h) fun _ hnone => absurd hnone (Option.not_mem_none _)

theorem pure (value : α) : Ends (fun _ _ _ => Pure.pure value) true :=
  ⟨some value, rfl, fun _ => ⟨[], .ok value⟩, fun _ => .pure value, .pure value⟩

theorem tell (notice : Notice) : Ends (fun _ _ listen => listen notice) true :=
  ⟨some (), rfl, fun _ => ⟨[notice], .ok ()⟩, fun _ => .tell notice, .pure ()⟩

theorem tellThen (notice : Notice) (h : Ends f ends) :
    Ends (fun size σ listen => do listen notice; f size σ listen) ends :=
  bind (tell notice) fun _ => h

theorem thenTell (notice : Notice) {walk : Nat → ∀ σ : Type, Listener σ → Walking σ Unit}
    (h : Ends walk ends) :
    Ends (fun size σ listen => do walk size σ listen; listen notice) ends := by
  rw [← Bool.and_true ends]
  exact bind h fun _ => tell notice

theorem room (bound : Nat) (error : Nat → Error) (h : Ends f ends) :
    Ends (fun size σ listen => if size < bound then throw (error size) else f size σ listen)
      ends := by
  obtain ⟨outcome, hends, course, htakes, hresolves⟩ := h
  refine ⟨outcome, hends, fun size => ⟨if size < bound then [] else (course size).notices,
    if size < bound then .error (error size) else (course size).outcome⟩, fun size => ?_,
    hresolves.behind bound⟩
  by_cases hshort : size < bound
  · simp only [if_pos hshort]
    exact .throw (error size)
  · simp only [if_neg hshort]
    exact htakes size

/-- A walk that ends does so whoever listens, from one size on. -/
theorem run (h : Ends f true) :
    ∃ least, ∀ size, least ≤ size → ∀ {σ : Type} (listen : Listener σ), Willing listen → ∀ state,
      ∃ value, ((f size σ listen).run.run state).1 = .ok value := by
  obtain ⟨outcome, hends, course, htakes, hresolves⟩ := h
  cases hresolves with
  | never => cases hends
  | @settles value least h =>
    refine ⟨least, fun size hsize σ listen hwilling state => ⟨value, ?_⟩⟩
    rw [htakes size σ listen, hwilling.outcome_play]
    rcases h size with hok | ⟨hless, -⟩
    · exact hok
    · omega

theorem not_run (h : Ends f false) (size : Nat) {σ : Type} {listen : Listener σ}
    (hwilling : Willing listen) (state : σ) :
    ∃ error, ((f size σ listen).run.run state).1 = .error error := by
  obtain ⟨outcome, hends, course, htakes, hresolves⟩ := h
  cases hresolves with
  | settles => cases hends
  | never h =>
    obtain ⟨error, herror⟩ := h size
    refine ⟨error, ?_⟩
    rw [htakes size σ listen, hwilling.outcome_play]
    exact herror

end Ends
end
end SimpleBinary.Walk
