import SimpleBinary.Walk.Message

/-! What a walk owes to its listener. A walk takes a course that no listener
has a part in: it tells its notices in order and comes to its end. A listener
can only end it sooner, by refusing a notice. -/
namespace SimpleBinary.Walk
variable {α β σ : Type}

/-- What a walk tells if nothing is refused, and how it ends then. -/
structure Course (α : Type) where
  notices : List Notice
  outcome : Except Error α

namespace Course

def play (listen : Listener σ) (course : Course α) : Walking σ α := do
  forM course.notices listen
  ExceptT.mk (pure course.outcome)

def andThen (course : Course α) (next : α → Course β) : Course β :=
  match course.outcome with
  | .ok value => ⟨course.notices ++ (next value).notices, (next value).outcome⟩
  | .error error => ⟨course.notices, .error error⟩

theorem andThen_ok {course : Course α} {next : α → Course β} {value : α}
    (h : course.outcome = .ok value) :
    course.andThen next = ⟨course.notices ++ (next value).notices, (next value).outcome⟩ := by
  rw [andThen, h]

theorem andThen_error {course : Course α} {next : α → Course β} {error : Error}
    (h : course.outcome = .error error) :
    course.andThen next = ⟨course.notices, .error error⟩ := by
  rw [andThen, h]

theorem play_andThen (listen : Listener σ) (course : Course α) (next : α → Course β) :
    (course.andThen next).play listen =
      (do let value ← course.play listen; (next value).play listen) := by
  cases houtcome : course.outcome with
  | ok value =>
    rw [andThen_ok houtcome, play, play, houtcome]
    simp only [List.forM_append, bind_assoc]
    rfl
  | error error =>
    rw [andThen_error houtcome, play, play, houtcome]
    simp only [bind_assoc]
    rfl

end Course

/-- A walk that is the same course, whoever listens. -/
def Takes (walk : ∀ σ : Type, Listener σ → Walking σ α) (course : Course α) : Prop :=
  ∀ (σ : Type) (listen : Listener σ), walk σ listen = course.play listen

namespace Takes

theorem congr {f g : ∀ σ : Type, Listener σ → Walking σ α} {course : Course α}
    (heq : ∀ (σ : Type) (listen : Listener σ), f σ listen = g σ listen) (h : Takes g course) :
    Takes f course :=
  fun σ listen => (heq σ listen).trans (h σ listen)

theorem pure (value : α) : Takes (fun _ _ => pure value) ⟨[], .ok value⟩ :=
  fun _ _ => rfl

theorem throw (error : Error) : Takes (fun _ _ => throw error) (⟨[], .error error⟩ : Course α) :=
  fun _ _ => rfl

theorem certain (result : Except WalkFault α) :
    Takes (fun _ _ => Walk.certain result) ⟨[], result.mapError .walk⟩ := by
  cases result with
  | ok value => exact pure value
  | error fault => exact throw (.walk fault)

theorem tell (notice : Notice) : Takes (fun _ listen => listen notice) ⟨[notice], .ok ()⟩ := by
  intro σ listen
  simp only [Course.play, List.forM_cons, List.forM_nil, bind_assoc, pure_bind]
  exact (bind_pure_unit).symm

theorem bind {f : ∀ σ : Type, Listener σ → Walking σ α}
    {g : α → ∀ σ : Type, Listener σ → Walking σ β} {course : Course α} {next : α → Course β}
    (h : Takes f course)
    (hnext : ∀ value, course.outcome = .ok value → Takes (g value) (next value)) :
    Takes (fun σ listen => f σ listen >>= fun value => g value σ listen) (course.andThen next) := by
  intro σ listen
  dsimp only
  rw [Course.play_andThen, h σ listen]
  cases houtcome : course.outcome with
  | ok value =>
    have hplay : course.play listen = forM course.notices listen >>= fun _ => Pure.pure value := by
      rw [Course.play, houtcome]
      rfl
    rw [hplay, bind_assoc, bind_assoc, pure_bind, pure_bind, hnext value houtcome σ listen]
  | error error =>
    have hplay : course.play listen =
        forM course.notices listen >>= fun _ => MonadExcept.throw error := by
      rw [Course.play, houtcome]
      rfl
    rw [hplay, bind_assoc, bind_assoc]
    rfl

end Takes

def recording (listen : Listener σ) : Listener (σ × List Notice) := fun notice =>
  ExceptT.mk fun kept =>
    let answer := (listen notice).run.run kept.1
    (answer.1, (answer.2, kept.2 ++ [notice]))

/-- Keeping what is told changes nothing for the listener, and what is kept is
the course, in full if the walk gets to its end. -/
theorem run_play_recording (listen : Listener σ) (course : Course α) (state : σ)
    (before : List Notice) :
    ∃ heard rest, course.notices = heard ++ rest ∧
      (course.play (recording listen)).run.run (state, before) =
        (((course.play listen).run.run state).1,
          ((course.play listen).run.run state).2, before ++ heard) ∧
      ∀ value, ((course.play listen).run.run state).1 = .ok value →
        rest = [] ∧ course.outcome = .ok value := by
  obtain ⟨notices, outcome⟩ := course
  induction notices generalizing state before with
  | nil =>
    refine ⟨[], [], rfl, ?_, fun value hvalue => ⟨rfl, hvalue⟩⟩
    rw [List.append_nil]
    rfl
  | cons notice others ih =>
    have hplay : ∀ {τ : Type} (listen : Listener τ),
        (⟨notice :: others, outcome⟩ : Course α).play listen =
          (do listen notice; (⟨others, outcome⟩ : Course α).play listen) := by
      intro τ listen
      simp only [Course.play, List.forM_cons, bind_assoc]
    rw [hplay, hplay]
    rcases hanswer : (listen notice).run.run state with ⟨answer, after⟩
    have hkept : (recording listen notice).run.run (state, before) =
        (answer, (after, before ++ [notice])) := by
      change (((listen notice).run.run state).1, _) = _
      rw [hanswer]
    simp only [ExceptT.run_bind, StateT.run_bind, hanswer, hkept]
    cases answer with
    | error error => exact ⟨[notice], others, rfl, rfl, nofun⟩
    | ok _ =>
      obtain ⟨heard, rest, hcourse, hrun, hend⟩ := ih after (before ++ [notice])
      refine ⟨notice :: heard, rest, congrArg (notice :: ·) hcourse, ?_, hend⟩
      rw [List.append_assoc] at hrun
      exact hrun

/-- What a course tells keeps a rule, or could be made to keep it by going on
where the course ends with an error. -/
def Course.Follows (course : Course α) (rule : List Notice → Prop) : Prop :=
  ∃ rest, rule (course.notices ++ rest) ∧ ∀ value, course.outcome = .ok value → rest = []

/-- Whoever listens, what a walk tells keeps a rule as far as it goes. -/
def Obeys (walk : ∀ σ : Type, Listener σ → Walking σ α) (rule : List Notice → Prop) : Prop :=
  ∃ course, Takes walk course ∧ course.Follows rule

namespace Obeys
variable {f : ∀ σ : Type, Listener σ → Walking σ α}
  {g : α → ∀ σ : Type, Listener σ → Walking σ β} {rule first second : List Notice → Prop}

theorem congr {f g : ∀ σ : Type, Listener σ → Walking σ α}
    (heq : ∀ (σ : Type) (listen : Listener σ), f σ listen = g σ listen) (h : Obeys g rule) :
    Obeys f rule := by
  obtain ⟨course, htakes, hfollows⟩ := h
  exact ⟨course, htakes.congr heq, hfollows⟩

theorem mono (h : Obeys f first) (himp : ∀ notices, first notices → rule notices) :
    Obeys f rule := by
  obtain ⟨course, htakes, rest, hrule, hend⟩ := h
  exact ⟨course, htakes, rest, himp _ hrule, hend⟩

theorem pure (value : α) (h : rule []) : Obeys (fun _ _ => pure value) rule :=
  ⟨_, .pure value, [], h, fun _ _ => rfl⟩

theorem throw (error : Error) (h : ∃ notices, rule notices) :
    Obeys (fun _ _ => (throw error : Walking _ α)) rule := by
  obtain ⟨notices, hrule⟩ := h
  exact ⟨_, .throw error, notices, hrule, nofun⟩

theorem tell (notice : Notice) : Obeys (fun _ listen => listen notice) (· = [notice]) :=
  ⟨_, .tell notice, [], List.append_nil _, fun _ _ => rfl⟩

theorem bind (h : Obeys f first) (hnext : ∀ value, Obeys (g value) second)
    (hsecond : ∃ notices, second notices)
    (hrule : ∀ a b, first a → second b → rule (a ++ b)) :
    Obeys (fun σ listen => f σ listen >>= fun value => g value σ listen) rule := by
  obtain ⟨course, htakes, rest, hfirst, hend⟩ := h
  obtain ⟨next, hnext⟩ := Classical.axiomOfChoice hnext
  refine ⟨course.andThen next, htakes.bind fun value _ => (hnext value).1, ?_⟩
  cases houtcome : course.outcome with
  | error error =>
    obtain ⟨notices, hnotices⟩ := hsecond
    refine ⟨rest ++ notices, ?_, ?_⟩
    · rw [Course.andThen_error houtcome, ← List.append_assoc]
      exact hrule _ _ hfirst hnotices
    · rw [Course.andThen_error houtcome]
      exact nofun
  | ok value =>
    obtain ⟨more, hmore, hlast⟩ := (hnext value).2
    refine ⟨more, ?_, ?_⟩
    · rw [hend value houtcome, List.append_nil] at hfirst
      rw [Course.andThen_ok houtcome, List.append_assoc]
      exact hrule _ _ hfirst hmore
    · rw [Course.andThen_ok houtcome]
      exact hlast

theorem append {a b : List Notice} (h : Obeys f (· = a))
    (hnext : ∀ value, Obeys (g value) (· = b)) :
    Obeys (fun σ listen => f σ listen >>= fun value => g value σ listen) (· = a ++ b) := by
  refine h.bind hnext ⟨b, rfl⟩ ?_
  rintro _ _ rfl rfl
  rfl

/-- A result that the walk goes on with, or ends at. -/
theorem certain {result : Except WalkFault α}
    (hnext : ∀ value, result = .ok value → Obeys (g value) rule)
    (h : ∃ notices, rule notices) :
    Obeys (fun σ listen => Walk.certain result >>= fun value => g value σ listen) rule := by
  cases result with
  | error fault => exact throw (.walk fault) h
  | ok value => exact (hnext value rfl).congr fun _ _ => pure_bind _ _

theorem tellThen {notice : Notice} {g : ∀ σ : Type, Listener σ → Walking σ β}
    (hnext : Obeys g second) (hsecond : ∃ notices, second notices)
    (hrule : ∀ notices, second notices → rule (notice :: notices)) :
    Obeys (fun σ listen => listen notice >>= fun _ => g σ listen) rule := by
  refine (tell notice).bind (fun _ => hnext) hsecond ?_
  rintro _ notices rfl hnotices
  exact hrule notices hnotices

/-- What is told in a run keeps the rule as far as it goes, and in full if the
run succeeds. -/
theorem run (h : Obeys f rule) (listen : Listener σ) (state : σ) :
    ∃ told rest, rule (told ++ rest) ∧
      (f _ (recording listen)).run.run (state, []) =
        (((f _ listen).run.run state).1, ((f _ listen).run.run state).2, told) ∧
      ∀ value, ((f _ listen).run.run state).1 = .ok value → rest = [] := by
  obtain ⟨course, htakes, more, hrule, hend⟩ := h
  obtain ⟨told, rest, hcourse, hrun, hvalue⟩ := run_play_recording listen course state []
  refine ⟨told, rest ++ more, ?_, ?_, ?_⟩
  · rw [← List.append_assoc, ← hcourse]
    exact hrule
  · rw [htakes, htakes]
    exact hrun
  · intro value hok
    rw [htakes] at hok
    obtain ⟨hrest, houtcome⟩ := hvalue value hok
    rw [hrest, hend value houtcome]
    rfl

end Obeys

end SimpleBinary.Walk
