import JobChain.Execution

/-!
# Recorded runs

Surroundings can keep a record of all that a run asks of them, with the states
before and after. The run does not notice. What is known of the record of each
part is put together along the run.
-/

namespace JobChain

/-- What a run asks of its surroundings, and what they answer. -/
inductive Deed where
  | asked (path : Path) (there : Bool)
  | made (path : Path) (result : Except IoError Unit)
  | deleted (path : Path) (result : Except IoError Bool)
  | listed (pattern : String) (result : Except IoError (List Path))
  | ran (job : Job) (answer : Except Failure JobReport)
  | published (job : Job) (result : Except IoError Unit)
  | observed (run : JobRun)
  | told (line : LogLine)
  | clocked (time : Timestamp)

structure Event (σ : Type) where
  before : σ
  deed : Deed
  after : σ

variable {σ α β : Type}

/-! ## Keeping a record -/

def record (deed : α → Deed)
    (act : StateM σ α) : StateM (σ × List (Event σ)) α :=
  fun (state, events) =>
    let (answer, after) := act state
    (answer, after, events ++ [⟨state, deed answer, after⟩])

/-- The same surroundings, with a record behind their state. -/
def Surroundings.recorded (around : Surroundings σ) :
    Surroundings (σ × List (Event σ)) where
  isThere path := record (.asked path) (around.isThere path)
  makeDirectories path :=
    ExceptT.mk (record (.made path) (around.makeDirectories path).run)
  delete path := ExceptT.mk (record (.deleted path) (around.delete path).run)
  list pattern :=
    ExceptT.mk (record (.listed pattern) (around.list pattern).run)
  runJob job := ExceptT.mk (record (.ran job) (around.runJob job).run)
  publish job := ExceptT.mk (record (.published job) (around.publish job).run)
  observe run := record (fun _ => .observed run) (around.observe run)
  tell line := record (fun _ => .told line) (around.tell line)
  now := record .clocked around.now

section

variable (around : Surroundings σ)

theorem Surroundings.recorded_isThere (path : Path) :
    around.recorded.isThere path = record (.asked path) (around.isThere path) :=
  rfl

theorem Surroundings.run_recorded_makeDirectories (path : Path) :
    (around.recorded.makeDirectories path).run =
      record (.made path) (around.makeDirectories path).run := rfl

theorem Surroundings.run_recorded_delete (path : Path) :
    (around.recorded.delete path).run =
      record (.deleted path) (around.delete path).run := rfl

theorem Surroundings.run_recorded_list (pattern : String) :
    (around.recorded.list pattern).run =
      record (.listed pattern) (around.list pattern).run := rfl

theorem Surroundings.run_recorded_runJob (job : Job) :
    (around.recorded.runJob job).run =
      record (.ran job) (around.runJob job).run := rfl

theorem Surroundings.run_recorded_publish (job : Job) :
    (around.recorded.publish job).run =
      record (.published job) (around.publish job).run := rfl

theorem Surroundings.recorded_observe (run : JobRun) :
    around.recorded.observe run =
      record (fun _ => .observed run) (around.observe run) := rfl

theorem Surroundings.recorded_tell (line : LogLine) :
    around.recorded.tell line =
      record (fun _ => .told line) (around.tell line) := rfl

theorem Surroundings.recorded_now :
    around.recorded.now = record .clocked around.now := rfl

end

/-! ## What is known of a record -/

/-- From a state on the work does what the plain work does, and what it adds to
the record fits its answer and the state that it leaves. -/
def Recorded (state : σ) (work : StateM (σ × List (Event σ)) α)
    (plain : StateM σ α) (fits : α → σ → List (Event σ) → Prop) : Prop :=
  ∀ events, ∃ new,
    work (state, events) = ((plain state).1, (plain state).2, events ++ new) ∧
      fits (plain state).1 (plain state).2 new

namespace Recorded

variable {state : σ} {work : StateM (σ × List (Event σ)) α} {plain : StateM σ α}
  {next : α → StateM (σ × List (Event σ)) β} {plainNext : α → StateM σ β}
  {fits fits' : α → σ → List (Event σ) → Prop}
  {allFits : β → σ → List (Event σ) → Prop}

theorem mono (h : Recorded state work plain fits)
    (himp : ∀ answer after new, fits answer after new →
      fits' answer after new) :
    Recorded state work plain fits' := by
  intro events
  obtain ⟨new, hwork, hfits⟩ := h events
  exact ⟨new, hwork, himp _ _ _ hfits⟩

theorem and (h : Recorded state work plain fits)
    (h' : Recorded state work plain fits') :
    Recorded state work plain fun answer after new =>
      fits answer after new ∧ fits' answer after new := by
  intro events
  obtain ⟨new, hwork, hfits⟩ := h events
  obtain ⟨new', hwork', hfits'⟩ := h' events
  obtain rfl : new = new' := by
    have hrecords :=
      congrArg (fun result => result.2.2) (hwork.symm.trans hwork')
    simpa using hrecords
  exact ⟨new, hwork, hfits, hfits'⟩

theorem pure {answer : α} (h : fits answer state []) :
    Recorded state (pure answer) (pure answer) fits :=
  fun events => ⟨[], by rw [List.append_nil]; rfl, h⟩

theorem bind (h : Recorded state work plain fits)
    (hnext : ∀ answer between new, fits answer between new →
      Recorded between (next answer) (plainNext answer) fun result after new' =>
        allFits result after (new ++ new')) :
    Recorded state (work >>= next) (plain >>= plainNext) allFits := by
  intro events
  obtain ⟨new, hwork, hfits⟩ := h events
  obtain ⟨new', hnextWork, hall⟩ := hnext _ _ new hfits (events ++ new)
  refine ⟨new ++ new', ?_, hall⟩
  rw [← List.append_assoc]
  simp only [Bind.bind, StateT.bind, hwork, hnextWork]
  rfl

/-! ### Work that may fail -/

variable {ε : Type}

theorem run_bind {work : ExceptT ε (StateM (σ × List (Event σ))) α}
    {plain : ExceptT ε (StateM σ) α}
    {next : α → ExceptT ε (StateM (σ × List (Event σ))) β}
    {plainNext : α → ExceptT ε (StateM σ) β}
    {fits : Except ε α → σ → List (Event σ) → Prop}
    {allFits : Except ε β → σ → List (Event σ) → Prop}
    (h : Recorded state work.run plain.run fits)
    (herror : ∀ error after new, fits (.error error) after new →
      allFits (.error error) after new)
    (hok : ∀ answer between new, fits (.ok answer) between new →
      Recorded between (next answer).run
        (plainNext answer).run fun result after new' =>
        allFits result after (new ++ new')) :
    Recorded state (work >>= next).run (plain >>= plainNext).run allFits := by
  rw [ExceptT.run_bind, ExceptT.run_bind]
  refine h.bind fun result between new hfits => ?_
  cases result with
  | error error => exact .pure (by simpa using herror error between new hfits)
  | ok answer => exact hok answer between new hfits

end Recorded

theorem recorded_record {state : σ} (deed : α → Deed) (act : StateM σ α) :
    Recorded state (record deed act) act fun answer after new =>
      act state = (answer, after) ∧ new = [⟨state, deed answer, after⟩] :=
  fun _ => ⟨_, rfl, rfl, rfl⟩

theorem Recorded.record_bind {state : σ} {deed : α → Deed} {act : StateM σ α}
    {next : α → StateM (σ × List (Event σ)) β} {plainNext : α → StateM σ β}
    {allFits : β → σ → List (Event σ) → Prop}
    (hnext : ∀ answer after, act state = (answer, after) →
      Recorded after (next answer) (plainNext answer) fun result last new =>
        allFits result last (⟨state, deed answer, after⟩ :: new)) :
    Recorded state (record deed act >>= next) (act >>= plainNext) allFits := by
  refine (recorded_record deed act).bind ?_
  rintro answer after new ⟨hact, rfl⟩
  exact hnext answer after hact

namespace Recorded

variable {ε : Type} {state : σ}
  {next : α → ExceptT ε (StateM (σ × List (Event σ))) β}
  {plainNext : α → ExceptT ε (StateM σ) β}
  {allFits : Except ε β → σ → List (Event σ) → Prop}

theorem lift_record_bind {work : StateM (σ × List (Event σ)) α}
    {plain : StateM σ α} {deed : α → Deed} (hwork : work = record deed plain)
    (hnext : ∀ answer after, plain state = (answer, after) →
      Recorded after (next answer).run
        (plainNext answer).run fun result last new =>
        allFits result last (⟨state, deed answer, after⟩ :: new)) :
    Recorded state (liftM work >>= next).run (liftM plain >>=
      plainNext).run allFits := by
  subst hwork
  rw [ExceptT.run_bind, ExceptT.run_bind, ExceptT.run_liftM, ExceptT.run_liftM,
    bind_map_left, bind_map_left]
  exact .record_bind hnext

theorem run_record_bind {work : ExceptT ε (StateM (σ × List (Event σ))) α}
    {plain : ExceptT ε (StateM σ) α} {deed : Except ε α → Deed}
    (hwork : work.run = record deed plain.run)
    (herror : ∀ error after, plain.run state = (.error error, after) →
      allFits (.error error) after [⟨state, deed (.error error), after⟩])
    (hok : ∀ answer after, plain.run state = (.ok answer, after) →
      Recorded after (next answer).run
        (plainNext answer).run fun result last new =>
        allFits result last (⟨state, deed (.ok answer), after⟩ :: new)) :
    Recorded state (work >>= next).run (plain >>= plainNext).run allFits := by
  rw [ExceptT.run_bind, ExceptT.run_bind, hwork]
  refine .record_bind fun result after hresult => ?_
  cases result with
  | error error => exact .pure (herror error after hresult)
  | ok answer => exact hok answer after hresult

end Recorded

end JobChain
