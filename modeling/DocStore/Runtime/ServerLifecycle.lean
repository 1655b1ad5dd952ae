import DocStore.Domain.Host
import DocStore.Foundation.Brackets
import DocStore.Foundation.Transition

/-!
# The lifecycle of the server

`ServerManager` starts its dependencies in the order in which they are declared, assembles the
application, and stops the dependencies in reverse. When a dependency or the assembler raises, what
was started before is stopped again; when a dependency raises on being stopped, the others are
stopped all the same. What they answer may depend on everything they were asked before: it comes with
the surroundings, as a function of the log.

Whatever they answer, the manager is never left halfway (`BetweenCalls`): between two calls it is
stopped, with nothing running, or started, with everything running, and every start that succeeded
is undone by exactly one stop, the last one first.
-/

set_option autoImplicit false
set_option relaxedAutoImplicit false

namespace DocStore

open Foundation

/-! ### The inputs -/

/-- `ServerState`. -/
inductive ServerState where
  | stopped
  | starting
  | started
  | stopping
deriving DecidableEq, Repr

/-- The value of a state. -/
def ServerState.value : ServerState → String
  | stopped => "stopped"
  | starting => "starting"
  | started => "started"
  | stopping => "stopping"

/-- `ServerConfig`, with the keys of its adapter configuration. -/
structure ServerConfig where
  applicationName : Text
  version : Text
  adapterKeys : List Text

/-- The errors of the manager: those of the inputs and of the command registry, calls in a state that
does not allow them, and what remains of failures of the dependencies. -/
inductive LifecycleError (ε : Type) where
  | configuration (message : String)
  | registry (diagnostics : List Text)
  | state (message : String)
  | startup (dependencyName : Text) (cause : ε) (rollbackErrors : List ε)
  | shutdown (errors : List ε)

/-- `ServerConfig.validate`. -/
def ServerConfig.validate {ε : Type} (config : ServerConfig) : Except (LifecycleError ε) Unit := do
  raiseIf (strip config.applicationName).isEmpty
    (.configuration "application_name must be a non-empty string")
  raiseIf (strip config.version).isEmpty (.configuration "version must be a non-empty string")
  raiseIf (config.adapterKeys.any fun key ↦ (strip key).isEmpty)
    (.configuration "adapter_config keys must be non-empty strings")

/-- The loop over the names of the dependencies, with the names seen before. -/
def validateNames {ε : Type} : List Text → List Text → Except (LifecycleError ε) Unit
  | _, [] => .ok ()
  | seen, name :: names =>
    if (strip name).isEmpty then .error (.configuration "dependency names must be non-empty strings")
    else if name ∈ seen then
      .error (.configuration ("duplicate dependency name: '" ++ String.ofList name ++ "'"))
    else validateNames (name :: seen) names

/-- `_validate_inputs`. -/
def validateInputs {ε : Type} (config : ServerConfig) (dependencies : List Text) :
    Except (LifecycleError ε) Unit := do
  config.validate
  validateNames [] dependencies

/-- `ServerManager`, with the names of its dependencies. It is made from inputs that are valid. -/
structure ServerManager (ε : Type) where
  config : ServerConfig
  dependencies : List Text
  valid : validateInputs (ε := ε) config dependencies = .ok ()

/-! ### Starting and stopping -/

/-- A call of a dependency or of the assembler, and what it raised. -/
inductive LifecycleEvent (ε : Type) where
  | start (name : Text) (raised : Option ε)
  | assemble (raised : Option ε)
  | stop (name : Text) (raised : Option ε)

/-- What is called from outside the manager: the dependencies, the assembler, which may return
nothing, and the comparison of the command views. -/
structure LifecycleSurroundings (ε α : Type) where
  start : List (LifecycleEvent ε) → Text → Option ε
  stop : List (LifecycleEvent ε) → Text → Option ε
  assemble : List (LifecycleEvent ε) → Except ε (Option α)
  registryDiagnostics : List (LifecycleEvent ε) → List Text
  /-- `RuntimeError("application assembler returned None")`. -/
  noApplication : ε

/-- The attributes of a manager that change, and the log of the calls it made. -/
structure ManagerState (ε α : Type) where
  state : ServerState := .stopped
  application : Option α := none
  log : List (LifecycleEvent ε) := []

section Manager

variable {ε α : Type} (surroundings : LifecycleSurroundings ε α)

/-- The loop that starts the dependencies: the log, what was started, and the dependency that raised,
with what it raised. -/
def startDependencies : List (LifecycleEvent ε) → List Text →
    List (LifecycleEvent ε) × List Text × Option (Text × ε)
  | log, [] => (log, [], none)
  | log, name :: names =>
    match surroundings.start log name with
    | some error => (log ++ [.start name (some error)], [], some (name, error))
    | none =>
      let (final, started, failure) := startDependencies (log ++ [.start name none]) names
      (final, name :: started, failure)

/-- The loop of `_stop_dependencies` over the dependencies in reverse: the log and what was
raised. -/
def stopReversed : List (LifecycleEvent ε) → List Text → List (LifecycleEvent ε) × List ε
  | log, [] => (log, [])
  | log, name :: names =>
    let raised := surroundings.stop log name
    let (final, errors) := stopReversed (log ++ [.stop name raised]) names
    (final, raised.toList ++ errors)

/-- `_stop_dependencies`. -/
def stopDependencies (log : List (LifecycleEvent ε)) (dependencies : List Text) :
    List (LifecycleEvent ε) × List ε :=
  stopReversed surroundings log dependencies.reverse

/-- What the assembler raises, and a missing application as an error. -/
def assembled (log : List (LifecycleEvent ε)) : Except ε α :=
  match surroundings.assemble log with
  | .error error => .error error
  | .ok (some application) => .ok application
  | .ok none => .error surroundings.noApplication

variable (manager : ServerManager ε)

/-- The end of a start that failed: what was started is stopped again. -/
def rollBack (log : List (LifecycleEvent ε)) (started : List Text) (currentName : Text) (error : ε) :
    Except (LifecycleError ε) α × ManagerState ε α :=
  let (final, rollbackErrors) := stopDependencies surroundings log started
  (.error (.startup currentName error rollbackErrors), { log := final })

/-- `start`. -/
def ServerManager.start (current : ManagerState ε α) :
    Except (LifecycleError ε) α × ManagerState ε α :=
  let diagnostics := surroundings.registryDiagnostics current.log
  if !diagnostics.isEmpty then
    (.error (.registry (diagnostics.insertionSort fun first second ↦ first ≤ second)), current)
  else if current.state ≠ .stopped then
    (.error (.state ("cannot start while state is '" ++ current.state.value ++ "'")), current)
  else
    match startDependencies surroundings current.log manager.dependencies with
    | (log, started, some (currentName, error)) =>
      rollBack surroundings log started currentName error
    | (log, started, none) =>
      match assembled surroundings log with
      | .error error =>
        -- the name is still the one that the loop assigned last
        rollBack surroundings (log ++ [.assemble (some error)]) started
          (manager.dependencies.getLast?.getD (lit "application assembler")) error
      | .ok application =>
        (.ok application,
          { state := .started, application := some application, log := log ++ [.assemble none] })

/-- `shutdown`. -/
def ServerManager.shutdown (current : ManagerState ε α) :
    Except (LifecycleError ε) Unit × ManagerState ε α :=
  match current.state with
  | .stopped => (.ok (), current)
  | .started =>
    let (log, errors) := stopDependencies surroundings current.log manager.dependencies
    (if errors.isEmpty then .ok () else .error (.shutdown errors), { log })
  | state =>
    (.error (.state ("cannot shut down while state is '" ++ state.value ++ "'")), current)

/-- The two calls of a manager. -/
inductive LifecycleCall where
  | start
  | shutdown
deriving DecidableEq, Repr

/-- What a call leaves. -/
def ServerManager.call (current : ManagerState ε α) : LifecycleCall → ManagerState ε α
  | .start => (manager.start surroundings current).2
  | .shutdown => (manager.shutdown surroundings current).2

end Manager

/-! ### What the calls log -/

/-- What an event opens or closes. A start that raises opens nothing, and a stop closes whether it
raises or not. -/
def LifecycleEvent.bracket {ε : Type} : LifecycleEvent ε → Option (Bracket Text)
  | .start name none => some (.opened name)
  | .start _ (some _) => none
  | .assemble _ => none
  | .stop name _ => some (.closed name)

/-- The openings and closings of a log. -/
def brackets {ε : Type} (log : List (LifecycleEvent ε)) : List (Bracket Text) :=
  log.filterMap LifecycleEvent.bracket

section Logging

variable {ε α : Type} {surroundings : LifecycleSurroundings ε α}
  {log : List (LifecycleEvent ε)} {names : List Text}

@[simp] theorem brackets_append (first second : List (LifecycleEvent ε)) :
    brackets (first ++ second) = brackets first ++ brackets second :=
  List.filterMap_append

/-- What a stop raised. -/
def LifecycleEvent.stopError : LifecycleEvent ε → Option ε
  | .stop _ raised => raised
  | _ => none

/-- Stops of some dependencies in a row. -/
structure StopsOf (names : List Text) (stops : List (LifecycleEvent ε)) (errors : List ε) : Prop where
  names : List.Forall₂ (fun event name ↦ ∃ raised, event = .stop name raised) stops names
  errors : errors = stops.filterMap LifecycleEvent.stopError

/-- Every dependency is stopped, and everything raised is kept. -/
theorem exists_stopReversed (log : List (LifecycleEvent ε)) (names : List Text) :
    ∃ stops, (stopReversed surroundings log names).1 = log ++ stops ∧
      StopsOf names stops (stopReversed surroundings log names).2 := by
  induction names generalizing log with
  | nil => exact ⟨[], (List.append_nil log).symm, .nil, rfl⟩
  | cons name names ih =>
    obtain ⟨stops, hlog, hstops⟩ := ih (log ++ [.stop name (surroundings.stop log name)])
    refine ⟨.stop name (surroundings.stop log name) :: stops, ?_, .cons ⟨_, rfl⟩ hstops.names, ?_⟩
    · rw [stopReversed, hlog, List.append_assoc]
      rfl
    · change (surroundings.stop log name).toList ++ _ = _
      rw [hstops.errors, List.filterMap_cons]
      cases hraised : surroundings.stop log name <;> simp [LifecycleEvent.stopError]

theorem StopsOf.brackets_eq {stops : List (LifecycleEvent ε)} {errors : List ε}
    (hstops : StopsOf names stops errors) : brackets stops = names.map .closed := by
  obtain ⟨hnames, -⟩ := hstops
  induction hnames with
  | nil => rfl
  | cons hevent _ ih =>
    obtain ⟨raised, rfl⟩ := hevent
    rw [List.map_cons, ← ih]
    rfl

/-- The dependencies are started up to the first that raises. -/
theorem exists_startDependencies (log : List (LifecycleEvent ε)) (names : List Text) :
    (startDependencies surroundings log names =
        (log ++ names.map (.start · none), names, none)) ∨
      ∃ started name rest error, names = started ++ name :: rest ∧
        startDependencies surroundings log names =
          (log ++ started.map (.start · none) ++ [.start name (some error)], started,
            some (name, error)) := by
  induction names generalizing log with
  | nil => exact .inl (by rw [startDependencies, List.map_nil, List.append_nil])
  | cons name names ih =>
    rw [startDependencies]
    cases hstart : surroundings.start log name with
    | some error => exact .inr ⟨[], name, names, error, rfl, by simp⟩
    | none =>
      rcases ih (log ++ [.start name none]) with hall | ⟨started, failing, rest, error, rfl, hfail⟩
      · left
        simp [hall]
      · right
        exact ⟨name :: started, failing, rest, error, rfl, by simp [hfail]⟩

theorem brackets_map_start (names : List Text) :
    brackets (names.map (LifecycleEvent.start (ε := ε) · none)) = names.map .opened := by
  rw [brackets, List.filterMap_map, ← List.filterMap_eq_map]
  rfl

end Logging

/-! ### What holds between two calls -/

/-- Distinct names are what the loop over them accepts. -/
theorem nodup_of_validateNames {ε : Type} {seen names : List Text}
    (hvalid : validateNames (ε := ε) seen names = .ok ()) :
    names.Nodup ∧ ∀ name ∈ names, name ∉ seen := by
  induction names generalizing seen with
  | nil => exact ⟨List.nodup_nil, by simp⟩
  | cons name names ih =>
    change (if (strip name).isEmpty then _ else if name ∈ seen then _ else
      validateNames (name :: seen) names) = _ at hvalid
    split at hvalid
    · cases hvalid
    split at hvalid
    next => cases hvalid
    next hfresh =>
      obtain ⟨hnodup, hunseen⟩ := ih hvalid
      have hother : name ∉ names := fun hmem ↦ hunseen name hmem List.mem_cons_self
      refine ⟨List.nodup_cons.mpr ⟨hother, hnodup⟩, List.forall_mem_cons.mpr ⟨hfresh, ?_⟩⟩
      exact fun other hmem hseen ↦ hunseen other hmem (List.mem_cons_of_mem _ hseen)

section Runs

variable {ε α : Type} {surroundings : LifecycleSurroundings ε α} {manager : ServerManager ε}
  {current : ManagerState ε α}

theorem ServerManager.nodup (manager : ServerManager ε) : manager.dependencies.Nodup :=
  (nodup_of_validateNames (bind_eq_ok.mp manager.valid).choose_spec.2).1

/-- What runs in a state, the last one started first. -/
def ServerManager.running (manager : ServerManager ε) : ServerState → List Text
  | .started => manager.dependencies.reverse
  | _ => []

/-- What holds of a manager between two calls. -/
structure BetweenCalls (manager : ServerManager ε) (current : ManagerState ε α) : Prop where
  quiet : current.state = .stopped ∨ current.state = .started
  application : current.application.isSome = true ↔ current.state = .started
  nested : Nests [] (brackets current.log) (manager.running current.state)

theorem betweenCalls_initial : BetweenCalls manager ({} : ManagerState ε α) :=
  ⟨.inl rfl, by simp, .done []⟩

/-- What was started is on the stack, and stopping it leaves nothing. -/
theorem nests_stopDependencies {log : List (LifecycleEvent ε)} {names : List Text}
    (hlog : Nests [] (brackets log) names.reverse) :
    Nests [] (brackets (stopDependencies surroundings log names).1) [] := by
  obtain ⟨stops, hstopped, hstops⟩ := @exists_stopReversed ε α surroundings log names.reverse
  rw [stopDependencies, hstopped, brackets_append, hstops.brackets_eq]
  refine hlog.append ?_
  have hclosed := nests_map_closed names.reverse []
  rwa [List.append_nil] at hclosed

/-- Distinct dependencies can be started when nothing runs. -/
theorem nests_starts {log : List (LifecycleEvent ε)} {names : List Text}
    (hlog : Nests [] (brackets log) []) (hnodup : names.Nodup) :
    Nests [] (brackets (log ++ names.map (.start · none))) names.reverse := by
  rw [brackets_append, brackets_map_start]
  refine hlog.append ?_
  have hopened : Nests [] (names.map .opened) (names.reverse ++ []) :=
    nests_map_opened hnodup (by simp)
  rwa [List.append_nil] at hopened

/-- An event that neither opens nor closes anything. -/
theorem nests_append_silent {log : List (LifecycleEvent ε)} {event : LifecycleEvent ε}
    {stack : List Text} (hlog : Nests [] (brackets log) stack) (hsilent : event.bracket = none) :
    Nests [] (brackets (log ++ [event])) stack := by
  rw [brackets_append, brackets, brackets, List.filterMap_cons_none hsilent, List.filterMap_nil,
    List.append_nil]
  exact hlog

theorem betweenCalls_rollBack {log : List (LifecycleEvent ε)} {started : List Text}
    (hlog : Nests [] (brackets log) started.reverse) (currentName : Text) (error : ε) :
    BetweenCalls manager (rollBack surroundings log started currentName error).2 :=
  ⟨.inl rfl, by simp [rollBack], nests_stopDependencies hlog⟩

/-- A start settles. -/
theorem BetweenCalls.start (hbetween : BetweenCalls manager current) :
    BetweenCalls manager (manager.start surroundings current).2 := by
  rw [ServerManager.start]
  split
  · exact hbetween
  split
  · exact hbetween
  next hstopped =>
    have hlog : Nests [] (brackets current.log) [] := by
      have hnested := hbetween.nested
      rwa [not_not.mp hstopped] at hnested
    rcases @exists_startDependencies ε α surroundings current.log manager.dependencies with
      hall | ⟨started, name, rest, error, hnames, hfail⟩
    · have hstarts := nests_starts hlog manager.nodup
      rw [hall]
      dsimp only
      split
      · exact betweenCalls_rollBack (nests_append_silent hstarts rfl) _ _
      · exact ⟨.inr rfl, by simp, nests_append_silent hstarts rfl⟩
    · have hnodup : started.Nodup := by
        have hall := manager.nodup
        rw [hnames] at hall
        exact (List.nodup_append.mp hall).1
      rw [hfail]
      exact betweenCalls_rollBack (nests_append_silent (nests_starts hlog hnodup) rfl) _ _

/-- A shutdown settles. -/
theorem BetweenCalls.shutdown (hbetween : BetweenCalls manager current) :
    BetweenCalls manager (manager.shutdown surroundings current).2 := by
  rw [ServerManager.shutdown]
  split
  · exact hbetween
  next hstarted =>
    have hnested := hbetween.nested
    rw [hstarted] at hnested
    exact ⟨.inl rfl, by simp, nests_stopDependencies hnested⟩
  · exact hbetween

/-- **The manager is never left halfway.** After every run of calls, whatever the dependencies and
the assembler answered, the manager is stopped with nothing running, or started with everything
running and an application; it never started what was running and always stopped what it had started
last; and it stopped every dependency as often as it had started it, except for those that run. -/
theorem ServerManager.betweenCalls_of_run (manager : ServerManager ε)
    (surroundings : LifecycleSurroundings ε α) (calls : List LifecycleCall) :
    let final := calls.foldl (manager.call surroundings) {}
    BetweenCalls manager final ∧ ∀ name,
      (brackets final.log).count (.opened name) = (brackets final.log).count (.closed name) +
        if final.state = .started ∧ name ∈ manager.dependencies then 1 else 0 := by
  have hbetween : BetweenCalls manager (calls.foldl (manager.call surroundings) {}) := by
    refine List.foldlRecOn calls _ betweenCalls_initial fun current hcurrent call _ ↦ ?_
    cases call with
    | start => exact hcurrent.start
    | shutdown => exact hcurrent.shutdown
  refine ⟨hbetween, fun name ↦ ?_⟩
  rw [hbetween.nested.count_opened_eq name]
  rcases hbetween.quiet with hstate | hstate <;> simp [hstate, ServerManager.running]

/-! ### A startup that fails -/

/-- What failed: a dependency that raised, or the assembler once all of them were started. The
assembler goes by the name of the last dependency, and by its own when there is none. -/
inductive FailedBy (manager : ServerManager ε) (started : List Text) (cause : ε) :
    Text → LifecycleEvent ε → Prop
  | dependency {name : Text} (hnext : started ++ [name] <+: manager.dependencies) :
      FailedBy manager started cause name (.start name (some cause))
  | assembler (hall : started = manager.dependencies) :
      FailedBy manager started cause
        (manager.dependencies.getLast?.getD (lit "application assembler")) (.assemble (some cause))

/-- What a failed startup logs: the starts that succeeded, the failure, and a stop of everything that
was started, the last one first. -/
structure RolledBack (manager : ServerManager ε) (current final : ManagerState ε α) (name : Text)
    (cause : ε) (rollbackErrors : List ε) (started : List Text)
    (failure : LifecycleEvent ε) (stops : List (LifecycleEvent ε)) : Prop where
  stopped : final.state = .stopped
  application : final.application = none
  log : final.log = current.log ++ started.map (.start · none) ++ [failure] ++ stops
  failure : FailedBy manager started cause name failure
  stops : StopsOf started.reverse stops rollbackErrors

/-- The end of a start that failed logs the stops. -/
theorem exists_rollBack {log : List (LifecycleEvent ε)} {started : List Text} {currentName : Text}
    {error : ε} {cause : ε} {name : Text} {rollbackErrors : List ε}
    (hraised : (rollBack (α := α) surroundings log started currentName error).1 =
      .error (.startup name cause rollbackErrors)) :
    name = currentName ∧ cause = error ∧
      ∃ stops, (rollBack surroundings log started currentName error).2.log = log ++ stops ∧
        StopsOf started.reverse stops rollbackErrors := by
  obtain ⟨stops, hlog, hstops⟩ := @exists_stopReversed ε α surroundings log started.reverse
  cases hraised
  exact ⟨rfl, rfl, stops, hlog, hstops⟩

/-- **A startup that fails is rolled back.** When `start` reports a failed startup, the dependencies
in front of the failure were started in their order, and every one of them and nothing else is
stopped again, in reverse, whatever the stops raise; the report holds what they raised. -/
theorem ServerManager.rolledBack_of_startup {name : Text} {cause : ε} {rollbackErrors : List ε}
    (hraised : (manager.start surroundings current).1 =
      .error (.startup name cause rollbackErrors)) :
    ∃ started failure stops, RolledBack manager current (manager.start surroundings current).2 name
      cause rollbackErrors started failure stops := by
  rw [ServerManager.start] at hraised ⊢
  split
  next hdrift =>
    rw [if_pos hdrift] at hraised
    cases hraised
  next hsame =>
    rw [if_neg hsame] at hraised
    split
    next hrunning =>
      rw [if_pos hrunning] at hraised
      cases hraised
    next hstopped =>
      rw [if_neg hstopped] at hraised
      rcases @exists_startDependencies ε α surroundings current.log manager.dependencies with
        hall | ⟨started, failing, rest, error, hnames, hfail⟩
      · rw [hall] at hraised ⊢
        dsimp only at hraised ⊢
        split
        next error hassembled =>
          rw [hassembled] at hraised
          obtain ⟨rfl, rfl, stops, hlog, hstops⟩ := exists_rollBack hraised
          exact ⟨_, _, stops, rfl, rfl, hlog, .assembler rfl, hstops⟩
        next application hassembled =>
          rw [hassembled] at hraised
          cases hraised
      · rw [hfail] at hraised ⊢
        obtain ⟨rfl, rfl, stops, hlog, hstops⟩ := exists_rollBack hraised
        have hnext : started ++ [name] <+: manager.dependencies :=
          ⟨rest, by rw [hnames, List.append_assoc, List.singleton_append]⟩
        exact ⟨started, _, stops, rfl, rfl, hlog, .dependency hnext, hstops⟩

end Runs

/-- A manager of a database and a queue. -/
def queueManager : ServerManager Text where
  config := { applicationName := lit "doc-store", version := lit "1", adapterKeys := [] }
  dependencies := [lit "database", lit "queue"]
  valid := rfl

/-- The queue refuses to start. -/
def refusingQueue : LifecycleSurroundings Text Unit where
  start _ name := if name = lit "queue" then some (lit "refused") else none
  stop _ _ := none
  assemble _ := .ok (some ())
  registryDiagnostics _ := []
  noApplication := lit "application assembler returned None"

/-- The database is stopped when the queue refuses to start. -/
theorem rolledBack_of_refusingQueue : ∃ started failure stops,
    RolledBack queueManager {} (queueManager.start refusingQueue {}).2 (lit "queue") (lit "refused")
      [] started failure stops :=
  ServerManager.rolledBack_of_startup rfl

end DocStore
