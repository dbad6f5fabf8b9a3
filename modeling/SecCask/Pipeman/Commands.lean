import SecCask.Pipeman.TrialManager

/-!
# SecCask.Pipeman.Commands

The two ends of a command: what `_build_venvs` appends to the queue for a library, and what the
coordinator is told when `_train_node_list` comes to it. Between them lies the way to the
component, so that a command is executed as it was set up exactly when it survives that way.
-/

namespace SecCask.Pipeman

open Net PosixPath Utf8 Worker

namespace TrialManager

open Effect

variable {σ C : Type} {m : Machine C} {call : CommitCall C}

theorem buildVenv_eq_ok {options : EnvOptions} {inputPath : InputPath} {i : ℕ}
    {node node' : TreeNode} {command : Command} {world world' : World σ C}
    (h : (buildVenv m call options inputPath i node).runFrom world =
      (.ok (node', command), world')) :
    ∃ library, m.library node.key = .ok library ∧
      command = commandOf m options inputPath i node.key library := by
  unfold buildVenv at h
  simp only [runFrom_bind_eq_ok_iff, runFrom_ofExcept_eq_ok_iff] at h
  obtain ⟨-, -, -, library, -, ⟨hlibrary, -⟩, -, -, -, -, -, -, _, _, -, h⟩ := h
  refine ⟨library, hlibrary, ?_⟩
  split at h
  · obtain ⟨hpair, -⟩ := runFrom_pure_eq_ok_iff.mp h
    cases hpair
    rfl
  · obtain ⟨-, _, -, h⟩ := runFrom_bind_eq_ok_iff.mp h
    obtain ⟨hpair, -⟩ := runFrom_pure_eq_ok_iff.mp h
    cases hpair
    rfl

theorem runFrom_step (hcall : ∀ n, call.faults n = none) (path : Option String)
    (world : World σ C) :
    (step call path).runFrom world = (.ok (), { world with clock := world.clock + 1 }) := by
  unfold step
  rw [runFrom_bind, runFrom_get]
  simp only [runFrom_bind, runFrom_modify, hcall]
  rfl

/-- Without a fault the library is set up. -/
theorem exists_buildVenv_eq_ok (hcall : ∀ n, call.faults n = none) (options : EnvOptions)
    (inputPath : InputPath) (i : ℕ) {node : TreeNode} {library : LibraryInfo}
    (hlibrary : m.library node.key = .ok library) (world : World σ C) :
    ∃ node' world', (buildVenv m call options inputPath i node).runFrom world =
      (.ok (node', commandOf m options inputPath i node.key library), world') := by
  unfold buildVenv
  simp only [runFrom_bind, runFrom_step hcall, hlibrary, runFrom_ofExcept, runFrom_get]
  split
  · exact ⟨_, _, rfl⟩
  · exact ⟨_, _, rfl⟩

/-- The coordinator has been told nothing new. -/
def SameCalls (world world' : World σ C) : Prop := world'.calls = world.calls

instance : Std.Refl (@SameCalls σ C) := ⟨fun _ => rfl⟩

instance : IsTrans (World σ C) SameCalls := ⟨fun _ _ _ h h' => h'.trans h⟩

theorem sameCalls_writeFolder (path : String) (content : C) (world : World σ C) :
    SameCalls world (world.writeFolder path content) := rfl

theorem sameCalls_step (path : Option String) :
    Within (@SameCalls σ C) (step call path) := by
  unfold step
  refine Within.bind Within.get fun world => ?_
  refine Within.bind (Within.modify fun _ => rfl) fun _ => ?_
  split
  · exact Within.pure _
  · split
    · exact Within.bind (Within.modify (sameCalls_writeFolder _ _)) fun _ => Within.throw _
    · exact Within.throw _

theorem sameCalls_runExecution (command : Command) (execution : Execution) :
    Within (@SameCalls σ C) (runExecution m call command execution) := by
  unfold runExecution
  refine Within.bind (sameCalls_step _) fun _ => Within.bind Within.get fun _ => ?_
  exact Within.modify (sameCalls_writeFolder _ _)

theorem calls_trainComponent {candidateIds : List String} {command : Command} {id : String}
    (hid : candidateIds[command.index]? = some id) (world : World σ C) :
    ((trainComponent m call candidateIds command).runFrom world).2.calls =
      world.calls ++ [.onNewComponent (componentInfo id command.wd
        (sentKey m) command.cmd)] := by
  unfold trainComponent
  rw [hid, runFrom_bind, runFrom_ofExcept]
  dsimp only
  rw [runFrom_bind, runFrom_modify]
  -- What follows the call leaves the list of calls as it is.
  refine (?_ : Within SameCalls _) _
  split
  · exact sameCalls_runExecution _ _
  · exact sameCalls_step _

/-- **Commands.** A component that `_build_venvs` has set up is executed as it was meant, with the
input path, the output path and the train script it was set up with, exactly when the parts of its
command do not disturb each other. -/
theorem command_delivered_iff {options : EnvOptions} {inputPath : InputPath} {i : ℕ}
    {node node' : TreeNode} {command : Command} {world world' : World σ C} {library : LibraryInfo}
    (hbuild : (buildVenv m call options inputPath i node).runFrom world =
      (.ok (node', command), world'))
    (hlibrary : m.library node.key = .ok library) {candidateIds : List String} {id : String}
    (hid : candidateIds[i]? = some id) (before : World σ C) (workerId : CxxString)
    (cwd : List (List Char)) :
    ∃ info, ((trainComponent m call candidateIds command).runFrom before).2.calls =
        before.calls ++ [.onNewComponent info] ∧
      (Delivered workerId cwd info (intended cwd id command.wd (sentKey m) library.trainScript
          inputPath.toString command.output) ↔
        Survives cwd id command.wd (sentKey m) library.trainScript
          (completeParams library.trainParams inputPath.toString command.output m.tempPath)
          inputPath.toString command.output) := by
  obtain ⟨library', hlibrary', rfl⟩ := buildVenv_eq_ok hbuild
  cases Except.ok.inj (hlibrary.symm.trans hlibrary')
  refine ⟨_, calls_trainComponent hid before, ?_⟩
  exact delivered_iff_survives (input_mem_completeParams ..) (output_mem_completeParams ..)

/-! ### Two commands -/

/-- The parameters hold a flag and a `%`, but in front of the entries that `_build_venvs`
makes. -/
def noteLibrary : LibraryInfo :=
  ⟨"train.py", ((∅ : OrderedDict String String).set "--epochs" "10").set "--note"
    "100% of --input"⟩

def noteMachine : Machine Unit where
  retrain := false
  dataset := fun _ => .error .keyError
  library := fun _ => .ok noteLibrary
  listed := fun _ content => content
  run := fun _ _ => ()
  runOther := fun _ _ => ()
  emptyFolder := ()
  hasResults := fun _ => true
  otherPath := fun _ => false
  elsewhere := fun _ => none
  tempPath := "/w/temp"
  componentKey := ""
  workerCwd := []

def scoreKey : MetaKey := ⟨"library", "score", ⟨"master", 0, 0⟩⟩

def scoreCall : CommitCall Unit where
  workspace :=
    { metaType := "workspace"
      name := "w"
      version := ⟨"master", 0, 0⟩
      pipeline := [scoreKey]
      outputs := none
      params := none
      paths := ⟨"/w", "venv", "temp", "output"⟩ }
  order := SetOrder.insertion
  candidateIds := fun _ => "c0"
  faults := fun _ => none

def startWorld : World Unit Unit := ⟨(), fun _ => none, [], 0⟩

def scoreOptions (outputDir : String) : EnvOptions := ⟨"/w", "/w/venv", "/w/temp", outputDir⟩

/-- The command for the library with the given output folder. -/
def scoreCommand (outputDir : String) : Command :=
  commandOf noteMachine (scoreOptions outputDir) (.folder "/w/output/clean/") 1 scoreKey noteLibrary

theorem exists_buildVenv_score (outputDir : String) :
    ∃ node' world', (buildVenv noteMachine scoreCall (scoreOptions outputDir)
        (.folder "/w/output/clean/") 1 (TreeNode.new scoreKey false)).runFrom startWorld =
      (.ok (node', scoreCommand outputDir), world') := by
  have hlibrary : noteMachine.library (TreeNode.new scoreKey false).key = .ok noteLibrary := rfl
  exact exists_buildVenv_eq_ok (show ∀ n, scoreCall.faults n = none from fun _ => rfl)
    (scoreOptions outputDir) _ 1 hlibrary startWorld

theorem scoreCommand_delivered :
    ∃ info, ((trainComponent noteMachine scoreCall ["c0", "c1"]
        (scoreCommand "/w/output")).runFrom startWorld).2.calls =
        startWorld.calls ++ [.onNewComponent info] ∧
      Delivered (lit "w0") [] info (intended [] "c1" (scoreCommand "/w/output").wd "NULL"
        "train.py" "/w/output/clean/" (scoreCommand "/w/output").output) := by
  have hpieces : commandPieces "train.py" (completeParams noteLibrary.trainParams
      "/w/output/clean/" (scoreCommand "/w/output").output "/w/temp") =
      ["train.py", "--epochs", "10", "--note", "100", "", "of", "--input", "--input",
        "/w/output/clean/", "--output", "/w/output/library::score::master.0.0/", "--vis",
        "/w/temp"] := by
    decide +kernel
  have houtput : (scoreCommand "/w/output").output = "/w/output/library::score::master.0.0/" := by
    decide +kernel
  obtain ⟨node', world', hbuild⟩ := exists_buildVenv_score "/w/output"
  obtain ⟨info, hcalls, hiff⟩ := command_delivered_iff hbuild rfl
    (show ["c0", "c1"][1]? = some "c1" from rfl) startWorld (lit "w0") []
  refine ⟨info, hcalls, hiff.mpr ?_⟩
  exact
    { id_uncut := ⟨by decide, by decide⟩
      wd_uncut := ⟨by decide +kernel, by decide +kernel⟩
      key_uncut := ⟨by decide, by decide⟩
      script := ⟨"train.py", congrArg List.head? hpieces, by decide +kernel⟩
      input := ⟨["train.py", "--epochs", "10", "--note", "100", "", "of", "--input"],
        ["--output", "/w/output/library::score::master.0.0/", "--vis", "/w/temp"], hpieces,
        by decide⟩
      output := ⟨["train.py", "--epochs", "10", "--note", "100", "", "of", "--input", "--input",
        "/w/output/clean/"], ["--vis", "/w/temp"], hpieces.trans (by rw [houtput]; rfl),
        by rw [houtput]; decide⟩
      short := by decide +kernel }

/-- What becomes of the command when there is a blank in the output folder. -/
def cutExecution : Execution where
  componentId := "c1"
  workingDirectory := (scoreCommand "/w/my output").wd
  encfsKey := none
  start :=
    { scriptPath := abspath [] "/w/venv/library::score::master.0.0/train.py".toList
      inputfolder := "/w/output/clean/"
      outputfolder := "/w/my" }

theorem spacedOutput_cut :
    ∃ node' world' info,
      (buildVenv noteMachine scoreCall (scoreOptions "/w/my output") (.folder "/w/output/clean/") 1
          (TreeNode.new scoreKey false)).runFrom startWorld =
        (.ok (node', scoreCommand "/w/my output"), world') ∧
      ((trainComponent noteMachine scoreCall ["c0", "c1"]
          (scoreCommand "/w/my output")).runFrom startWorld).2.calls =
        startWorld.calls ++ [.onNewComponent info] ∧
      Delivered (lit "w0") [] info cutExecution ∧
      cutExecution.start.outputfolder ≠ (scoreCommand "/w/my output").output := by
  obtain ⟨node', world', hbuild⟩ := exists_buildVenv_score "/w/my output"
  refine ⟨node', world', _, hbuild, calls_trainComponent rfl startWorld, ?_, by decide +kernel⟩
  have hid : Uncut "c1" := ⟨by decide, by decide⟩
  have hwd : Uncut (scoreCommand "/w/my output").wd := ⟨by decide +kernel, by decide +kernel⟩
  have hkey : Uncut "NULL" := ⟨by decide, by decide⟩
  refine ⟨_, doRead_frame_eq_iff.mpr ⟨by decide +kernel,
    makeFromString_componentInfo hid hwd hkey (scoreCommand "/w/my output").cmd⟩, ?_⟩
  rw [doActionFromMsg_execute _ _ rfl]
  refine congrArg Action.execute ((execute_map_lit _ _ _ _ _).trans ?_)
  have hpieces : (splitSpace (scoreCommand "/w/my output").cmd).flatMap (cut '%') =
      ["train.py", "--epochs", "10", "--note", "100", "", "of", "--input", "--input",
        "/w/output/clean/", "--output", "/w/my", "output/library::score::master.0.0/", "--vis",
        "/w/temp"] := by
    decide +kernel
  have hstart : executeComponent [] (scoreCommand "/w/my output").wd
      ("python" :: (splitSpace (scoreCommand "/w/my output").cmd).flatMap (cut '%')) =
        .ok cutExecution.start := by
    rw [hpieces]
    exact executeComponent_eq_ok_iff.mpr ⟨by decide, "train.py", rfl, by decide +kernel⟩
  rw [hstart]
  rfl

end TrialManager

end SecCask.Pipeman
