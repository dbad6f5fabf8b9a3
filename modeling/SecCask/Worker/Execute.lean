import SecCask.Lib.Fallible
import SecCask.Lib.PosixPath
import SecCask.Lib.Utf8
import SecCask.Net.Message
import SecCask.Pipeman.WorkspaceMeta

/-!
# SecCask.Worker.Execute

What a worker does with a message: `Worker::DoActionFromMsg` (`worker.cc`) and, for an
`execute`, `execute_component` of `daemon/worker.py` up to the call of the component's code.
The working directory is there, and no link leads elsewhere. What is sent when the component
is done is left out.
-/

namespace SecCask.Worker

open Net Pipeman PosixPath

/-- The call `module.start(inputfolder, outputfolder)` of the module that is loaded from a
script. -/
structure StartCall where
  scriptPath : List (List Char)
  inputfolder : String
  outputfolder : String
  deriving DecidableEq

/-- A component as it is executed. `encfsKey` is what `encfs::InitWithKey` is called with. -/
structure Execution where
  componentId : String
  workingDirectory : String
  encfsKey : Option CxxString
  start : StartCall
  deriving DecidableEq

inductive Action
  /-- `handler_->Send(msg)` -/
  | send (msg : Message)
  /-- The manifest of the environment is captured and sent. -/
  | sendManifest
  | execute (execution : Except PyError Execution)
  | unknownCommand

/-- `l[0]` -/
def item (l : List String) : Except PyError String :=
  match l with
  | [] => .error .indexError
  | c :: _ => .ok c

/-- The loop over `enumerate(cmds)`. -/
def scanFolders : List String → String → String → Except PyError (String × String)
  | [], inputfolder, outputfolder => .ok (inputfolder, outputfolder)
  | c :: rest, inputfolder, outputfolder => do
      let inputfolder ← (if c = "--input" then item rest else .ok inputfolder)
      let outputfolder ← (if c = "--output" then item rest else .ok outputfolder)
      scanFolders rest inputfolder outputfolder

/-- `execute_component` in the current folder `cwd`. -/
def executeComponent (cwd : List (List Char)) (workingDirectory : String) (cmds : List String) :
    Except PyError StartCall := do
  let cwd := abspath cwd workingDirectory.toList
  -- The first is `python`.
  let cmds := cmds.tail
  let (inputfolder, outputfolder) ← scanFolders cmds "" ""
  let script ← item cmds
  return ⟨abspath cwd (join workingDirectory.toList script.toList), inputfolder, outputfolder⟩

/-- A `std::string` as it is handed to Python. A `UnicodeDecodeError` is a `ValueError`. -/
def toPython (s : CxxString) : Except PyError String :=
  match Utf8.decode s with
  | some text => .ok text
  | none => .error .valueError

/-- The `execute` branch of `DoActionFromMsg`. -/
def execute (cwd : List (List Char)) : List CxxString → Except PyError Execution
  | componentId :: workingDirectory :: componentKey :: cmds => do
      let encfsKey := if componentKey = lit "NULL" then none else some componentKey
      let componentId ← toPython componentId
      let workingDirectory ← toPython workingDirectory
      let cmds ← cmds.mapM toPython
      let start ← executeComponent cwd workingDirectory cmds
      return ⟨componentId, workingDirectory, encfsKey, start⟩
  -- Here `args[2]` is out of bounds.
  | _ => .error .external

/-- `Worker::DoActionFromMsg` of the worker with the given id. -/
def doActionFromMsg (id : CxxString) (cwd : List (List Char)) (msg : Message) : Action :=
  if msg.cmd = lit "ping" then .send ⟨id, lit "pong", []⟩
  else if msg.cmd = lit "exit" then .send ⟨id, lit "bye", []⟩
  else if msg.cmd = lit "request_manifest" then .sendManifest
  else if msg.cmd = lit "execute" then .execute (execute cwd msg.args)
  else .unknownCommand

theorem doActionFromMsg_execute (id : CxxString) (cwd : List (List Char)) {msg : Message}
    (h : msg.cmd = lit "execute") :
    doActionFromMsg id cwd msg = .execute (execute cwd msg.args) := by
  have hcmd : ∀ other : CxxString, other ≠ lit "execute" → msg.cmd ≠ other := by
    intro other hne heq
    exact hne (heq ▸ h)
  rw [doActionFromMsg, if_neg (hcmd _ (by decide)), if_neg (hcmd _ (by decide)),
    if_neg (hcmd _ (by decide)), if_pos h]

/-- No other command executes anything. -/
theorem of_doActionFromMsg_eq_execute {id : CxxString} {cwd : List (List Char)} {msg : Message}
    {execution : Except PyError Execution} (h : doActionFromMsg id cwd msg = .execute execution) :
    execute cwd msg.args = execution := by
  unfold doActionFromMsg at h
  split at h
  · cases h
  split at h
  · cases h
  split at h
  · cases h
  split at h
  · exact Action.execute.inj h
  · cases h

/-! ### The arguments -/

theorem toPython_eq_ok_iff {b : CxxString} {s : String} : toPython b = .ok s ↔ b = lit s := by
  rw [show lit s = Utf8.encode s from rfl, ← Utf8.decode_eq_some_iff, toPython]
  cases Utf8.decode b <;> simp

theorem mapM_toPython_lit (l : List String) : (l.map lit).mapM toPython = .ok l := by
  induction l with
  | nil => rfl
  | cons s l ih =>
      rw [List.map_cons, List.mapM_cons, toPython_eq_ok_iff.mpr rfl, ih]
      rfl

/-- What is executed is under the names that were sent first. -/
theorem exists_of_execute_eq_ok {cwd : List (List Char)} {args : List CxxString}
    {execution : Execution} (h : execute cwd args = .ok execution) :
    ∃ componentKey cmds, args = lit execution.componentId :: lit execution.workingDirectory ::
        componentKey :: cmds ∧
      execution.encfsKey = if componentKey = lit "NULL" then none else some componentKey := by
  rcases args with _ | ⟨componentId, _ | ⟨workingDirectory, _ | ⟨componentKey, cmds⟩⟩⟩
  · cases h
  · cases h
  · cases h
  · simp only [execute, bind, Except.bind] at h
    split at h
    · cases h
    rename_i id hid
    split at h
    · cases h
    rename_i wd hwd
    split at h
    · cases h
    split at h
    · cases h
    cases h
    rw [toPython_eq_ok_iff.mp hid, toPython_eq_ok_iff.mp hwd]
    exact ⟨componentKey, cmds, rfl, rfl⟩

theorem execute_map_lit (cwd : List (List Char)) (id wd key : String) (cmds : List String) :
    execute cwd ((id :: wd :: key :: cmds).map lit) =
      (executeComponent cwd wd cmds).map fun start =>
        ⟨id, wd, if lit key = lit "NULL" then none else some (lit key), start⟩ := by
  simp only [List.map_cons, execute, toPython_eq_ok_iff.mpr (rfl : lit _ = lit _), bind,
    Except.bind, mapM_toPython_lit]
  cases executeComponent cwd wd cmds <;> rfl

theorem executeComponent_eq_ok_iff {cwd : List (List Char)} {wd : String} {cmds : List String}
    {start : StartCall} :
    executeComponent cwd wd ("python" :: cmds) = .ok start ↔
      scanFolders cmds "" "" = .ok (start.inputfolder, start.outputfolder) ∧
        ∃ name, cmds.head? = some name ∧
          abspath (abspath cwd wd.toList) (join wd.toList name.toList) = start.scriptPath := by
  simp only [executeComponent, List.tail_cons]
  cases hscan : scanFolders cmds "" "" with
  | error e =>
      constructor
      · intro h
        cases h
      · intro ⟨h, _⟩
        cases h
  | ok folders =>
      cases cmds with
      | nil =>
          constructor
          · intro h
            cases h
          · intro ⟨_, name, hname, _⟩
            cases hname
      | cons name rest =>
          show Except.ok (StartCall.mk _ folders.1 folders.2) = Except.ok start ↔ _
          constructor
          · intro h
            cases h
            exact ⟨rfl, name, rfl, rfl⟩
          · intro ⟨hfolders, name', hname, hpath⟩
            cases hname
            cases Except.ok.inj hfolders
            rw [hpath]

/-! ### The scan for one flag -/

/-- Behind the last `flag` of the list stands `value`. -/
def LastFlag (flag value : String) (l : List String) : Prop :=
  ∃ before after, l = before ++ flag :: value :: after ∧ flag ∉ value :: after

/-- The loop with only one of its two flags. -/
def scan (flag : String) : List String → String → Except PyError String
  | [], folder => .ok folder
  | c :: rest, folder => do
      let folder ← (if c = flag then item rest else .ok folder)
      scan flag rest folder

theorem scan_of_notMem {flag : String} {l : List String} (h : flag ∉ l) (folder : String) :
    scan flag l folder = .ok folder := by
  induction l with
  | nil => rfl
  | cons c rest ih =>
      have hne : c ≠ flag := (List.ne_of_not_mem_cons h).symm
      rw [scan, if_neg hne]
      exact ih (List.not_mem_of_not_mem_cons h)

theorem scan_eq_ok_iff {flag value : String} {l : List String} (h : flag ∈ l) (folder : String) :
    scan flag l folder = .ok value ↔ LastFlag flag value l := by
  induction l generalizing folder with
  | nil => cases h
  | cons c rest ih =>
      by_cases hrest : flag ∈ rest
      · -- A later flag decides.
        have hlast : LastFlag flag value (c :: rest) ↔ LastFlag flag value rest := by
          constructor
          · intro ⟨before, after, heq, hnot⟩
            cases before with
            | nil =>
                obtain ⟨-, rfl⟩ := List.cons.inj heq
                exact absurd hrest hnot
            | cons d before =>
                obtain ⟨-, rfl⟩ := List.cons.inj heq
                exact ⟨before, after, rfl, hnot⟩
          · intro ⟨before, after, heq, hnot⟩
            exact ⟨c :: before, after, by rw [heq, List.cons_append], hnot⟩
        obtain ⟨d, more, rfl⟩ := List.exists_cons_of_ne_nil (List.ne_nil_of_mem hrest)
        rw [hlast, scan]
        by_cases hc : c = flag
        · rw [if_pos hc]
          exact ih hrest d
        · rw [if_neg hc]
          exact ih hrest folder
      · obtain rfl : flag = c := (List.mem_cons.mp h).resolve_right hrest
        rw [scan, if_pos rfl]
        cases rest with
        | nil =>
            constructor
            · intro hok
              cases hok
            · intro ⟨before, after, heq, hnot⟩
              have hlen := congrArg List.length heq
              simp at hlen
              omega
        | cons d more =>
            show scan flag (d :: more) d = .ok value ↔ _
            rw [scan_of_notMem hrest, Except.ok.injEq]
            constructor
            · intro heq
              exact ⟨[], more, by rw [heq, List.nil_append], heq ▸ hrest⟩
            · intro ⟨before, after, heq, hnot⟩
              cases before with
              | nil => exact (List.cons.inj (List.cons.inj heq).2).1
              | cons e before =>
                  obtain ⟨-, heq⟩ := List.cons.inj heq
                  rw [heq] at hrest
                  simp at hrest

theorem LastFlag.mem {flag value : String} {l : List String} (h : LastFlag flag value l) :
    flag ∈ l := by
  obtain ⟨before, after, rfl, -⟩ := h
  simp

instance decidableLastFlag (flag value : String) (l : List String) :
    Decidable (LastFlag flag value l) :=
  decidable_of_iff (flag ∈ l ∧ (scan flag l "").toOption = some value)
    ⟨fun h => (scan_eq_ok_iff h.1 "").mp (toOption_eq_some_iff.mp h.2),
      fun h => ⟨h.mem, toOption_eq_some_iff.mpr ((scan_eq_ok_iff h.mem "").mpr h)⟩⟩

/-- The two flags do not get into each other's way. -/
theorem scanFolders_eq_ok_iff {l : List String} {inputfolder outputfolder input output : String} :
    scanFolders l inputfolder outputfolder = .ok (input, output) ↔
      scan "--input" l inputfolder = .ok input ∧ scan "--output" l outputfolder = .ok output := by
  induction l generalizing inputfolder outputfolder with
  | nil => simp [scanFolders, scan]
  | cons c rest ih =>
      rw [scanFolders, scan, scan]
      by_cases hin : c = "--input"
      · have hout : c ≠ "--output" := by
          rw [hin]
          decide
        rw [if_pos hin, if_neg hout]
        cases rest with
        | nil =>
            constructor
            · intro hok
              cases hok
            · intro hok
              cases hok.1
        | cons d more => exact ih
      · rw [if_neg hin]
        by_cases hout : c = "--output"
        · rw [if_pos hout]
          cases rest with
          | nil =>
              constructor
              · intro hok
                cases hok
              · intro hok
                cases hok.2
          | cons d more => exact ih
        · rw [if_neg hout]
          exact ih

end SecCask.Worker
