import SecCask.Pipeman.Commands
import SecCask.Pipeman.Recommit

/-!
# SecCask.Pipeman.ExecutionPlan

Which components `_build_venvs` and the loop of `_train_node_list` have executed, and with what.
A node list that is trained up to a position is executed from there on: every component under
the candidate id of its position, in its own working folder, with the output folder of the node
before it as its input. What the coordinator is told of this are the words of the commands: a
path or a script with white space in it is not among them.
-/

namespace SecCask.Pipeman

/-! ### Words -/

/-- A text that is one of the words when a command is split. -/
structure OneWord (s : String) : Prop where
  ne : s ≠ ""
  noSpace : Regex.noSpace s = true

theorem splitSpace_of_oneWord {s : String} (h : OneWord s) : splitSpace s = [s] := by
  have hspace : ∀ c ∈ s.toList, Regex.isSpace c = false := by
    intro c hc
    simpa [Regex.notSpace] using Regex.noSpace_iff.mp h.noSpace c hc
  have hne : s.toList ≠ [] := fun hnil => h.ne (String.toList_eq_nil_iff.mp hnil)
  rw [splitSpace, List.splitOnP_eq_singleton hspace]
  simp [hne]

theorem oneWord_of_mem_splitSpace {s word : String} (h : word ∈ splitSpace s) :
    OneWord word := by
  refine ⟨?_, Regex.noSpace_iff.mpr fun c hc => ?_⟩
  · intro heq
    subst heq
    obtain ⟨l, hl, hword⟩ := List.mem_map.mp h
    have hne := of_decide_eq_true (List.mem_filter.mp hl).2
    exact hne (by simpa using congrArg String.toList hword)
  · rw [Regex.notSpace, notSpace_of_mem_splitSpace h c hc]
    rfl

/-- What `on_new_component` is called with carries these: the first two arguments, the word
behind `python`, and a flag with the input. -/
structure Carries (info : List String) (id wd trainScript inputPath : String) : Prop where
  id : info[0]? = some id
  wd : info[1]? = some wd
  script : info[4]? = some trainScript
  input : ["--input", inputPath] <:+: info.drop 4

theorem lookup_input_completeParams (trainParams : OrderedDict String String)
    (inputPath outputPath tempPath : String) :
    (completeParams trainParams inputPath outputPath tempPath).lookup "--input" =
      some inputPath := by
  simp [completeParams, OrderedDict.lookup_set]

theorem carries_componentInfo_iff {id wd key cmd trainScript inputPath : String} :
    Carries (componentInfo id wd key cmd) id wd trainScript inputPath ↔
      (splitSpace cmd).head? = some trainScript ∧
        ["--input", inputPath] <:+: splitSpace cmd := by
  unfold componentInfo
  generalize splitSpace cmd = words
  rw [List.head?_eq_getElem?]
  exact ⟨fun h => ⟨h.script, h.input⟩, fun h => ⟨rfl, rfl, h.1, h.2⟩⟩

/-- A command carries script and input exactly if both are words. -/
theorem carries_iff {id wd key trainScript inputPath outputPath tempPath : String}
    {trainParams : OrderedDict String String} :
    Carries (componentInfo id wd key (commandLine trainScript
        (completeParams trainParams inputPath outputPath tempPath))) id wd trainScript inputPath ↔
      OneWord trainScript ∧ OneWord inputPath := by
  have hwords := splitSpace_commandLine trainScript
    (completeParams trainParams inputPath outputPath tempPath)
  rw [carries_componentInfo_iff]
  refine ⟨?_, ?_⟩
  · intro h
    obtain ⟨hscript, hinput⟩ := h
    exact ⟨oneWord_of_mem_splitSpace (List.mem_of_head? hscript),
      oneWord_of_mem_splitSpace (hinput.subset (by simp))⟩
  · intro h
    obtain ⟨hscript, hinput⟩ := h
    have hentry := AList.mem_lookup_iff.mp
      (lookup_input_completeParams trainParams inputPath outputPath tempPath)
    obtain ⟨before, after, hsplit⟩ := List.append_of_mem hentry
    have hflag : splitSpace "--input" = ["--input"] :=
      splitSpace_of_oneWord ⟨by decide, by decide⟩
    rw [hwords, splitSpace_of_oneWord hscript, hsplit]
    simp only [List.flatMap_append, List.flatMap_cons, hflag, splitSpace_of_oneWord hinput]
    refine ⟨rfl, [trainScript] ++ before.flatMap fun e => splitSpace e.1 ++ splitSpace e.2,
      after.flatMap fun e => splitSpace e.1 ++ splitSpace e.2, ?_⟩
    simp

namespace TrialManager

open Effect

variable {σ C : Type} {m : Machine C} {S : PhysicalStore σ (StoredFile C)} {call : CommitCall C}
  {options : EnvOptions}

/-! ### The plan -/

/-- A dataset and libraries behind it, of which exactly the first `t` nodes are trained. -/
structure TrainedUpTo (t : ℕ) (nodes : List TreeNode) : Prop where
  pos : 1 ≤ t
  lt : t < nodes.length
  dataset : ∀ node, nodes[0]? = some node → node.key.componentType = MetaKey.genericDatasetKey
  library : ∀ j node, nodes[j + 1]? = some node →
    node.key.componentType = MetaKey.genericLibraryKey
  trained : ∀ j node, nodes[j]? = some node → (node.trained = true ↔ j < t)

/-- What the first executed component is given, from the node before it: the extracted dataset,
an output folder that is still there, or what is stored of the output, extracted. -/
inductive FirstInput (m : Machine C) (S : PhysicalStore σ (StoredFile C)) (options : EnvOptions)
    (world : World σ C) (prev : TreeNode) : InputPath → Prop
  | dataset {info : DatasetInfo C} : prev.key.componentType = MetaKey.genericDatasetKey →
      m.dataset prev.key = .ok info →
      FirstInput m S options world prev (.dataset prev.key (datasetPaths options prev.key info))
  | existing : prev.key.componentType = MetaKey.genericLibraryKey →
      world.pathExists m prev.output = true →
      FirstInput m S options world prev (.folder prev.output)
  | extracted {wsKey : MetaKey} {content : C} :
      prev.key.componentType = MetaKey.genericLibraryKey →
      world.pathExists m prev.output = false → prev.wsKey = some wsKey →
      Storage.runtimeGet S "output" world.store wsKey prev.key prev.output =
        .ok (.archive content) →
      FirstInput m S options world prev (.folder (outputPath options prev.key))

/-- The commands for nodes in a row from position `i` on: the input of each but the first is the
output folder of the node before it. -/
inductive Planned (m : Machine C) (options : EnvOptions) :
    ℕ → InputPath → List TreeNode → List Command → Prop
  | nil (i : ℕ) (input : InputPath) : Planned m options i input [] []
  | cons {i : ℕ} {input : InputPath} {node : TreeNode} {library : LibraryInfo}
      {nodes : List TreeNode} {commands : List Command} : m.library node.key = .ok library →
      Planned m options (i + 1) (.folder (outputPath options node.key)) nodes commands →
      Planned m options i input (node :: nodes)
        (commandOf m options input i node.key library :: commands)

/-- The input of an executed node: that of the first one, or the folder of the one before. -/
def inputAt (options : EnvOptions) (first : InputPath) (executed : List TreeNode) : ℕ → InputPath
  | 0 => first
  | k + 1 =>
      match executed[k]? with
      | some node => .folder (outputPath options node.key)
      | none => .unset

theorem Planned.length {i : ℕ} {input : InputPath} {nodes : List TreeNode}
    {commands : List Command} (h : Planned m options i input nodes commands) :
    commands.length = nodes.length := by
  induction h with
  | nil => rfl
  | cons _ _ ih => rw [List.length_cons, List.length_cons, ih]

theorem Planned.getElem? {i : ℕ} {input : InputPath} {nodes : List TreeNode}
    {commands : List Command} (h : Planned m options i input nodes commands) {k : ℕ}
    {node : TreeNode} (hnode : nodes[k]? = some node) :
    ∃ library, m.library node.key = .ok library ∧
      commands[k]? = some (commandOf m options (inputAt options input nodes k) (i + k) node.key
        library) := by
  induction h generalizing k with
  | nil => cases hnode
  | @cons i input first library nodes commands hlibrary _ ih =>
      cases k with
      | zero =>
          obtain rfl : first = node := Option.some.inj hnode
          exact ⟨library, hlibrary, rfl⟩
      | succ k =>
          obtain ⟨library', hlibrary', hcommand⟩ := ih hnode
          refine ⟨library', hlibrary', ?_⟩
          have hinput : inputAt options (.folder (outputPath options first.key)) nodes k =
              inputAt options input (first :: nodes) (k + 1) := by
            cases k <;> rfl
          rw [List.getElem?_cons_succ, hcommand, hinput]
          congr 2
          omega

/-! ### Building the queue -/

theorem firstInput_spec {prev : TreeNode} {input : InputPath} {world world' : World σ C}
    (hprev : prev.key.componentType = MetaKey.genericDatasetKey ∨
      prev.key.componentType = MetaKey.genericLibraryKey)
    (h : (firstInput m S call options prev).runFrom world = (.ok input, world')) :
    FirstInput m S options world prev input := by
  unfold firstInput at h
  by_cases hdataset : prev.key.componentType = MetaKey.genericDatasetKey
  · rw [if_pos hdataset] at h
    obtain ⟨_, w₁, -, h⟩ := runFrom_bind_eq_ok_iff.mp h
    obtain ⟨info, _, hread, h⟩ := runFrom_bind_eq_ok_iff.mp h
    obtain ⟨hinfo, rfl⟩ := runFrom_ofExcept_eq_ok_iff.mp hread
    obtain ⟨rfl, -⟩ := runFrom_pure_eq_ok_iff.mp h
    exact .dataset hdataset hinfo
  · have hlibrary := hprev.resolve_left hdataset
    rw [if_neg hdataset, if_pos hlibrary] at h
    obtain ⟨_, _, hget, h⟩ := runFrom_bind_eq_ok_iff.mp h
    obtain ⟨rfl, rfl⟩ := runFrom_get_eq_ok_iff.mp hget
    split at h
    -- the output folder is still there, or its archive is extracted
    · rename_i hexists
      obtain ⟨rfl, rfl⟩ := runFrom_pure_eq_ok_iff.mp h
      exact .existing hlibrary hexists
    · rename_i hmissing
      obtain ⟨_, w₁, hstep, h⟩ := runFrom_bind_eq_ok_iff.mp h
      cases hkey : prev.wsKey with
      | none =>
          rw [hkey] at h
          cases (Prod.mk.inj h).1
      | some wsKey =>
          simp only [hkey] at h
          obtain ⟨_, _, hget, h⟩ := runFrom_bind_eq_ok_iff.mp h
          obtain ⟨rfl, rfl⟩ := runFrom_get_eq_ok_iff.mp hget
          obtain ⟨file, _, hread, h⟩ := runFrom_bind_eq_ok_iff.mp h
          obtain ⟨hfile, rfl⟩ := runFrom_ofExcept_eq_ok_iff.mp hread
          obtain ⟨_, w₂, hextract, h⟩ := runFrom_bind_eq_ok_iff.mp h
          obtain ⟨rfl, rfl⟩ := runFrom_pure_eq_ok_iff.mp h
          obtain ⟨content, rfl, -⟩ := extractArchiveTo_ok hextract
          rw [(step_ok hstep []).store] at hfile
          exact .extracted hlibrary (by simpa using hmissing) hkey hfile

theorem Queue.planned {i : ℕ} {input : InputPath} {nodes nodes' : List TreeNode}
    {commands : List Command} (h : Queue m options i input nodes nodes' commands) :
    Planned m options i input nodes commands := by
  induction h with
  | nil => exact .nil _ _
  | cons hvenv _ ih =>
      obtain ⟨library, hlibrary, rfl⟩ := hvenv.command
      exact .cons hlibrary ih

/-! ### Nothing is executed yet -/

theorem sameCalls_firstInput (prev : TreeNode) :
    Within SameCalls (firstInput m S call options prev) := by
  unfold firstInput
  dsimp only
  split
  · refine Within.bind (sameCalls_step _) fun _ => Within.bind (Within.ofExcept _) fun _ => ?_
    exact Within.pure _
  · split
    · refine Within.bind Within.get fun _ => ?_
      split
      · exact Within.pure _
      · refine Within.bind (sameCalls_step _) fun _ => ?_
        split
        · exact Within.throw _
        · refine Within.bind Within.get fun _ => Within.bind (Within.ofExcept _) fun _ => ?_
          refine Within.bind (Within.bind (sameCalls_step _) fun _ => ?_) fun _ => Within.pure _
          split
          · exact Within.modify (sameCalls_writeFolder _ _)
          · exact Within.throw _
    · exact Within.pure _

theorem sameCalls_buildVenv (input : InputPath) (i : ℕ) (node : TreeNode) :
    Within SameCalls (buildVenv (σ := σ) m call options input i node) := by
  refine Within.bind (sameCalls_step _) fun _ => Within.bind (Within.ofExcept _) fun _ => ?_
  refine Within.bind (sameCalls_step _) fun _ => Within.bind (sameCalls_step _) fun _ => ?_
  refine Within.bind Within.get fun _ => ?_
  split
  · exact Within.pure _
  · exact Within.bind (Within.modify (sameCalls_writeFolder _ _)) fun _ => Within.pure _

theorem sameCalls_buildVenvs (nodes : List TreeNode) :
    ∀ i prev input, Within SameCalls (buildVenvs m S call options i prev input nodes) := by
  induction nodes with
  | nil => exact fun i prev input => Within.pure _
  | cons node rest ih =>
      intro i prev input
      cases input with
      | some inputPath =>
          exact Within.bind (sameCalls_buildVenv inputPath i node) fun _ =>
            Within.bind (ih _ _ _) fun _ => Within.pure _
      | none =>
          rw [buildVenvs]
          split
          · exact Within.bind (ih _ _ _) fun _ => Within.pure _
          · exact Within.bind (sameCalls_firstInput _) fun inputPath =>
              Within.bind (sameCalls_buildVenv inputPath i node) fun _ =>
                Within.bind (ih _ _ _) fun _ => Within.pure _

/-- The queue begins behind the nodes that are left out. -/
theorem queue_of_buildVenvs_none {skipped rest nodes' : List TreeNode} {node : TreeNode}
    {commands : List Command} {world world' : World σ C}
    (hskipped : ∀ n ∈ skipped, skips m n = true) (hnode : skips m node = false)
    (h : (buildVenvs m S call options 0 none none (skipped ++ node :: rest)).runFrom world =
      (.ok (nodes', commands), world')) :
    ∃ input w₁ executed, (firstInput m S call options (skipped.getLast?.getD node)).runFrom
        world = (.ok input, w₁) ∧
      Queue m options skipped.length input (node :: rest) executed commands := by
  rw [buildVenvs_append_of_skips hskipped] at h
  obtain ⟨built, _, hbuild, h⟩ := runFrom_bind_eq_ok_iff.mp h
  obtain ⟨hpair, rfl⟩ := runFrom_pure_eq_ok_iff.mp h
  obtain ⟨-, rfl⟩ := Prod.mk.inj hpair
  rw [buildVenvs, if_neg (by simp [hnode]), Option.or_none, Nat.zero_add] at hbuild
  obtain ⟨input, w₁, hinput, hbuild⟩ := runFrom_bind_eq_ok_iff.mp hbuild
  obtain ⟨⟨node', command⟩, w₂, hvenv, hbuild⟩ := runFrom_bind_eq_ok_iff.mp hbuild
  obtain ⟨⟨rest', commands⟩, w₃, hrest, hbuild⟩ := runFrom_bind_eq_ok_iff.mp hbuild
  obtain ⟨rfl, rfl⟩ := runFrom_pure_eq_ok_iff.mp hbuild
  exact ⟨input, w₁, node' :: rest', hinput, .cons (buildVenv_ok hvenv).1
    (buildVenvs_some_ok hrest).1⟩

/-! ### The calls -/

/-- The call that a command leads to. -/
def IsCallOf (m : Machine C) (candidateIds : List String) (command : Command)
    (issued : CoordinatorCall) : Prop :=
  ∃ id, candidateIds[command.index]? = some id ∧
    issued = .onNewComponent (componentInfo id command.wd (sentKey m) command.cmd)

theorem calls_trainComponent_of_none {candidateIds : List String} {command : Command}
    (hid : candidateIds[command.index]? = none) (world : World σ C) :
    (trainComponent m call candidateIds command).runFrom world = (.error .indexError, world) := by
  unfold trainComponent
  rw [hid, runFrom_bind, runFrom_ofExcept]

/-- Whatever fails, the loop has executed the first commands, and all of them when it ends. -/
theorem calls_train {candidateIds : List String} (commands : List Command) (world : World σ C) :
    ∃ done left issued, commands = done ++ left ∧
      ((commands.forM (trainComponent m call candidateIds)).runFrom world).2.calls =
        world.calls ++ issued ∧
      List.Forall₂ (IsCallOf m candidateIds) done issued ∧
      (Returns (commands.forM (trainComponent m call candidateIds)) world → left = []) := by
  induction commands generalizing world with
  | nil => exact ⟨[], [], [], rfl, (List.append_nil _).symm, .nil, fun _ => rfl⟩
  | cons command commands ih =>
      cases hid : candidateIds[command.index]? with
      | none =>
          have hrun := runFrom_forM_cons (trainComponent m call candidateIds) command commands world
          rw [calls_trainComponent_of_none hid] at hrun
          refine ⟨[], command :: commands, [], rfl, ?_, .nil, ?_⟩
          · rw [hrun, List.append_nil]
          · intro hex
            obtain ⟨_, _, hreturns⟩ := hex
            cases (Prod.mk.inj (hrun.symm.trans hreturns)).1
      -- the call is made before the wait for its end can fail
      | some id =>
          have hissued := @calls_trainComponent σ C m call _ _ _ hid world
          have hcall : IsCallOf m candidateIds command (.onNewComponent
            (componentInfo id command.wd (sentKey m) command.cmd)) := ⟨id, hid, rfl⟩
          have hrun := runFrom_forM_cons (trainComponent m call candidateIds) command commands world
          rcases hstep : (trainComponent m call candidateIds command).runFrom world with
            ⟨e | _, w₁⟩ <;> rw [hstep] at hrun hissued
          · refine ⟨[command], commands, _, rfl, ?_, .cons hcall .nil, ?_⟩
            · rw [hrun]
              exact hissued
            · intro hex
              obtain ⟨_, _, hreturns⟩ := hex
              cases (Prod.mk.inj (hrun.symm.trans hreturns)).1
          · obtain ⟨done, left, issued, rfl, hcalls, hdone, hleft⟩ := ih w₁
            refine ⟨command :: done, left, _ :: issued, rfl, ?_, .cons hcall hdone, ?_⟩
            · rw [hrun]
              refine hcalls.trans ?_
              rw [show w₁.calls = _ from hissued, List.append_assoc]
              rfl
            · intro hex
              obtain ⟨_, w₂, hreturns⟩ := hex
              exact hleft ⟨_, w₂, hrun.symm.trans hreturns⟩

theorem exists_of_forall₂ {α β : Type} {R : α → β → Prop} {l : List α} {l' : List β}
    (h : List.Forall₂ R l l') {k : ℕ} {a : α} (ha : l[k]? = some a) :
    ∃ b, l'[k]? = some b ∧ R a b := by
  obtain ⟨hk, rfl⟩ := List.getElem?_eq_some_iff.mp ha
  have hk' : k < l'.length := h.length_eq ▸ hk
  exact ⟨l'[k], List.getElem?_eq_getElem hk', h.get hk hk'⟩

/-- The calls of a plan: one for each node that is left, and the `k`-th of them is for the node at
position `t + k`, under the id of that position. -/
structure IssuesPlan (m : Machine C) (options : EnvOptions) (candidateIds : List String) (t : ℕ)
    (first : InputPath) (nodes : List TreeNode) (issued : List CoordinatorCall) : Prop where
  length : issued.length = nodes.length - t
  carries : ∀ k node library id, nodes[t + k]? = some node → m.library node.key = .ok library →
    candidateIds[t + k]? = some id → ∃ info, issued[k]? = some (.onNewComponent info) ∧
      Carries info id (pathJoin options.venvDir node.key.toStringWithVersion) library.trainScript
        (inputAt options first (nodes.drop t) k).toString

/-- The scripts and the input paths of the nodes that are left are words. -/
def InWords (m : Machine C) (options : EnvOptions) (t : ℕ) (first : InputPath)
    (nodes : List TreeNode) : Prop :=
  ∀ k node library, nodes[t + k]? = some node → m.library node.key = .ok library →
    OneWord library.trainScript ∧ OneWord (inputAt options first (nodes.drop t) k).toString

theorem issuesPlan_iff_inWords {candidateIds : List String} {t : ℕ} {first : InputPath}
    {nodes : List TreeNode} {commands : List Command} {issued : List CoordinatorCall}
    (hids : candidateIds.length = nodes.length)
    (hplanned : Planned m options t first (nodes.drop t) commands)
    (hissued : List.Forall₂ (IsCallOf m candidateIds) commands issued) :
    IssuesPlan m options candidateIds t first nodes issued ↔
      InWords m options t first nodes := by
  -- the call at `k` is known whole, so that only its command line is left to be read back
  have hcall : ∀ k node library id, nodes[t + k]? = some node →
      m.library node.key = .ok library → candidateIds[t + k]? = some id →
      issued[k]? = some (.onNewComponent (componentInfo id
        (pathJoin options.venvDir node.key.toStringWithVersion) (sentKey m)
        (commandLine library.trainScript (completeParams library.trainParams
          (inputAt options first (nodes.drop t) k).toString (outputPath options node.key)
          m.tempPath)))) := by
    intro k node library id hnode hlibrary hid
    obtain ⟨library', hlibrary', hcommand⟩ :=
      hplanned.getElem? (by rw [List.getElem?_drop]; exact hnode)
    cases Except.ok.inj (hlibrary.symm.trans hlibrary')
    obtain ⟨call, hcall, id', hid', rfl⟩ := exists_of_forall₂ hissued hcommand
    obtain rfl := Option.some.inj (hid.symm.trans hid')
    exact hcall
  refine ⟨?_, ?_⟩
  · intro hplan k node library hnode hlibrary
    have hk : t + k < candidateIds.length := hids ▸ (List.getElem?_eq_some_iff.mp hnode).1
    have hid := List.getElem?_eq_getElem hk
    obtain ⟨info, hinfo, hcarries⟩ := hplan.carries k node library _ hnode hlibrary hid
    rw [hcall k node library _ hnode hlibrary hid] at hinfo
    obtain rfl := CoordinatorCall.onNewComponent.inj (Option.some.inj hinfo)
    exact carries_iff.mp hcarries
  · intro hwords
    refine ⟨?_, ?_⟩
    · rw [← hissued.length_eq, hplanned.length, List.length_drop]
    · intro k node library id hnode hlibrary hid
      exact ⟨_, hcall k node library id hnode hlibrary hid,
        carries_iff.mpr (hwords k node library hnode hlibrary)⟩

/-! ### The nodes that are left -/

theorem TrainedUpTo.split {t : ℕ} {nodes : List TreeNode} (h : TrainedUpTo t nodes)
    (hretrain : m.retrain = false) {prev : TreeNode} (hprev : nodes[t - 1]? = some prev) :
    ∃ skipped node rest, nodes = skipped ++ node :: rest ∧ skipped.length = t ∧
      skipped.getLast?.getD node = prev ∧ (∀ n ∈ skipped, skips m n = true) ∧
      skips m node = false ∧ (prev.key.componentType = MetaKey.genericDatasetKey ∨
        prev.key.componentType = MetaKey.genericLibraryKey) := by
  have hlt := h.lt
  have hpos := h.pos
  have hskips : ∀ n, skips m n = n.trained := by simp [skips, hretrain]
  have hlength : (nodes.take t).length = t := by
    rw [List.length_take]
    omega
  refine ⟨nodes.take t, nodes[t], nodes.drop (t + 1), ?_, hlength, ?_, ?_, ?_, ?_⟩
  · rw [← List.drop_eq_getElem_cons hlt, List.take_append_drop]
  · rw [List.getLast?_eq_getElem?, hlength, List.getElem?_take, if_pos (by omega), hprev]
    rfl
  · intro n hn
    obtain ⟨j, hj, hnj⟩ := List.mem_iff_getElem?.mp hn |>.imp fun j hj =>
      And.intro (show j < t from hlength ▸ (List.getElem?_eq_some_iff.mp hj).1) hj
    rw [List.getElem?_take, if_pos hj] at hnj
    rw [hskips]
    exact (h.trained j n hnj).mpr hj
  · rw [hskips, Bool.eq_false_iff]
    intro htrained
    exact absurd ((h.trained t _ (List.getElem?_eq_getElem hlt)).mp htrained) (lt_irrefl t)
  · obtain hone | ⟨j, rfl⟩ : t = 1 ∨ ∃ j, t = j + 2 := by
      rcases t with _ | _ | j
      · omega
      · exact Or.inl rfl
      · exact Or.inr ⟨j, rfl⟩
    · subst hone
      exact Or.inl (h.dataset prev hprev)
    · exact Or.inr (h.library j prev hprev)

/-- Nothing fails, the libraries that are left are known, and the first of them can be given an
input. -/
structure Works (m : Machine C) (S : PhysicalStore σ (StoredFile C)) (call : CommitCall C)
    (options : EnvOptions) (world : World σ C) (prev : TreeNode) (left : List TreeNode) :
    Prop where
  faults : ∀ step, call.faults step = none
  library : ∀ node ∈ left, ∃ library, m.library node.key = .ok library
  input : ∃ first, FirstInput m S options world prev first

theorem returns_firstInput (hfaults : ∀ step, call.faults step = none) {prev : TreeNode}
    {first : InputPath} {world : World σ C} (h : FirstInput m S options world prev first) :
    Returns (firstInput m S call options prev) world := by
  have hne : MetaKey.genericLibraryKey ≠ MetaKey.genericDatasetKey := by decide
  cases h with
  | dataset htype hinfo => exact returns_firstInput_dataset hfaults htype ⟨_, hinfo⟩
  | existing htype hexists =>
      unfold firstInput
      rw [if_neg (htype ▸ hne), if_pos htype]
      refine (Returns.get world).bind fun _ _ hget => ?_
      obtain ⟨rfl, rfl⟩ := runFrom_get_eq_ok_iff.mp hget
      rw [if_pos hexists]
      exact Returns.pure _ _
  | @extracted wsKey content htype hmissing hkey hstored =>
      unfold firstInput
      rw [if_neg (htype ▸ hne), if_pos htype]
      refine (Returns.get world).bind fun _ _ hget => ?_
      obtain ⟨rfl, rfl⟩ := runFrom_get_eq_ok_iff.mp hget
      rw [if_neg (by simp [hmissing])]
      refine (returns_step hfaults none world).bind fun _ w₁ hstep => ?_
      simp only [hkey]
      refine (Returns.get w₁).bind fun _ _ hget => ?_
      obtain ⟨rfl, rfl⟩ := runFrom_get_eq_ok_iff.mp hget
      rw [← (step_ok hstep []).store] at hstored
      refine (Returns.ofExcept ⟨_, hstored⟩ _).bind fun file _ hrun => ?_
      obtain ⟨hfile, rfl⟩ := runFrom_ofExcept_eq_ok_iff.mp hrun
      obtain rfl := Except.ok.inj (hstored.symm.trans hfile)
      refine Returns.bind ?_ fun _ _ _ => Returns.pure _ _
      exact (returns_step hfaults _ _).bind fun _ _ _ => Returns.modify _ _

/-- The queue is built behind the nodes that are left out. -/
theorem returns_buildVenvs_of_works {skipped rest : List TreeNode} {node prev : TreeNode}
    {world : World σ C} (hskipped : ∀ n ∈ skipped, skips m n = true)
    (hnode : skips m node = false) (hlast : skipped.getLast?.getD node = prev)
    (hworks : Works m S call options world prev (node :: rest)) :
    Returns (buildVenvs m S call options 0 none none (skipped ++ node :: rest)) world := by
  obtain ⟨first, hfirst⟩ := hworks.input
  unfold Returns
  rw [buildVenvs_append_of_skips hskipped, buildVenvs, if_neg (by simp [hnode]), Option.or_none,
    hlast]
  refine Returns.bind ?_ fun _ _ _ => Returns.pure _ _
  refine (returns_firstInput hworks.faults hfirst).bind fun _ _ _ => ?_
  refine (returns_buildVenv hworks.faults (hworks.library node (by simp))).bind fun _ _ _ => ?_
  have hlibrary : ∀ n ∈ rest, ∃ library, m.library n.key = .ok library :=
    fun n hn => hworks.library n (List.mem_cons_of_mem _ hn)
  refine (returns_buildVenvs_some hworks.faults hlibrary _ _ _ _).bind fun _ _ _ => ?_
  exact Returns.pure _ _

/-- Behind the loop of `_train_node_list` the coordinator is told nothing more. -/
theorem calls_trainNodeList {candidateIds : List String} {nodes nodes' : List TreeNode}
    {commands : List Command} {world world' : World σ C}
    (h : (buildVenvs m S call options 0 none none nodes).runFrom world =
      (.ok (nodes', commands), world')) :
    ((trainNodeList m S call options candidateIds nodes).runFrom world).2.calls =
      ((commands.forM (trainComponent m call candidateIds)).runFrom world').2.calls := by
  unfold trainNodeList
  rw [runFrom_bind, h]
  dsimp only
  rw [runFrom_bind]
  rcases (commands.forM (trainComponent m call candidateIds)).runFrom world' with ⟨_ | _, w⟩
  · rfl
  · refine (?_ : Within SameCalls _) w
    split
    · exact Within.throw _
    · refine Within.bind (sameCalls_step _) fun _ => Within.bind Within.get fun _ => ?_
      split
      · exact Within.pure _
      · exact Within.throw _

/-- **Execution plan.** When a list is trained up to a position, and all that the rest relies on
works, the components from there on are called for in order, each with its id, its working folder,
its script and the output of the node before it, exactly when the scripts and the input paths are
words. -/
theorem issuesPlan_iff {t : ℕ} {nodes : List TreeNode} {candidateIds : List String}
    {prev : TreeNode} {world : World σ C} (hretrain : m.retrain = false)
    (hnodes : TrainedUpTo t nodes) (hids : candidateIds.length = nodes.length)
    (hprev : nodes[t - 1]? = some prev)
    (hworks : Works m S call options world prev (nodes.drop t)) :
    ∃ first issued, FirstInput m S options world prev first ∧
      ((trainNodeList m S call options candidateIds nodes).runFrom world).2.calls =
        world.calls ++ issued ∧
      (IssuesPlan m options candidateIds t first nodes issued ↔
        InWords m options t first nodes) := by
  -- `build_venvs` plans the commands, and then they are executed one after the other
  obtain ⟨skipped, node, rest, rfl, rfl, hlast, hskipped, hnode, htype⟩ :=
    hnodes.split hretrain hprev
  rw [List.drop_left] at hworks
  obtain ⟨⟨built, commands⟩, w₁, hbuild⟩ :=
    returns_buildVenvs_of_works hskipped hnode hlast hworks
  obtain ⟨first, w₀, executed, hfirst, hqueue⟩ := queue_of_buildVenvs_none hskipped hnode hbuild
  rw [hlast] at hfirst
  have hinput := firstInput_spec htype hfirst
  have hcalls : w₁.calls = world.calls := (sameCalls_buildVenvs _ _ _ _).of_run hbuild
  rw [List.length_append] at hids
  have hreturns : Returns (commands.forM (trainComponent m call candidateIds)) w₁ :=
    returns_train hworks.faults hqueue hids.ge
  have hplanned := hqueue.planned
  obtain ⟨done, left, issued, rfl, hissued, hdone, hleft⟩ := calls_train commands w₁
  obtain rfl := hleft hreturns
  rw [List.append_nil] at hplanned hissued hbuild
  refine ⟨first, issued, hinput, ?_, ?_⟩
  · rw [calls_trainNodeList hbuild, hissued, hcalls]
  · rw [← List.length_append] at hids
    refine issuesPlan_iff_inWords hids ?_ hdone
    rw [List.drop_left]
    exact hplanned

/-! A dataset and two libraries that have not run yet. -/

def planDataset : TreeNode :=
  TreeNode.new ⟨MetaKey.genericDatasetKey, "d", ⟨"master", 0, 0⟩⟩ true

def planNodes : List TreeNode :=
  [planDataset, TreeNode.new (traceLibrary "a") false, TreeNode.new (traceLibrary "b") false]

theorem trainedUpTo_planNodes : TrainedUpTo 1 planNodes where
  pos := le_rfl
  lt := by decide
  dataset := by
    intro node hnode
    obtain rfl := Option.some.inj hnode
    rfl
  library := by
    intro j node hnode
    rcases j with _ | _ | j
    · obtain rfl := Option.some.inj hnode
      rfl
    · obtain rfl := Option.some.inj hnode
      rfl
    · cases hnode
  trained := by
    intro j node hnode
    rcases j with _ | _ | _ | j
    · obtain rfl := Option.some.inj hnode
      decide
    · obtain rfl := Option.some.inj hnode
      decide
    · obtain rfl := Option.some.inj hnode
      decide
    · cases hnode

theorem works_planNodes (outputDir : String) :
    Works traceMachine (Storage.logStore (StoredFile (List String))) (traceCall [])
      (scoreOptions outputDir) traceWorld planDataset (planNodes.drop 1) where
  faults := fun _ => rfl
  library := fun _ _ => ⟨_, rfl⟩
  input := by
    have hinfo : traceMachine.dataset planDataset.key =
        .ok ⟨"not-schema-hashable", ["all"], ["d"]⟩ := rfl
    exact ⟨_, .dataset rfl hinfo⟩

theorem inWords_planNodes {first : InputPath}
    (hfirst : FirstInput traceMachine (Storage.logStore (StoredFile (List String)))
      (scoreOptions "/w/output") traceWorld planDataset first) :
    InWords traceMachine (scoreOptions "/w/output") 1 first planNodes := by
  intro k node library hnode hlibrary
  obtain rfl := Except.ok.inj hlibrary
  refine ⟨⟨by decide, by decide⟩, ?_⟩
  rcases k with _ | _ | k
  · cases hfirst with
    | dataset _ hinfo =>
        obtain rfl := Except.ok.inj hinfo
        exact ⟨by decide +kernel, by decide +kernel⟩
    | existing htype _ => exact absurd htype (by decide)
    | extracted htype _ _ _ => exact absurd htype (by decide)
  · show OneWord (outputPath (scoreOptions "/w/output") (traceLibrary "a"))
    exact ⟨by decide +kernel, by decide +kernel⟩
  · have hlength : planNodes.length ≤ 1 + (k + 1 + 1) := by
      rw [show planNodes.length = 3 from rfl]
      omega
    rw [List.getElem?_eq_none hlength] at hnode
    cases hnode

theorem issuesPlan_planNodes : ∃ first issued,
    FirstInput traceMachine (Storage.logStore (StoredFile (List String)))
      (scoreOptions "/w/output") traceWorld planDataset first ∧
    ((trainNodeList traceMachine (Storage.logStore (StoredFile (List String))) (traceCall [])
      (scoreOptions "/w/output") ["c0", "c1", "c2"] planNodes).runFrom traceWorld).2.calls =
        traceWorld.calls ++ issued ∧
    IssuesPlan traceMachine (scoreOptions "/w/output") ["c0", "c1", "c2"] 1 first planNodes
      issued := by
  have hids : ["c0", "c1", "c2"].length = planNodes.length := rfl
  obtain ⟨first, issued, hfirst, hcalls, hiff⟩ := issuesPlan_iff
    (show traceMachine.retrain = false from rfl) trainedUpTo_planNodes hids
    (show planNodes[1 - 1]? = some planDataset from rfl) (works_planNodes "/w/output")
  exact ⟨first, issued, hfirst, hcalls, hiff.mpr (inWords_planNodes hfirst)⟩

/-- With a blank in the output folder, the second component is given an input that is cut. -/
theorem not_issuesPlan_spacedOutput :
    traceMachine.retrain = false ∧ TrainedUpTo 1 planNodes ∧
    Works traceMachine (Storage.logStore (StoredFile (List String))) (traceCall [])
      (scoreOptions "/w/my output") traceWorld planDataset (planNodes.drop 1) ∧
    ∀ first issued,
      ((trainNodeList traceMachine (Storage.logStore (StoredFile (List String))) (traceCall [])
        (scoreOptions "/w/my output") ["c0", "c1", "c2"] planNodes).runFrom traceWorld).2.calls =
          traceWorld.calls ++ issued →
      ¬ IssuesPlan traceMachine (scoreOptions "/w/my output") ["c0", "c1", "c2"] 1 first planNodes
        issued := by
  refine ⟨rfl, trainedUpTo_planNodes, works_planNodes "/w/my output", ?_⟩
  intro first issued hcalls hplan
  have hsecond : (((trainNodeList traceMachine (Storage.logStore (StoredFile (List String)))
      (traceCall []) (scoreOptions "/w/my output") ["c0", "c1", "c2"] planNodes).runFrom
        traceWorld).2.calls)[1]? = some (.onNewComponent ["c2", "/w/venv/library::b::master.0.0",
          "NULL", "python", "train.py", "--input", "/w/my", "output/library::a::master.0.0/",
          "--output", "/w/my", "output/library::b::master.0.0/", "--vis", "/tmp"]) := by
    decide +kernel
  rw [hcalls] at hsecond
  obtain ⟨info, hinfo, hcarries⟩ :=
    hplan.carries 1 (TreeNode.new (traceLibrary "b") false) ⟨"train.py", ∅⟩ "c2" rfl rfl rfl
  obtain rfl := CoordinatorCall.onNewComponent.inj
    (Option.some.inj (hinfo.symm.trans hsecond))
  have hword : outputPath (scoreOptions "/w/my output") (traceLibrary "a") ∈ _ :=
    hcarries.input.subset (List.mem_cons_of_mem _ (List.mem_singleton_self _))
  revert hword
  decide +kernel

end TrialManager

end SecCask.Pipeman
