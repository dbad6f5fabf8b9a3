import SecCask.Lib.PosixPath
import SecCask.Lib.PyString
import SecCask.Lib.Run
import SecCask.Pipeman.Storage

/-!
# SecCask.Pipeman.FileSystemStorage

`FileSystemStorage` (`store/filesystem.py`): one folder tree holds the branches of all keys.
The folder of a branch has the file `@HEAD` with the newest hashed version, and for each
version a folder with its value and a file `PARENTS`. A put writes the value beside these
folders first and moves it when its hashed version is known.

`put` is the list of its file operations, so that it can stop after any of them.
-/

namespace SecCask.Pipeman

open PyString (universalNewlines)

/-- The error of a storage, as far as its callers tell errors apart. -/
inductive StorageError
  | file (e : FileError)
  | valueError
  | keyError
  deriving DecidableEq, Repr

/-- `TransferDType` -/
inductive TransferDType
  | file
  | string
  deriving DecidableEq, Repr

/-- The hexadecimal digest of a SHA-256 hash. -/
structure HVersion where
  text : String
  length_eq : text.toList.length = 64
  hex : ∀ c ∈ text.toList, c ∈ "0123456789abcdef".toList
  deriving DecidableEq

/-- The name of the folder of a version. -/
def HVersion.name (hversion : HVersion) : List Char := hversion.text.toList

/-- The transfer type of a value. -/
def Value.dtype {F : Type} : Value F → TransferDType
  | .string _ => .string
  | .file _ => .file

/-- What a value is on disk. -/
def Value.bytes : Value ByteArray → ByteArray
  | .string raw => raw.toUTF8
  | .file content => content

/-- What `open(path, "r").read()` makes of the bytes of a file. -/
def readText (content : ByteArray) : Except FileError String :=
  match String.fromUTF8? content with
  | some text => .ok (String.ofList (universalNewlines text.toList))
  | none => .error .undecodable

namespace FileSystemStorage

open PosixPath

abbrev Name := List Char

/-- The components, the innermost first. -/
abbrev Path := List Name

abbrev Tree := FileTree Name ByteArray

abbrev FileSystem := Disk Name ByteArray

/-- What the storage finds around it. -/
structure Host where
  /-- `os.getcwd()` -/
  cwd : Path
  /-- `os.path.join(PREFIX, base_path)` -/
  basePath : List Char
  /-- `cpp_coordinator.get_component_key()` -/
  componentKey : String
  /-- What an encrypted file system leaves in the `.hash` file beside a file. -/
  hashFile : ByteArray → ByteArray
  /-- Whether a file of this name can be opened for writing in the temporary folder. -/
  opensTemp : String → Bool
  /-- The order in which `os.scandir` lists the names in a folder. -/
  scandir : List Name → List Name
  scandir_perm : ∀ names, (scandir names).Perm names

def genericFileName : Name := "VALUE_TEST".toList

def hashFileName : Name := "VALUE_TEST.hash".toList

def parentsFileName : Name := "PARENTS".toList

def headFileName : Name := "@HEAD".toList

/-- Where a file is looked up: a text to follow from a folder. -/
structure Location where
  folder : Path
  text : List Char

variable (host : Host)

/-! ### Lookup -/

/-- The folder of a key. -/
def keyDir (key : String) : Path := abspath host.cwd (join host.basePath key.toList)

/-- `_get_path_from_branch` -/
def getPathFromBranch (key branch : String) : Path :=
  abspath host.cwd (join (join host.basePath key.toList) branch.toList)

/-- `_get_head_version` -/
def getHeadVersion (t : Tree) (key branch : String) : Except FileError (Option String) :=
  let filePath := headFileName :: getPathFromBranch host key branch
  if t.pathExists filePath then do
    let content ← t.read filePath
    return some (← readText content)
  else return none

/-- `_get_head_path_from_branch` -/
def getHeadPathFromBranch (t : Tree) (key branch : String) :
    Except FileError (Option Location) := do
  match ← getHeadVersion host t key branch with
  | none => return none
  | some headVersion => return some ⟨getPathFromBranch host key branch, headVersion.toList⟩

/-- `list_branch` -/
def listBranch (t : Tree) (key : String) : Except FileError (List Path) :=
  let keyDir := keyDir host key
  if t.isDir keyDir then
    .ok (((host.scandir (t.children keyDir)).map (· :: keyDir)).filter t.isDir)
  else .error .missing

/-- `os.path.exists(os.path.join(folder, text))` -/
def existsIn (t : Tree) (folder : Path) (text : List Char) : Bool :=
  match follow t folder text with
  | some path => t.pathExists path
  | none => false

/-- `_get_path_from_hashed_version`. `list_branch` returns absolute paths, so joining them
with the folder of the key changes nothing; the empty text is relative to the current folder. -/
def getPathFromHashedVersion (t : Tree) (key hversion : String) : Except FileError Location := do
  match (← listBranch host t key).find? (existsIn t · hversion.toList) with
  | some branch => return ⟨branch, hversion.toList⟩
  | none => return ⟨host.cwd, []⟩

/-- `_get_file_path` -/
def getFilePath (t : Tree) (key : String) (branch hversion : Option String) :
    Except StorageError (Option Location) :=
  match hversion, branch with
  | some hversion, _ =>
      ((getPathFromHashedVersion host t key hversion).map some).mapError .file
  | none, some branch => (getHeadPathFromBranch host t key branch).mapError .file
  | none, none => .error .valueError

/-- `open(os.path.join(file_path, GENERIC_FILE_NAME), "rb").read()` -/
def readGeneric (t : Tree) (location : Location) : Except FileError ByteArray :=
  match follow t location.folder (join location.text genericFileName) with
  | some path => t.read path
  | none => .error .missing

/-- `"{}-{}-{}".format(key, branch, time.time())` -/
def remoteFile (key : String) (branch : Option String) (now : String) : String :=
  key ++ "-" ++ branch.getD "None" ++ "-" ++ now

/-- What `get` makes of the content that it finds. A file is returned as what the temporary
copy holds. -/
def transfer (now key : String) (branch : Option String) (dtype : TransferDType)
    (content : ByteArray) : Except StorageError (Value ByteArray) :=
  match dtype with
  | .file =>
      if host.opensTemp (remoteFile key branch now) then .ok (.file content)
      else .error (.file .missing)
  | .string => ((readText content).map .string).mapError .file

/-- `get` -/
def get (t : Tree) (now key : String) (branch hversion : Option String) (dtype : TransferDType) :
    Except StorageError (Option (Value ByteArray)) := do
  match ← getFilePath host t key branch hversion with
  | none => return none
  | some location =>
      let content ← (readGeneric t location).mapError .file
      return some (← transfer host now key branch dtype content)

/-- `head` -/
def head (t : Tree) (key branch : String) : Except FileError (Option String) :=
  getHeadVersion host t key branch

/-! ### Put -/

/-- A call of `put`, with the hashed version that it computes. -/
structure Put where
  key : String
  branch : String
  value : Value ByteArray
  hversion : HVersion

/-- `remote_dir` -/
def Put.remoteDir (p : Put) : Path := getPathFromBranch host p.key p.branch

/-- `new_dir` -/
def Put.newDir (p : Put) : Path := p.hversion.name :: p.remoteDir host

/-- The value is written. Where a component key is set, the file system leaves a hash file
beside it. -/
def writeValue (p : Put) : Effect FileError FileSystem PUnit := do
  Disk.write (genericFileName :: p.remoteDir host) p.value.bytes
  if host.componentKey ≠ "" then
    Disk.write (hashFileName :: p.remoteDir host) (host.hashFile p.value.bytes)

/-- `PARENTS` gets the head so far. -/
def writeParents (p : Put) : Effect FileError FileSystem PUnit := do
  let currentHead ← MonadExcept.ofExcept
    (getHeadVersion host (← MonadState.get).tree p.key p.branch)
  Disk.write (parentsFileName :: p.newDir host) (currentHead.getD "<null>").toUTF8

/-- The file operations of `put` before `_set_head_version`. -/
def storeSteps (p : Put) : List (Effect FileError FileSystem PUnit) :=
  [ Disk.checkOrCreateDir (p.remoteDir host),
    writeValue host p,
    Disk.checkOrCreateDir (p.newDir host),
    Disk.rename (genericFileName :: p.remoteDir host) (genericFileName :: p.newDir host) ] ++
  (if host.componentKey ≠ "" then
    [Disk.rename (hashFileName :: p.remoteDir host) (hashFileName :: p.newDir host)]
  else []) ++
  [writeParents host p]

/-- `_set_head_version`: opening the file empties it. -/
def setHeadSteps (p : Put) : List (Effect FileError FileSystem PUnit) :=
  [ Disk.write (headFileName :: p.remoteDir host) "".toUTF8,
    Disk.write (headFileName :: p.remoteDir host) p.hversion.text.toUTF8 ]

def putSteps (p : Put) : List (Effect FileError FileSystem PUnit) :=
  storeSteps host p ++ setHeadSteps host p

/-- `put`, stopping with an error after `n` of its file operations if it has more. -/
def putUntil (p : Put) (n : ℕ) : Effect FileError FileSystem PUnit :=
  ((putSteps host p).take n).forM id

/-! ### Runs -/

/-- A call of `put`, and the number of file operations after which it stops. -/
structure PutCall where
  put : Put
  steps : ℕ

/-- A call that is not stopped. -/
def Put.call (p : Put) : PutCall := ⟨p, (putSteps host p).length⟩

/-- The tree, and the puts that were called and those that returned, newest first. -/
structure Store where
  disk : FileSystem
  issued : List Put
  returned : List Put

/-- One call. No two calls compute the same hashed version. -/
def step (s : Store) (c : PutCall) : Option Store :=
  if c.put.hversion ∈ s.issued.map (·.hversion) then none
  else
    match Effect.runFrom (putUntil host c.put c.steps) s.disk with
    | (.ok _, disk) =>
        if (putSteps host c.put).length ≤ c.steps then
          some ⟨disk, c.put :: s.issued, c.put :: s.returned⟩
        else some ⟨disk, c.put :: s.issued, s.returned⟩
    | (.error _, disk) => some ⟨disk, c.put :: s.issued, s.returned⟩

/-- The storage before its first put, on a disk where no other storage has left heads. -/
def start (d : FileSystem) : Store := ⟨d, [], []⟩

end FileSystemStorage

end SecCask.Pipeman
