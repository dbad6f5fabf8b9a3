import SecCask.Pipeman.FileSystemStorage

/-!
# SecCask.Pipeman.Pep249Storage

`PEP249Storage` (`store/pep249.py`): the values and the heads are rows of two tables. How the
database compares texts is a parameter.
-/

namespace SecCask.Pipeman.Pep249Storage

/-- A row of the table `blobstore`. -/
structure BlobRow where
  key : String
  branch : String
  hversion : String
  blobValue : ByteArray

/-- A row of the table `head`. -/
structure HeadRow where
  key : String
  branch : String
  hversion : String

/-- The two tables, the rows in the order of their insertion. -/
structure Tables where
  blobstore : List BlobRow := []
  head : List HeadRow := []

/-- What the storage finds around it. -/
structure Server where
  /-- The comparison of two texts in a `WHERE` clause. -/
  collates : String → String → Bool
  collates_refl : ∀ a, collates a a = true
  /-- Digests are ASCII and all in lower case: every collation tells them apart. -/
  collates_digest : ∀ a b : HVersion, collates a.text b.text = true → a = b
  /-- Whether a file of this name can be opened for writing in the temporary folder. -/
  opensTemp : String → Bool

variable (server : Server)

/-- `_get_head_version` -/
def getHeadVersion (t : Tables) (key branch : String) : Option String :=
  (t.head.find? fun row => server.collates row.key key && server.collates row.branch branch).map
    (·.hversion)

/-- `_set_head_version` -/
def setHeadVersion (t : Tables) (key branch hversion : String) : Tables :=
  match getHeadVersion server t key branch with
  | none => { t with head := t.head ++ [⟨key, branch, hversion⟩] }
  | some _ =>
      { t with
        head := t.head.map fun row =>
          if server.collates row.key key && server.collates row.branch branch then
            { row with hversion := hversion }
          else row }

/-- `put`, with the hashed version that it computes. -/
def put (t : Tables) (p : FileSystemStorage.Put) : Tables :=
  setHeadVersion server
    { t with
      blobstore := t.blobstore ++ [⟨p.key, p.branch, p.hversion.text, p.value.bytes⟩] }
    p.key p.branch p.hversion.text

/-- `f"{time.time()}-{key}-{branch}"` -/
def tempFile (now key : String) (branch : Option String) : String :=
  now ++ "-" ++ key ++ "-" ++ branch.getD "None"

/-- The row is written to a temporary file, which is returned as what it holds, or read again. -/
def transfer (now key : String) (branch : Option String) (dtype : TransferDType)
    (content : ByteArray) : Except StorageError (Value ByteArray) :=
  if server.opensTemp (tempFile now key branch) then
    match dtype with
    | .file => .ok (.file content)
    | .string => ((readText content).map .string).mapError .file
  else .error (.file .missing)

/-- The version that `get` looks for. -/
def getVersionToFind (t : Tables) (key : String) (branch hversion : Option String) :
    Except StorageError (Option String) :=
  match hversion, branch with
  | some hversion, _ => .ok (some hversion)
  | none, some branch => .ok (getHeadVersion server t key branch)
  | none, none => .error .valueError

/-- `get` -/
def get (t : Tables) (now key : String) (branch hversion : Option String) (dtype : TransferDType) :
    Except StorageError (Option (Value ByteArray)) := do
  match ← getVersionToFind server t key branch hversion with
  | none => return none
  | some hversion =>
      match t.blobstore.find? fun row =>
        server.collates row.key key && server.collates row.hversion hversion with
      | none => return none
      | some row => return some (← transfer server now key branch dtype row.blobValue)

end SecCask.Pipeman.Pep249Storage
