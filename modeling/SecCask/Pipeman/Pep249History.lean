import Mathlib.Data.List.Find
import Mathlib.Data.List.Induction
import SecCask.Pipeman.FileSystemHistory
import SecCask.Pipeman.MissingVersions

/-!
# SecCask.Pipeman.Pep249History

What `PEP249Storage` returns after a sequence of puts. The rows of a key are those whose key
compares as equal, and so are the heads: texts that the collation does not tell apart are one
key or one branch to the storage. Where it tells them apart, the storage is a versioned
key-branch store, and cannot be told from `FileSystemStorage` as long as one asks for versions
that exist.
-/

namespace SecCask.Pipeman.Pep249Storage

open FileSystemStorage (Put putsOn newest)

variable {server : Server} {puts : List Put}

/-! ### Tables -/

section Update

variable {α : Type} {selected other : α → Bool} {change : α → α}

/-- An update changes the rows that it selects. -/
theorem find?_update (hkeep : ∀ row, selected (change row) = selected row) (rows : List α) :
    (rows.map fun row => if selected row then change row else row).find? selected =
      (rows.find? selected).map change := by
  induction rows with
  | nil => rfl
  | cons row rows ih =>
      cases hrow : selected row with
      | true => simp [hrow, hkeep]
      | false => simpa [hrow] using ih

/-- It changes no other rows. -/
theorem find?_update_of_disjoint (hkeep : ∀ row, other (change row) = other row)
    (hdisjoint : ∀ row, selected row = true → other row = false) (rows : List α) :
    (rows.map fun row => if selected row then change row else row).find? other =
      rows.find? other := by
  induction rows with
  | nil => rfl
  | cons row rows ih =>
      cases hrow : selected row with
      | true => simpa [hrow, hkeep, hdisjoint row hrow] using ih
      | false =>
          cases hother : other row with
          | true => simp [hrow, hother]
          | false => simpa [hrow, hother] using ih

end Update

/-- The comparison in the `WHERE` clauses on `head`. -/
def onLine (server : Server) (key branch : String) (row : HeadRow) : Bool :=
  server.collates row.key key && server.collates row.branch branch

/-- The collation is what a collation has to be. -/
def Collation (server : Server) : Prop := Equivalence fun a b => server.collates a b = true

/-- Texts that compare as equal compare as equal to the same texts. -/
theorem Collation.congr (h : Collation server) {a b : String} (hab : server.collates a b = true)
    (text : String) : server.collates text a = server.collates text b := by
  rw [Bool.eq_iff_iff]
  exact ⟨fun hta => h.trans hta hab, fun htb => h.trans htb (h.symm hab)⟩

/-- Two lines have the same rows or none in common. -/
theorem Collation.onLine_cases (h : Collation server) (key branch key' branch' : String) :
    ((server.collates key key' && server.collates branch branch') = true ∧
      onLine server key branch = onLine server key' branch') ∨
    ((server.collates key key' && server.collates branch branch') = false ∧
      ∀ row, onLine server key branch row = true → onLine server key' branch' row = false) := by
  cases hsame : server.collates key key' && server.collates branch branch' with
  | true =>
      rw [Bool.and_eq_true] at hsame
      refine Or.inl ⟨rfl, ?_⟩
      funext row
      rw [onLine, onLine, h.congr hsame.1, h.congr hsame.2]
  | false =>
      refine Or.inr ⟨rfl, fun row hrow => ?_⟩
      by_contra hrow'
      rw [onLine, Bool.and_eq_true] at hrow
      rw [Bool.not_eq_false, onLine, Bool.and_eq_true] at hrow'
      have hkey := h.trans (h.symm hrow.1) hrow'.1
      have hbranch := h.trans (h.symm hrow.2) hrow'.2
      rw [hkey, hbranch] at hsame
      cases hsame

/-- Setting a head sets it for the texts that compare as equal, and for no others. -/
theorem getHeadVersion_setHeadVersion (h : Collation server) (t : Tables)
    (key branch hversion key' branch' : String) :
    getHeadVersion server (setHeadVersion server t key branch hversion) key' branch' =
      if (server.collates key key' && server.collates branch branch') = true then some hversion
      else getHeadVersion server t key' branch' := by
  have hnew : onLine server key' branch' ⟨key, branch, hversion⟩ =
      (server.collates key key' && server.collates branch branch') := rfl
  show (((setHeadVersion server t key branch hversion).head.find?
    (onLine server key' branch')).map (·.hversion)) = ite _ _
      ((t.head.find? (onLine server key' branch')).map (·.hversion))
  rw [setHeadVersion]
  rcases hold : getHeadVersion server t key branch with _ | old
  · have hnone : t.head.find? (onLine server key branch) = none := Option.map_eq_none_iff.mp hold
    rcases h.onLine_cases key branch key' branch' with ⟨hsame, hlines⟩ | ⟨hsame, -⟩
    · rw [hsame, if_pos rfl, List.find?_append, ← hlines, hnone, hlines, List.find?_singleton,
        hnew, hsame]
      rfl
    · rw [hsame, if_neg Bool.false_ne_true, List.find?_append, List.find?_singleton, hnew, hsame]
      simp
  · obtain ⟨row, hrow, -⟩ := Option.map_eq_some_iff.mp hold
    have hfound : t.head.find? (onLine server key branch) = some row := hrow
    rcases h.onLine_cases key branch key' branch' with ⟨hsame, hlines⟩ | ⟨hsame, hdisjoint⟩
    · rw [hsame, if_pos rfl, ← hlines]
      have hupdate := @find?_update HeadRow (onLine server key branch)
        (fun row => { row with hversion := hversion }) (fun _ => rfl) t.head
      rw [hfound] at hupdate
      exact congrArg (Option.map (·.hversion)) hupdate
    · rw [hsame, if_neg Bool.false_ne_true]
      exact congrArg (Option.map (·.hversion)) (@find?_update_of_disjoint HeadRow
        (onLine server key branch) (onLine server key' branch')
        (fun row => { row with hversion := hversion }) (fun _ => rfl) hdisjoint t.head)

/-! ### After some puts -/

/-- The put is on the line, as the collation sees it. -/
def putOnLine (server : Server) (key branch : String) (p : Put) : Bool :=
  server.collates p.key key && server.collates p.branch branch

theorem tablesOf_append (puts : List Put) (p : Put) :
    tablesOf server (puts ++ [p]) = put server (tablesOf server puts) p := by
  rw [tablesOf, List.foldl_append]
  rfl

/-- The head of a line is the last put on it. -/
theorem getHeadVersion_tablesOf (h : Collation server) (puts : List Put) (key branch : String) :
    getHeadVersion server (tablesOf server puts) key branch =
      (puts.reverse.find? (putOnLine server key branch)).map (·.hversion.text) := by
  induction puts using List.reverseRecOn with
  | nil => rfl
  | append_singleton puts p ih =>
      rw [tablesOf_append, put, getHeadVersion_setHeadVersion h, List.reverse_append,
        List.reverse_singleton, List.singleton_append]
      cases hline : putOnLine server key branch p with
      | true =>
          rw [List.find?_cons_of_pos hline]
          exact if_pos hline
      | false =>
          have hnot : ¬ putOnLine server key branch p = true := by simp [hline]
          rw [List.find?_cons_of_neg hnot, ← ih]
          exact if_neg hnot

/-- `get` by a hashed version. -/
theorem get_version_tablesOf (puts : List Put) (now key hversion : String) (branch : Option String)
    (dtype : TransferDType) :
    get server (tablesOf server puts) now key branch (some hversion) dtype =
      match puts.find? (selects server key hversion) with
      | none => .ok none
      | some p => (transfer server now key branch dtype p.value.bytes).map some := by
  have hfind : (tablesOf server puts).blobstore.find? (fun row =>
        server.collates row.key key && server.collates row.hversion hversion) =
      (puts.find? (selects server key hversion)).map fun p =>
        ⟨p.key, p.branch, p.hversion.text, p.value.bytes⟩ := by
    rw [blobstore_tablesOf, List.find?_map]
    rfl
  unfold get
  dsimp only [getVersionToFind, bind, Except.bind]
  rw [hfind]
  rcases puts.find? (selects server key hversion) with _ | p
  · rfl
  · rfl

/-- `get` by a branch. -/
theorem get_branch_tablesOf (h : Collation server) (hnodup : (puts.map (·.hversion)).Nodup)
    (now key branch : String) (dtype : TransferDType) :
    get server (tablesOf server puts) now key (some branch) none dtype =
      match puts.reverse.find? (putOnLine server key branch) with
      | none => .ok none
      | some p => (transfer server now key (some branch) dtype p.value.bytes).map some := by
  have hhead := getHeadVersion_tablesOf h puts key branch
  rcases hlast : puts.reverse.find? (putOnLine server key branch) with _ | p
  · rw [hlast] at hhead
    unfold get
    dsimp only [getVersionToFind, bind, Except.bind]
    rw [hhead]
    rfl
  · rw [hlast] at hhead
    have hmem : p ∈ puts := List.mem_reverse.mp (List.mem_of_find?_eq_some hlast)
    have hline := List.find?_some hlast
    rw [putOnLine, Bool.and_eq_true] at hline
    -- The row is the one of the put: its key compares as equal to the key that is looked up.
    have hselects : selects server key p.hversion.text = selects server p.key p.hversion.text := by
      funext q
      rw [selects, selects, h.congr hline.1]
    have hversion : get server (tablesOf server puts) now key (some branch)
        (some p.hversion.text) dtype = _ :=
      get_version_tablesOf puts now key p.hversion.text (some branch) dtype
    rw [hselects, find?_selects hnodup hmem] at hversion
    refine Eq.trans ?_ hversion
    unfold get
    dsimp only [getVersionToFind, bind, Except.bind]
    rw [hhead]
    rfl

/-! ### A versioned store -/

/-- The collation tells the texts of the put from all others. -/
structure ToldApart (server : Server) (p : Put) : Prop where
  key : ∀ text, server.collates p.key text = true → p.key = text
  branch : ∀ text, server.collates p.branch text = true → p.branch = text
  hversion : ∀ text, server.collates p.hversion.text text = true → p.hversion.text = text

/-- What a versioned key-branch store returns, by the list of its puts. -/
structure VersionedStore (server : Server) (puts : List Put) : Prop where
  head : ∀ key branch, getHeadVersion server (tablesOf server puts) key branch =
    newest (putsOn puts.reverse key branch)
  getBranch : ∀ now key branch,
    match (putsOn puts.reverse key branch).head? with
    | none => ∀ dtype, get server (tablesOf server puts) now key (some branch) none dtype = .ok none
    | some p => get server (tablesOf server puts) now key (some branch) none p.value.dtype =
        .ok (some p.value)
  getVersion : ∀ now, ∀ p ∈ puts,
    get server (tablesOf server puts) now p.key none (some p.hversion.text) p.value.dtype =
      .ok (some p.value)
  missing : ∀ now key hversion dtype,
    (∀ p ∈ puts, p.key = key → p.hversion.text ≠ hversion) →
    get server (tablesOf server puts) now key none (some hversion) dtype = .ok none

/-- Both storages make the same of a content that they find. -/
theorem transfer_eq {host : FileSystemStorage.Host}
    (hopens : ∀ name, server.opensTemp name = true) (hopens' : ∀ name, host.opensTemp name = true)
    (now key : String) (branch : Option String) (dtype : TransferDType) (content : ByteArray) :
    transfer server now key branch dtype content =
      FileSystemStorage.transfer host now key branch dtype content := by
  cases dtype <;> simp [transfer, FileSystemStorage.transfer, hopens, hopens']

/-- A value comes back as it is if it is no text with a carriage return. -/
theorem transfer_value_iff (hopens : ∀ name, server.opensTemp name = true) {now key : String}
    {branch : Option String} {value : Value ByteArray} :
    transfer server now key branch value.dtype value.bytes = .ok value ↔
      ∀ raw, value = .string raw → '\r' ∉ raw.toList := by
  have hroot : ∀ name, FileSystemStorage.rootHost.opensTemp name = true := fun _ => rfl
  rw [transfer_eq hopens hroot]
  exact FileSystemStorage.transfer_value_iff hroot

/-- Where the collation tells the texts apart, a line is a key and a branch. -/
theorem find?_putOnLine (hapart : ∀ p ∈ puts, ToldApart server p) (key branch : String) :
    puts.reverse.find? (putOnLine server key branch) = (putsOn puts.reverse key branch).head? := by
  rw [putsOn, List.head?_filter]
  refine List.find?_congr fun p hp => ?_
  have hp := hapart p (List.mem_reverse.mp hp)
  rw [putOnLine, Bool.eq_iff_iff, Bool.and_eq_true, decide_eq_true_iff]
  constructor
  · intro hline
    exact ⟨hp.key _ hline.1, hp.branch _ hline.2⟩
  · intro hline
    obtain ⟨rfl, rfl⟩ := hline
    exact ⟨server.collates_refl _, server.collates_refl _⟩

theorem toldApart_exactServer (p : Put) : ToldApart exactServer p where
  key := fun _ h => of_decide_eq_true h
  branch := fun _ h => of_decide_eq_true h
  hversion := fun _ h => of_decide_eq_true h

theorem collation_exactServer : Collation exactServer where
  refl := fun _ => decide_eq_true rfl
  symm := fun h => decide_eq_true (of_decide_eq_true h).symm
  trans := fun h h' => decide_eq_true ((of_decide_eq_true h).trans (of_decide_eq_true h'))

section Both

open FileSystemStorage (Host Store History IsComponent EmptyBase putsIn step start)

variable {host : Host} {s : Store}

/-- `get` by a branch of the file system storage. -/
theorem get_branch_of_history (h : History host s) {key branch : String} (hkey : IsComponent key)
    (hbranch : IsComponent branch) (now : String) (dtype : TransferDType) :
    FileSystemStorage.get host s.disk.tree now key (some branch) none dtype =
      match (putsOn s.returned key branch).head? with
      | none => .ok none
      | some p => (FileSystemStorage.transfer host now key (some branch) dtype
          p.value.bytes).map some := by
  have hhead : s.disk.tree.lookup
      (FileSystemStorage.headFileName :: FileSystemStorage.getPathFromBranch host key branch) =
        (newest (putsIn host s.returned
          (FileSystemStorage.getPathFromBranch host key branch))).map
          fun text => .file text.toUTF8 := by
    rw [FileSystemStorage.getPathFromBranch_of_isComponent hkey hbranch]
    exact h.heads _ _
  rw [@FileSystemStorage.putsOn_eq_putsIn host _ h.plain _ _ hkey hbranch]
  rcases hlast : (putsIn host s.returned
    (FileSystemStorage.getPathFromBranch host key branch)).head? with _ | p
  · rw [newest, hlast] at hhead
    exact FileSystemStorage.get_branch_of_none hhead
  · obtain ⟨hp, hfolder⟩ := FileSystemStorage.mem_of_head?_putsIn hlast
    have hvalue := h.inv.stored p hp
    rw [Put.valueFile, Put.newDir, hfolder] at hvalue
    rw [newest, hlast] at hhead
    exact FileSystemStorage.get_branch_of_file hhead hvalue

/-- **Either storage.** After the same puts, of single components that the collation tells apart,
the file system and the database give the same heads, and the same answers to `get` by a branch
and by a version that a put has returned, errors included. -/
theorem storages_agree (hkey : host.componentKey = "")
    (hopens : ∀ name, server.opensTemp name = true) (hopens' : ∀ name, host.opensTemp name = true)
    (h : Collation server) {d : FileSystemStorage.FileSystem} (hempty : EmptyBase host d)
    (hplain : ∀ p ∈ puts, p.Plain) (hnodup : (puts.map (·.hversion)).Nodup)
    (hapart : ∀ p ∈ puts, ToldApart server p) :
    ∃ s, Exec (step host) (start d) (puts.map (Put.call host)) s ∧ s.returned = puts.reverse ∧
      (∀ key branch, IsComponent key → IsComponent branch →
        FileSystemStorage.head host s.disk.tree key branch =
          .ok (getHeadVersion server (tablesOf server puts) key branch) ∧
        ∀ now dtype, FileSystemStorage.get host s.disk.tree now key (some branch) none dtype =
          get server (tablesOf server puts) now key (some branch) none dtype) ∧
      ∀ p ∈ puts, ∀ now dtype,
        FileSystemStorage.get host s.disk.tree now p.key none (some p.hversion.text) dtype =
          get server (tablesOf server puts) now p.key none (some p.hversion.text) dtype := by
  obtain ⟨s, hrun, hreturned, hhistory⟩ := FileSystemStorage.exists_run hkey
    (FileSystemStorage.history_start hempty) hplain hnodup (fun p _ hmem => by cases hmem)
  have hlog : s.returned = puts.reverse := by
    rw [hreturned]
    exact List.append_nil _
  refine ⟨s, hrun, hlog, fun key branch hkey hbranch => ⟨?_, fun now dtype => ?_⟩, ?_⟩
  · rw [getHeadVersion_tablesOf h, find?_putOnLine hapart, ← hlog, FileSystemStorage.head,
      @FileSystemStorage.putsOn_eq_putsIn host _ hhistory.plain _ _ hkey hbranch]
    refine FileSystemStorage.getHeadVersion_of_heads ?_
    rw [FileSystemStorage.getPathFromBranch_of_isComponent hkey hbranch]
    exact hhistory.heads _ _
  · rw [get_branch_tablesOf h hnodup, find?_putOnLine hapart, ← hlog,
      get_branch_of_history hhistory hkey hbranch]
    rcases (putsOn s.returned key branch).head? with _ | p
    · rfl
    · dsimp only
      rw [transfer_eq hopens hopens']
  · intro p hp now dtype
    have hmem : p ∈ s.returned := by simpa [hlog] using hp
    rw [get_version_tablesOf, find?_selects hnodup hp,
      FileSystemStorage.get_version_of_child hhistory.inv hmem (hhistory.plain p hmem).child]
    dsimp only
    rw [transfer_eq hopens hopens']

theorem twoPuts_agree :
    ∃ s, Exec (step FileSystemStorage.rootHost) FileSystemStorage.emptyStore
        ([FileSystemStorage.putOne, FileSystemStorage.putTwo].map
          (Put.call FileSystemStorage.rootHost)) s ∧
      FileSystemStorage.get FileSystemStorage.rootHost s.disk.tree "0" "k" (some "b") none .string =
        get exactServer (tablesOf exactServer [FileSystemStorage.putOne, FileSystemStorage.putTwo])
          "0" "k" (some "b") none .string := by
  have hplain : ∀ p ∈ [FileSystemStorage.putOne, FileSystemStorage.putTwo], p.Plain := by
    intro p hp
    rcases List.mem_pair.mp hp with rfl | rfl
    · exact ⟨FileSystemStorage.isComponent_k, FileSystemStorage.isComponent_b⟩
    · exact ⟨FileSystemStorage.isComponent_k, FileSystemStorage.isComponent_b⟩
  obtain ⟨s, hrun, -, hbranch, -⟩ := storages_agree
    (show FileSystemStorage.rootHost.componentKey = "" from rfl) (fun _ => rfl) (fun _ => rfl)
    collation_exactServer FileSystemStorage.emptyBase_rootHost hplain (by decide)
    (fun p _ => toldApart_exactServer p)
  exact ⟨s, hrun, (hbranch "k" "b" FileSystemStorage.isComponent_k
    FileSystemStorage.isComponent_b).2 "0" .string⟩

end Both

end SecCask.Pipeman.Pep249Storage
